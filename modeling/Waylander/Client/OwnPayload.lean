import Waylander.Client.AtMostOnce
import Waylander.Client.Invariants
import Waylander.Wire.ReferenceFormat

/-!
# Dispatched payloads

Whatever `until` or `message_visit` hands to a function object is the payload of
one message, cut out of the received bytes by that message's own size field.
`interpert_message_payload` does not compare the payload with the argument list
of the type that the overload was registered for: that the payload is a valid
encoding is a documented precondition.  Under it, and if no argument follows a
null string, the values are read from the payload and the views lie in it.
-/

namespace Waylander

open Fallible LittleEndian

variable {σ ω : Type}

/-! ## `message_visit` -/

/-- What a message is handed to. -/
inductive Visit (ω : Type)
  | overload (ov : ω) (payload : List Byte)
  | default (msg : ParsedMessage)
  deriving DecidableEq

def messageVisit (mos : MessageOverloadSet ω) (msg : ParsedMessage) : Visit ω :=
  match mos.overloadResolution msg.objectId msg.opcode with
  | some ov => .overload ov msg.arguments
  | none => .default msg

/-- `message_visit` for a range: the visits that were made, of which the last may
have thrown, and the exception that ended them. -/
def messageVisitRange (throws : List (Visit ω) → Bool) (mos : MessageOverloadSet ω) :
    List (Visit ω) → List ParsedMessage → Option Exception → List (Visit ω) × Option Exception
  | visits, [], e => (visits, e)
  | visits, msg :: msgs, e =>
      let visits := visits ++ [messageVisit mos msg]
      if throws visits then
        (visits, some .callbackError)
      else
        messageVisitRange throws mos visits msgs e

theorem exists_of_mem_messageVisitRange {throws : List (Visit ω) → Bool}
    {mos : MessageOverloadSet ω} {visits : List (Visit ω)} {msgs : List ParsedMessage}
    {e : Option Exception} {visit : Visit ω}
    (h : visit ∈ (messageVisitRange throws mos visits msgs e).1) :
    visit ∈ visits ∨ ∃ msg ∈ msgs, visit = messageVisit mos msg := by
  induction msgs generalizing visits with
  | nil => exact Or.inl h
  | cons msg msgs ih =>
      have hlast : visit ∈ visits ++ [messageVisit mos msg] →
          visit ∈ visits ∨ ∃ m ∈ msg :: msgs, visit = messageVisit mos m := by
        intro hmem
        rcases List.mem_append.mp hmem with hmem | hmem
        · exact Or.inl hmem
        · exact Or.inr ⟨msg, by simp, List.mem_singleton.mp hmem⟩
      rw [messageVisitRange] at h
      by_cases hthrows : throws (visits ++ [messageVisit mos msg]) = true
      · rw [if_pos hthrows] at h
        exact hlast h
      · rw [if_neg hthrows] at h
        rcases ih h with hmem | ⟨m, hm, rfl⟩
        · exact hlast hmem
        · exact Or.inr ⟨m, by simp [hm], rfl⟩

/-! ## Values read from a payload -/

/-- The value's bytes are bytes of the payload. -/
def Argument.ReadFrom (payload : List Byte) : Argument → Prop
  | .static a => toBytes 4 a.toWord.toNat <:+: payload
  | .wstring str => str <:+: payload
  | .warray arr => arr <:+: payload
  | .wfd _ => False

theorem isInfix_drop_take (bytes : List Byte) (i n : ℕ) : (bytes.drop i).take n <:+: bytes :=
  (List.take_prefix n _).isInfix.trans (List.drop_suffix i bytes).isInfix

theorem isInfix_memcpyFrom {build : Build} {v bytes : List Byte} {i n : ℕ}
    (h : memcpyFrom build v i n = .ok bytes) : bytes <:+: v ∧ bytes.length = n := by
  obtain ⟨-, -, hcopy⟩ := bind_eq_ok_iff.mp h
  by_cases hinside : i + n ≤ v.length
  · rw [if_pos hinside] at hcopy
    obtain rfl := Except.ok.inj hcopy
    refine ⟨isInfix_drop_take v i n, ?_⟩
    rw [List.length_take, List.length_drop]
    omega
  · rw [if_neg hinside] at hcopy
    exact absurd hcopy (by simp [throw, throwThe, MonadExceptOf.throw])

theorem isInfix_viewOf {payload view : List Byte} {i n : ℕ}
    (h : viewOf payload i n = .ok view) : view <:+: payload := by
  by_cases hinside : i + n ≤ payload.length
  · rw [viewOf, if_pos hinside] at h
    obtain rfl := Except.ok.inj h
    exact isInfix_drop_take payload i n
  · rw [viewOf, if_neg hinside] at h
    exact absurd h (by simp)

section Reading

variable {build : Build} {payload : List Byte}

theorem readElement32aligned_readFrom {bytesRead next : ℕ} {t : ArgumentType}
    {arg : Argument} (h : readElement32aligned build payload bytesRead t = .ok (arg, next)) :
    arg.ReadFrom payload := by
  cases t with
  | static t =>
      obtain ⟨⟨elem, next'⟩, hread, heq⟩ := bind_eq_ok_iff.mp h
      obtain ⟨bytes, hcopy, hvalue⟩ := bind_eq_ok_iff.mp hread
      obtain ⟨hinner, hlength⟩ := isInfix_memcpyFrom hcopy
      obtain ⟨rfl, -⟩ := Prod.mk.inj (Except.ok.inj hvalue)
      obtain ⟨rfl, -⟩ := Prod.mk.inj (Except.ok.inj heq)
      have hword : ofBytes bytes < 2 ^ 32 := by
        simpa [hlength] using ofBytes_lt bytes
      have hbytes : toBytes 4 (ofBytes bytes) = bytes := by
        simpa only [hlength] using toBytes_ofBytes bytes
      rw [Argument.ReadFrom, StaticType.toWord_ofWord, BitVec.toNat_ofNat,
        Nat.mod_eq_of_lt hword, hbytes]
      exact hinner
  | wstring =>
      obtain ⟨⟨str, next'⟩, hread, heq⟩ := bind_eq_ok_iff.mp h
      obtain ⟨rfl, -⟩ := Prod.mk.inj (Except.ok.inj heq)
      obtain ⟨bytes, -, hstr⟩ := bind_eq_ok_iff.mp hread
      by_cases hnull : ofBytes bytes = 0
      · rw [if_pos hnull] at hstr
        obtain ⟨rfl, -⟩ := Prod.mk.inj (Except.ok.inj hstr)
        exact List.nil_infix
      · rw [if_neg hnull] at hstr
        obtain ⟨-, -, hstr⟩ := bind_eq_ok_iff.mp hstr
        obtain ⟨view, hview, hstr⟩ := bind_eq_ok_iff.mp hstr
        obtain ⟨rfl, -⟩ := Prod.mk.inj (Except.ok.inj hstr)
        exact isInfix_viewOf hview
  | warray =>
      obtain ⟨⟨arr, next'⟩, hread, heq⟩ := bind_eq_ok_iff.mp h
      obtain ⟨rfl, -⟩ := Prod.mk.inj (Except.ok.inj heq)
      obtain ⟨bytes, -, harr⟩ := bind_eq_ok_iff.mp hread
      obtain ⟨-, -, harr⟩ := bind_eq_ok_iff.mp harr
      obtain ⟨view, hview, harr⟩ := bind_eq_ok_iff.mp harr
      obtain ⟨rfl, -⟩ := Prod.mk.inj (Except.ok.inj harr)
      exact isInfix_viewOf hview
  | wfd => exact absurd h (by simp [readElement32aligned, throw, throwThe, MonadExceptOf.throw])

theorem readElements_readFrom {types : List ArgumentType} {bytesRead : ℕ}
    {values : List Argument} (h : readElements build payload bytesRead types = .ok values) :
    ∀ v ∈ values, v.ReadFrom payload := by
  induction types generalizing bytesRead values with
  | nil =>
      obtain rfl := Except.ok.inj h
      simp
  | cons t types ih =>
      obtain ⟨⟨arg, next⟩, hread, hrest⟩ := bind_eq_ok_iff.mp h
      obtain ⟨args, hargs, heq⟩ := bind_eq_ok_iff.mp hrest
      obtain rfl := Except.ok.inj heq
      intro v hv
      rcases List.mem_cons.mp hv with rfl | hv
      · exact readElement32aligned_readFrom hread
      · exact ih hargs v hv

end Reading

/-- A payload that is a valid encoding, with no argument behind a null string, is
interpreted as values read from it. -/
def DecodesWithin (payload : List Byte) : Prop :=
  ∀ types args, parseWirePayload types payload = some args → afterNull args = [] →
    ∃ values, interpertMessagePayload .unchecked payload types = .ok values ∧
      ∀ v ∈ values, v.ReadFrom payload

theorem decodesWithin (payload : List Byte) : DecodesWithin payload := by
  intro types args hvalid hnull
  have hzero : ∀ arg ∈ afterNull args, arg.IsZeroWord := by
    rw [hnull]
    intro arg harg
    exact absurd harg List.not_mem_nil
  have hread := (readElements_of_parse hvalid []).2 hzero
  exact ⟨_, hread, readElements_readFrom hread⟩

/-! ## Messages cut out of the received bytes -/

/-- The message stands at `position` of `bytes`, and its size field covers exactly
its header and its payload. -/
def OwnFrame (bytes : List Byte) (position : ℕ) (msg : ParsedMessage) : Prop :=
  ∃ f, wire.IsFrame f ∧ f <+: bytes.drop position ∧ msg = .ofFrame f

theorem OwnFrame.append {bytes : List Byte} {position : ℕ} {msg : ParsedMessage}
    (h : OwnFrame bytes position msg) (more : List Byte) :
    OwnFrame (bytes ++ more) position msg := by
  obtain ⟨f, hf, hfront, rfl⟩ := h
  have hlt : position ≤ bytes.length := by
    by_contra hle
    rw [List.drop_eq_nil_of_le (Nat.le_of_not_le hle), List.prefix_nil] at hfront
    exact hf.ne_nil hfront
  refine ⟨f, hf, ?_, rfl⟩
  rw [List.drop_append_of_le_length hlt]
  exact hfront.trans (List.prefix_append _ _)

theorem OwnFrame.of_parseNUM {bytes pre unparsed rest : List Byte} {msg : ParsedMessage}
    (hbytes : bytes = pre ++ unparsed ++ rest) (h : parseNUM unparsed = .ok msg) :
    OwnFrame bytes pre.length msg := by
  obtain ⟨f, rest', hf, rfl, rfl⟩ := exists_frame_of_parseNUM h
  refine ⟨f, hf, ?_, rfl⟩
  rw [hbytes, List.append_assoc, List.drop_left, List.append_assoc]
  exact List.prefix_append _ _

/-- Every message that the parser yields. -/
theorem exists_ownFrame_of_mem_parsedMessageGenerator {bytes : List Byte}
    {msg : ParsedMessage} (h : msg ∈ (parsedMessageGenerator bytes).1) :
    ∃ position, OwnFrame bytes position msg := by
  obtain ⟨fs, rest, hfs, rfl, hmsgs, -⟩ := exists_frames_parsedMessageGenerator bytes
  rw [hmsgs] at h
  obtain ⟨f, hf, rfl⟩ := List.mem_map.mp h
  obtain ⟨pre, post, rfl⟩ := List.append_of_mem hf
  refine ⟨pre.flatten.length, f, hfs f hf, ?_, rfl⟩
  rw [List.flatten_append, List.append_assoc, List.drop_left, List.flatten_cons,
    List.append_assoc]
  exact List.prefix_append _ _

/-! ## Runs -/

/-- The buffer is the end of what was received, and every message visited stands
where it was received. -/
structure VisitsOwnFrames (w : Session σ ω) : Prop where
  received : ∃ pre, w.client.serverSock.received = pre ++ w.client.recvBuff
  visited : ∀ position msg handler, .visited position msg handler ∈ w.trace →
    OwnFrame w.client.serverSock.received position msg

theorem VisitsOwnFrames.log {w : Session σ ω} (h : VisitsOwnFrames w) {event : Event σ ω}
    (hevent : ∀ position msg handler, event = .visited position msg handler →
      OwnFrame w.client.serverSock.received position msg) : VisitsOwnFrames (w.log event) := by
  refine ⟨h.received, ?_⟩
  intro position msg handler hmem
  rcases List.mem_append.mp hmem with hmem | hmem
  · exact h.visited position msg handler hmem
  · exact hevent position msg handler (List.mem_singleton.mp hmem).symm

/-- Fewer bytes in the buffer. -/
theorem VisitsOwnFrames.drop {w : Session σ ω} (h : VisitsOwnFrames w) {span rest : List Byte}
    (hbuff : w.client.recvBuff = span ++ rest) :
    VisitsOwnFrames { w with client := { w.client with recvBuff := rest } } := by
  obtain ⟨⟨pre, hreceived⟩, hvisited⟩ := h
  refine ⟨⟨pre ++ span, ?_⟩, hvisited⟩
  rw [List.append_assoc, ← hbuff]
  exact hreceived

theorem kept_visitsOwnFrames (S : ServerStream σ) :
    Kept S.toHost (VisitsOwnFrames : Session σ ω → Prop) where
  visited := by
    intro w span unparsed rest msg position handler hw hbuff hposition hparse
    apply hw.log
    intro position' msg' handler' heq
    obtain ⟨rfl, rfl, -⟩ := Event.visited.inj heq
    obtain ⟨pre, hreceived⟩ := hw.received
    have hframe := OwnFrame.of_parseNUM (rfl : pre ++ span ++ unparsed ++ rest = _) hparse
    rw [hposition, Session.position, hreceived, List.length_append, Nat.add_sub_cancel_right,
      hbuff, ← List.length_append]
    simpa using hframe
  returned := by
    intro w exit hw
    apply hw.log
    intro position msg handler heq
    cases heq
  erased := by
    intro w count hw
    have hlog : VisitsOwnFrames (w.log (.erased count w.client.recvBuff.length)) := by
      apply hw.log
      intro position msg handler heq
      cases heq
    by_cases hheld : count ≤ w.client.recvBuff.length
    · rw [Session.erase, if_pos hheld]
      exact hlog.drop (List.take_append_drop count w.client.recvBuff).symm
    · rw [Session.erase, if_neg hheld]
      exact hlog
  read := by
    intro w fuel r c hw hrecv
    obtain ⟨bytes, hreceives, -⟩ := recvMoreData_receives hrecv
    have hlog : VisitsOwnFrames (w.log (.reads w.client)) := by
      apply hw.log
      intro position msg handler heq
      cases heq
    obtain ⟨pre, hreceived⟩ := hw.received
    constructor
    · refine ⟨pre, ?_⟩
      rw [Session.afterRead, hreceives.received, hreceives.recvBuff, hreceived,
        List.append_assoc]
    · intro position msg handler hmem
      have hframe := (hlog.visited position msg handler hmem).append bytes
      rw [Session.afterRead, hreceives.received]
      exact hframe
  parsed := by
    intro w span rest hw hbuff
    apply (hw.drop hbuff).log
    intro position msg handler heq
    cases heq

theorem visitsOwnFrames_start (server : σ) :
    VisitsOwnFrames (.start server : Session σ ω) where
  received := ⟨[], rfl⟩
  visited := by
    intro position msg handler hmem
    exact absurd hmem List.not_mem_nil

/-- The payload that a function object is invoked with. -/
def Event.payload : Event σ ω → Option (List Byte)
  | .visited _ msg (.overload _) => some msg.arguments
  | .visited _ msg .untilCallback => some msg.arguments
  | _ => none

/-- In any run of a client, whatever its function objects do, every message that
`until` visits is a message of the received bytes, and its payload is interpreted
within itself; so is that of every message that `message_visit` visits. -/
theorem dispatched_own_payload {callbacks : List (Event σ ω) → CallbackAction ω}
    {S : ServerStream σ} {allowed : Exit → Prop} {server : σ} {w : Session σ ω}
    (hw : Reachable callbacks S.toHost allowed (.start server) w) :
    (∀ position msg handler, .visited position msg handler ∈ w.trace →
      OwnFrame w.client.serverSock.received position msg ∧ DecodesWithin msg.arguments) ∧
    ∀ (throws : List (Visit ω) → Bool) (mos : MessageOverloadSet ω) (parser : MessageParser)
      (visit : Visit ω),
      visit ∈ (messageVisitRange throws mos [] parser.messageGenerator.1
        parser.messageGenerator.2).1 →
      ∃ position msg, OwnFrame parser.unparsedMessages position msg ∧
        visit = messageVisit mos msg ∧ DecodesWithin msg.arguments := by
  constructor
  · intro position msg handler hmem
    have hkept := (kept_visitsOwnFrames S).reachable (visitsOwnFrames_start server) hw
    exact ⟨hkept.visited position msg handler hmem, decodesWithin _⟩
  · intro throws mos parser visit hmem
    rcases exists_of_mem_messageVisitRange hmem with hnil | ⟨msg, hmsg, rfl⟩
    · exact absurd hnil List.not_mem_nil
    · obtain ⟨position, hframe⟩ := exists_ownFrame_of_mem_parsedMessageGenerator hmsg
      exact ⟨position, msg, hframe, rfl, decodesWithin _⟩

/-- An overload gets a number, a string and an array, and a message without an overload
goes to the default one. -/
theorem dispatched_own_payload_two :
    let payload : List Byte := [7, 0, 0, 0, 3, 0, 0, 0, 104, 105, 0, 0, 2, 0, 0, 0, 1, 2, 0, 0]
    let f : List Byte := [1, 0, 0, 0, 0, 0, 28, 0] ++ payload
    let g : List Byte := [2, 0, 0, 0, 0, 0, 12, 0, 0, 1, 0, 0]
    let parser : MessageParser := { unparsedMessages := f ++ g }
    ∃ w : Session (List Byte) Unit,
      Performs (fun _ => .returns) (boundedServer 99).toHost (.untilCall (waitFor 2))
        (.start (f ++ g)) .normal w ∧
      w.trace.filterMap Event.payload = [payload] ∧
      interpertMessagePayload .unchecked payload [.static .wuint, .wstring, .warray] =
        .ok [.static (.wuint 7), .wstring [104, 105], .warray [1, 2]] ∧
      messageVisitRange (fun _ => false) (waitFor 2).mos [] parser.messageGenerator.1
        parser.messageGenerator.2 = ([.overload () payload, .default (.ofFrame g)], none) ∧
      (∀ position msg handler, .visited position msg handler ∈ w.trace →
        OwnFrame w.client.serverSock.received position msg ∧ DecodesWithin msg.arguments) ∧
      ∀ (throws : List (Visit Unit) → Bool) (mos : MessageOverloadSet Unit)
        (parser : MessageParser) (visit : Visit Unit),
        visit ∈ (messageVisitRange throws mos [] parser.messageGenerator.1
          parser.messageGenerator.2).1 →
        ∃ position msg, OwnFrame parser.unparsedMessages position msg ∧
          visit = messageVisit mos msg ∧ DecodesWithin msg.arguments := by
  intro payload f g parser
  have hrun : ((Op.untilCall (waitFor 2)).perform (fun _ => .returns) (boundedServer 99).toHost 7
      (.start (f ++ g) : Session (List Byte) Unit)).map
        (fun r => (r.1, r.2.trace.filterMap Event.payload)) = some (.normal, [payload]) := by
    decide +kernel
  obtain ⟨⟨exit, w⟩, hperform, hresult⟩ := Option.map_eq_some_iff.mp hrun
  obtain ⟨rfl, hpayloads⟩ := Prod.mk.inj hresult
  have hop : Performs (fun _ => .returns) (boundedServer 99).toHost (.untilCall (waitFor 2))
      (.start (f ++ g)) .normal w := ⟨7, hperform⟩
  have hw : Reachable (fun _ => .returns) (boundedServer 99).toHost (fun _ => True)
      (.start (f ++ g)) w := .step .start hop trivial
  exact ⟨w, hop, hpayloads, by decide +kernel, by decide +kernel, dispatched_own_payload hw⟩

/-- The overload for object 1 is invoked with a payload of no bytes; if it takes a
number, that is read from behind the payload. -/
theorem dispatched_short_payload :
    ((Op.untilCall (waitFor 2)).perform (fun _ => .returns) (boundedServer 99).toHost 7
        (.start [1, 0, 0, 0, 0, 0, 8, 0, 2, 0, 0, 0, 0, 0, 8, 0])).map
        (fun r => (r.1, r.2.trace.filterMap Event.payload)) = some (.normal, [[]]) ∧
      interpertMessagePayload .unchecked [] [.static .wuint] = .error .outside := by
  decide +kernel

end Waylander
