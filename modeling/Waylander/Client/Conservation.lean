import Waylander.Client.Termination

/-!
# Receive-side conservation

Let the stream consist of whole messages and, where the server closes in the
middle of one, of a last incomplete message.  What was received so far is then
a number of whole messages, removed from the client, and the contents of
`recv_buff_`: the buffer always begins at a message boundary.
-/

namespace Waylander

variable {σ ω : Type} {callbacks : List (Event σ ω) → CallbackAction ω} {S : ServerStream σ}
variable {fs : List (List Byte)} {t : List Byte}

/-! ## Whole messages to come -/

section Unconsumed

variable {c : ConnectedClient σ} {rest : List (List Byte)}

theorem noZeroSize_flatten (hrest : ∀ f ∈ rest, wire.IsFrame f) (ht : wire.Incomplete t) :
    NoZeroSize (rest.flatten ++ t) := by
  intro c hreached hheader
  have hcover := Framing.header_le_size_of_reached hrest ht hreached hheader
  exact Nat.ne_of_gt (Nat.lt_of_lt_of_le wire.header_pos hcover)

/-- Whole frames at the front of the buffer are the next ones to come. -/
theorem exists_eq_append_of_unconsumed (hrest : ∀ f ∈ rest, wire.IsFrame f)
    (ht : wire.Incomplete t) (h : c.unconsumed S = rest.flatten ++ t)
    {gs : List (List Byte)} {r : List Byte} (hgs : ∀ g ∈ gs, wire.IsFrame g)
    (hbuff : c.recvBuff = gs.flatten ++ r) :
    ∃ hs, rest = gs ++ hs ∧ r ++ c.pending S = hs.flatten ++ t := by
  rw [ConnectedClient.unconsumed, hbuff, List.append_assoc] at h
  exact Framing.exists_eq_append hrest hgs ht h.symm

/-- The scan returns whole frames. -/
theorem Scan.exists_frames (hrest : ∀ f ∈ rest, wire.IsFrame f) (ht : wire.Incomplete t)
    (h : c.unconsumed S = rest.flatten ++ t) {span r : List Byte}
    (hscan : Scan c.recvBuff span r) :
    ∃ gs : List (List Byte), (∀ g ∈ gs, wire.IsFrame g) ∧ span = gs.flatten := by
  rw [ConnectedClient.unconsumed] at h
  obtain ⟨gs, hs, t', rfl, hbuff, ht', -⟩ := Framing.exists_cut hrest ht h
  have hgs : ∀ g ∈ gs, wire.IsFrame g := by
    intro g hg
    exact hrest g (by simp [hg])
  rw [hbuff] at hscan
  exact ⟨gs, hgs, (hscan.flatten hgs ht').1⟩

/-- The parser accepts what the scan returns. -/
theorem Scan.parseNUM_ne_error (hrest : ∀ f ∈ rest, wire.IsFrame f) (ht : wire.Incomplete t)
    (h : c.unconsumed S = rest.flatten ++ t) {span r u : List Byte} {gs : List (List Byte)}
    {e : Exception} (hscan : Scan c.recvBuff span r) (hgs : ∀ g ∈ gs, wire.IsFrame g)
    (hspan : span = gs.flatten ++ u) (hu : u ≠ []) : parseNUM u ≠ .error e := by
  obtain ⟨gs', hgs', rfl⟩ := hscan.exists_frames hrest ht h
  have hflatten : gs'.flatten ++ [] = gs.flatten ++ u := by
    rw [List.append_nil, hspan]
  obtain ⟨hs, rfl, hrest⟩ :=
    Framing.exists_eq_append hgs' hgs Framing.incomplete_nil hflatten
  rw [List.append_nil] at hrest
  subst hrest
  cases hs with
  | nil => exact absurd rfl hu
  | cons f hs =>
      rw [List.flatten_cons, parseNUM_frame (hgs' f (by simp))]
      intro herror
      cases herror

end Unconsumed

/-! ## Message boundaries -/

variable (S fs t) in
/-- The client has consumed the frames `done` of the stream and `rest` is to
come. -/
structure AtBoundary (c : ConnectedClient σ) (done rest : List (List Byte)) : Prop where
  frames : fs = done ++ rest
  received : c.serverSock.received = done.flatten ++ c.recvBuff
  unconsumed : c.unconsumed S = rest.flatten ++ t

theorem atBoundary_connect {server : σ} (h : S.pending server = fs.flatten ++ t) :
    AtBoundary S fs t (.connect server) [] fs where
  frames := rfl
  received := rfl
  unconsumed := h

namespace AtBoundary

variable {c c' : ConnectedClient σ} {done rest : List (List Byte)}

theorem isFrame (h : AtBoundary S fs t c done rest) (hfs : ∀ f ∈ fs, wire.IsFrame f) :
    ∀ f ∈ rest, wire.IsFrame f := by
  intro f hf
  exact hfs f (by simp [h.frames, hf])

theorem noZeroSize (h : AtBoundary S fs t c done rest) (hfs : ∀ f ∈ fs, wire.IsFrame f)
    (ht : wire.Incomplete t) : NoZeroSize (c.unconsumed S) := by
  rw [h.unconsumed]
  exact noZeroSize_flatten (h.isFrame hfs) ht

theorem position {w : Session σ ω} (h : AtBoundary S fs t w.client done rest) :
    w.position = done.flatten.length := by
  rw [Session.position, h.received, List.length_append, Nat.add_sub_cancel_right]

theorem receives (h : AtBoundary S fs t c done rest) {bytes : List Byte}
    (hreceives : Receives S c c' bytes) : AtBoundary S fs t c' done rest where
  frames := h.frames
  received := by
    rw [hreceives.received, h.received, hreceives.recvBuff, List.append_assoc]
  unconsumed := by rw [hreceives.unconsumed, h.unconsumed]

theorem erase (h : AtBoundary S fs t c done rest) (hfs : ∀ f ∈ fs, wire.IsFrame f)
    (ht : wire.Incomplete t) {gs : List (List Byte)} {r : List Byte}
    (hgs : ∀ g ∈ gs, wire.IsFrame g) (hbuff : c.recvBuff = gs.flatten ++ r) :
    ∃ hs, rest = gs ++ hs ∧ AtBoundary S fs t { c with recvBuff := r } (done ++ gs) hs := by
  obtain ⟨hs, rfl, hrest⟩ :=
    exists_eq_append_of_unconsumed (h.isFrame hfs) ht h.unconsumed hgs hbuff
  refine ⟨hs, rfl, ?_, ?_, hrest⟩
  · rw [h.frames, List.append_assoc]
  · rw [h.received, hbuff, List.flatten_append, List.append_assoc]

end AtBoundary

/-! ## Removed messages -/

/-- The messages that the event takes out of the client. -/
def Event.removed : Event σ ω → List ParsedMessage
  | .visited _ msg _ => [msg]
  | .parsed parser => parser.messageGenerator.1
  | _ => []

/-- The messages parsed out by `recv_events` or visited by `until` so far. -/
def removed (trace : List (Event σ ω)) : List ParsedMessage :=
  trace.flatMap Event.removed

theorem removed_append (trace trace' : List (Event σ ω)) :
    removed (trace ++ trace') = removed trace ++ removed trace' :=
  List.flatMap_append

theorem removed_visits (call : UntilCall ω) (position : ℕ) (gs : List (List Byte)) :
    removed (visits call position gs : List (Event σ ω)) = gs.map .ofFrame := by
  induction gs generalizing position with
  | nil => rfl
  | cons g gs ih =>
      rw [visits, List.map_cons, ← ih (position + g.length)]
      rfl

variable (S fs t) in
/-- The removed messages are those of the frames consumed. -/
def Conserved (w : Session σ ω) : Prop :=
  ∃ done rest, AtBoundary S fs t w.client done rest ∧ removed w.trace = done.map .ofFrame

theorem Act.conserved (hfs : ∀ f ∈ fs, wire.IsFrame f) (ht : wire.Incomplete t)
    {w w' : Session σ ω} (hw : Conserved S fs t w) (h : Act S w w') : Conserved S fs t w' := by
  obtain ⟨done, rest, hboundary, hremoved⟩ := hw
  cases h with
  | read hreceives hne hfilled =>
      refine ⟨done, rest, hboundary.receives hreceives, ?_⟩
      rw [← hremoved, Session.afterRead, Session.log, removed_append]
      exact List.append_nil _
  | @parse span r hscan =>
      obtain ⟨gs, hgs, rfl⟩ :=
        hscan.exists_frames (hboundary.isFrame hfs) ht hboundary.unconsumed
      obtain ⟨hs, rfl, hboundary'⟩ := hboundary.erase hfs ht hgs hscan.split
      refine ⟨done ++ gs, hs, hboundary', ?_⟩
      rw [Session.log, removed_append, hremoved, List.map_append]
      simp [removed, Event.removed, MessageParser.messageGenerator,
        parsedMessageGenerator_flatten hgs]
  | @visit call gs r hgs hbuff =>
      obtain ⟨hs, rfl, hboundary'⟩ := hboundary.erase hfs ht hgs hbuff
      refine ⟨done ++ gs, hs, hboundary', ?_⟩
      rw [Session.consumed, removed_append, removed_append, removed_visits, hremoved,
        List.map_append]
      exact congrArg _ (List.append_nil _)

theorem Acts.conserved (hfs : ∀ f ∈ fs, wire.IsFrame f) (ht : wire.Incomplete t)
    {w w' : Session σ ω} (hw : Conserved S fs t w) (h : Acts S w w') : Conserved S fs t w' := by
  induction h with
  | refl => exact hw
  | tail _ hact ih => exact hact.conserved hfs ht ih

/-- A call that no callback leaves by an exception removes the messages it
visits. -/
theorem CallEnd.conserved (hfs : ∀ f ∈ fs, wire.IsFrame f) (ht : wire.Incomplete t)
    {w : Session σ ω} {r : Exit × Session σ ω} (hw : Conserved S fs t w)
    (h : CallEnd callbacks S w r)
    (hexit : AlwaysReturns callbacks ∨ r.1 ≠ .threw .callbackError) :
    Conserved S fs t r.2 := by
  cases h with
  | normal hacts => exact hacts.conserved hfs ht hw
  | eof hacts hreceives hpending hfilled =>
      obtain ⟨done, rest, hboundary, hremoved⟩ := hacts.conserved hfs ht hw
      refine ⟨done, rest, hboundary.receives hreceives, ?_⟩
      rw [← hremoved, Session.afterRead, Session.log, removed_append]
      exact List.append_nil _
  | malformed hacts hscan hgs hspan hu herror =>
      obtain ⟨done, rest, hboundary, -⟩ := hacts.conserved hfs ht hw
      exact absurd herror (hscan.parseNUM_ne_error (hboundary.isFrame hfs) ht
        hboundary.unconsumed hgs hspan hu)
  | callbackThrew hacts hgs hbuff hthrows =>
      rcases hexit with hreturns | hne
      · exact absurd hreturns hthrows
      · exact absurd rfl hne

theorem Conserved.noZeroSize (hfs : ∀ f ∈ fs, wire.IsFrame f) (ht : wire.Incomplete t)
    {w : Session σ ω} (hw : Conserved S fs t w) : NoZeroSize (w.client.unconsumed S) := by
  obtain ⟨done, rest, hboundary, -⟩ := hw
  exact hboundary.noZeroSize hfs ht

/-- Every call ends. -/
theorem Conserved.exists_performs (hfs : ∀ f ∈ fs, wire.IsFrame f) (ht : wire.Incomplete t)
    (hreenter : NeverReenters callbacks) {w : Session σ ω} (hw : Conserved S fs t w)
    (op : Op ω) : ∃ exit w', Performs callbacks S.toHost op w exit w' := by
  obtain ⟨⟨exit, w'⟩, hyields, -⟩ := (hw.noZeroSize hfs ht).perform_yields hreenter op
  obtain ⟨fuel, hfuel⟩ := hyields.exists_fuel
  exact ⟨exit, w', fuel, hfuel⟩

theorem conserved_start {server : σ} (h : S.pending server = fs.flatten ++ t) :
    Conserved S fs t (.start server : Session σ ω) :=
  ⟨[], fs, atBoundary_connect h, rfl⟩

theorem Reachable.conserved (hfs : ∀ f ∈ fs, wire.IsFrame f) (ht : wire.Incomplete t)
    (hreenter : NeverReenters callbacks) {allowed : Exit → Prop}
    (hallowed : AlwaysReturns callbacks ∨ ¬allowed (.threw .callbackError)) {server : σ}
    (hserver : S.pending server = fs.flatten ++ t) {w : Session σ ω}
    (hw : Reachable callbacks S.toHost allowed (.start server) w) : Conserved S fs t w := by
  induction hw with
  | start => exact conserved_start hserver
  | @step w w' op exit _ hop hexit ih =>
      have hend := (ih.noZeroSize hfs ht).callEnd hreenter hop
      apply hend.conserved hfs ht ih
      refine hallowed.imp_right ?_
      rintro hnot rfl
      exact hnot hexit

/-- After any calls whose callbacks return, the frames of the messages removed
from the client, followed by the contents of the buffer, are the bytes received,
and they are the first frames of the stream. -/
theorem removed_append_recvBuff (hreturns : AlwaysReturns callbacks)
    (hfs : ∀ f ∈ fs, wire.IsFrame f) (ht : wire.Incomplete t) {server : σ}
    (hserver : S.pending server = fs.flatten ++ t) {w : Session σ ω}
    (hw : Reachable callbacks S.toHost (fun _ => True) (.start server) w) :
    ((removed w.trace).map ParsedMessage.frame).flatten ++ w.client.recvBuff =
        w.client.serverSock.received ∧
      ∃ done rest, fs = done ++ rest ∧ (removed w.trace).map ParsedMessage.frame = done ∧
        w.client.recvBuff ++ w.client.pending S = rest.flatten ++ t := by
  obtain ⟨done, rest, hboundary, hremoved⟩ :=
    hw.conserved hfs ht hreturns.neverReenters (Or.inl hreturns) hserver
  have hdone : ∀ f ∈ done, wire.IsFrame f := by
    intro f hf
    exact hfs f (by simp [hboundary.frames, hf])
  have hframes : (removed w.trace).map ParsedMessage.frame = done := by
    rw [hremoved, map_frame_ofFrame hdone]
  rw [hframes]
  exact ⟨hboundary.received.symm, done, rest, hboundary.frames, rfl, hboundary.unconsumed⟩

/-- A client that calls `recv_events` once on a stream of two messages. -/
theorem removed_append_recvBuff_recvEvents :
    ∃ (exit : Exit) (w : Session (List Byte) Unit),
      Performs (fun _ => .returns) (boundedServer 99).toHost .recvEvents
        (.start [1, 0, 0, 0, 0, 0, 8, 0, 2, 0, 0, 0, 1, 0, 8, 0]) exit w ∧
      ((removed w.trace).map ParsedMessage.frame).flatten ++ w.client.recvBuff =
          w.client.serverSock.received ∧
        ∃ done rest, [[1, 0, 0, 0, 0, 0, 8, 0], [2, 0, 0, 0, 1, 0, 8, 0]] = done ++ rest ∧
          (removed w.trace).map ParsedMessage.frame = done ∧
          w.client.recvBuff ++ w.client.pending (boundedServer 99) = rest.flatten ++ [] := by
  have hfs : ∀ f ∈ [[1, 0, 0, 0, 0, 0, 8, 0], [2, 0, 0, 0, 1, 0, 8, 0]], wire.IsFrame f := by
    decide
  have hreturns : AlwaysReturns (fun _ : List (Event (List Byte) Unit) => .returns) :=
    fun _ => rfl
  have hstart : Conserved (boundedServer 99) [[1, 0, 0, 0, 0, 0, 8, 0], [2, 0, 0, 0, 1, 0, 8, 0]] []
      (.start [1, 0, 0, 0, 0, 0, 8, 0, 2, 0, 0, 0, 1, 0, 8, 0] : Session (List Byte) Unit) :=
    conserved_start rfl
  obtain ⟨exit, w, hop⟩ := hstart.exists_performs hfs Framing.incomplete_nil
    hreturns.neverReenters .recvEvents
  exact ⟨exit, w, hop, removed_append_recvBuff hreturns hfs Framing.incomplete_nil rfl
    (.step .start hop trivial)⟩

end Waylander
