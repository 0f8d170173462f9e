import Waylander.Client.OverloadTable
import Waylander.Client.OwnPayload

/-!
# Visiting messages

`message_visit` over a hash table of overloads that change their own state.
What the visit of a range should do is said by the list of `add_overload` calls
and the messages alone.  Seen from outside, where an overload is known by a name
that its calls do not change, these visits are those of an overload set without
state.
-/

namespace Waylander

namespace OverloadTable

/-- `key_t` of a message. -/
def key (msg : ParsedMessage) : OverloadKey := (msg.objectId, msg.opcode)

/-- A call of a callable, given by its state at that time. -/
inductive Invocation (ω δ : Type) where
  | overload (callable : ω) (arguments : List Byte)
  | default (callable : δ) (msg : ParsedMessage)
  deriving DecidableEq

/-- The overload set, the default overload and the calls made so far. -/
structure Dispatcher (ω δ : Type) where
  overloads : OverloadTable ω
  defaultOverload : δ
  invocations : List (Invocation ω δ) := []

section Visit

variable {ω δ : Type} (rt : Runtime) (call : ω → List Byte → Option Exception × ω)
  (callDefault : δ → ParsedMessage → Option Exception × δ)

/-- `message_visit`, with the exception that leaves the callable. -/
def messageVisit (s : Dispatcher ω δ) (msg : ParsedMessage) :
    Option Exception × Dispatcher ω δ :=
  match s.overloads.overloadResolution rt msg.objectId msg.opcode with
  | some overload =>
      let (e, overload') := call overload msg.arguments
      (e, { s with
            overloads := s.overloads.modify rt.hash keyEq (key msg) fun _ => overload'
            invocations := s.invocations ++ [.overload overload msg.arguments] })
  | none =>
      let (e, defaultOverload') := callDefault s.defaultOverload msg
      (e, { s with
            defaultOverload := defaultOverload'
            invocations := s.invocations ++ [.default s.defaultOverload msg] })

/-- `message_visit` for a range. -/
def messageVisitRange : Dispatcher ω δ → List ParsedMessage → Option Exception × Dispatcher ω δ
  | s, [] => (none, s)
  | s, msg :: msgs =>
      match messageVisit rt call callDefault s msg with
      | (some e, s') => (some e, s')
      | (none, s') => messageVisitRange s' msgs

/-! ## What a visit should do -/

/-- The overload for `k` after the messages `earlier`. -/
def overloadAfter (k : OverloadKey) (earlier : List ParsedMessage) (overload : ω) : ω :=
  (earlier.filter fun msg => key msg = k).foldl
    (fun overload msg => (call overload msg.arguments).2) overload

variable (adds : List (OverloadKey × ω)) (start : δ)

/-- The default overload after the messages `earlier`. -/
def defaultAfter (earlier : List ParsedMessage) : δ :=
  (earlier.filter fun msg => (adds.lookup (key msg)).isNone).foldl
    (fun callable msg => (callDefault callable msg).2) start

/-- The call for a message behind `earlier`: the first overload added for its
pair, or the default overload, in the state that its own messages among
`earlier` left it in. -/
def expectedInvocation (earlier : List ParsedMessage) (msg : ParsedMessage) :
    Invocation ω δ :=
  match adds.lookup (key msg) with
  | some overload => .overload (overloadAfter call (key msg) earlier overload) msg.arguments
  | none => .default (defaultAfter callDefault adds start earlier) msg

def Invocation.exception : Invocation ω δ → Option Exception
  | .overload callable arguments => (call callable arguments).1
  | .default callable msg => (callDefault callable msg).1

/-- The messages behind `earlier` up to the first whose call throws, and what it
throws. -/
def untilThrow : List ParsedMessage → List ParsedMessage → List ParsedMessage × Option Exception
  | _, [] => ([], none)
  | earlier, msg :: msgs =>
      match (expectedInvocation call callDefault adds start earlier msg).exception call
          callDefault with
      | some e => ([msg], some e)
      | none =>
          let (visited, e) := untilThrow (earlier ++ [msg]) msgs
          (msg :: visited, e)

/-- The dispatcher has visited the messages `earlier` as it should. -/
structure Follows (earlier : List ParsedMessage) (s : Dispatcher ω δ) : Prop where
  overloads : ∀ k, s.overloads.find rt.hash keyEq k =
    (adds.lookup k).map (overloadAfter call k earlier)
  defaultOverload : s.defaultOverload = defaultAfter callDefault adds start earlier
  length : s.invocations.length = earlier.length
  invoked : ∀ j msg, earlier[j]? = some msg → s.invocations[j]? =
    some (expectedInvocation call callDefault adds start (earlier.take j) msg)

theorem overloadAfter_append (k : OverloadKey) (earlier : List ParsedMessage)
    (msg : ParsedMessage) (overload : ω) :
    overloadAfter call k (earlier ++ [msg]) overload =
      if key msg = k then (call (overloadAfter call k earlier overload) msg.arguments).2
      else overloadAfter call k earlier overload := by
  by_cases hkey : key msg = k
  · simp [overloadAfter, hkey]
  · simp [overloadAfter, hkey]

theorem defaultAfter_append (earlier : List ParsedMessage) (msg : ParsedMessage) :
    defaultAfter callDefault adds start (earlier ++ [msg]) =
      if adds.lookup (key msg) = none then
        (callDefault (defaultAfter callDefault adds start earlier) msg).2
      else defaultAfter callDefault adds start earlier := by
  cases hfirst : adds.lookup (key msg) with
  | none => simp [defaultAfter, hfirst]
  | some overload => simp [defaultAfter, hfirst]

theorem follows_start :
    Follows rt call callDefault adds start []
      { overloads := addOverloads rt adds, defaultOverload := start } where
  overloads := by
    intro k
    have hid : overloadAfter call k [] = id := rfl
    rw [hid, Option.map_id]
    exact overloadResolution_addOverloads rt adds k.1 k.2
  defaultOverload := rfl
  length := rfl
  invoked := by simp

variable {rt call callDefault adds start}

/-- The calls made, once the call for one more message stands behind them. -/
theorem Follows.invoked_append {earlier : List ParsedMessage} {s : Dispatcher ω δ}
    (h : Follows rt call callDefault adds start earlier s) (msg : ParsedMessage) (j : ℕ)
    (msg' : ParsedMessage) (hj : (earlier ++ [msg])[j]? = some msg') :
    (s.invocations ++ [expectedInvocation call callDefault adds start earlier msg])[j]? =
      some (expectedInvocation call callDefault adds start ((earlier ++ [msg]).take j) msg') := by
  by_cases hlt : j < earlier.length
  · rw [List.getElem?_append_left hlt] at hj
    rw [List.getElem?_append_left (h.length ▸ hlt), List.take_append_of_le_length hlt.le]
    exact h.invoked j msg' hj
  · rw [List.getElem?_append_right (Nat.not_lt.mp hlt), List.getElem?_singleton,
      Option.ite_none_right_eq_some] at hj
    obtain ⟨hlast, hmsg⟩ := hj
    obtain rfl := Option.some.inj hmsg
    obtain rfl : j = earlier.length := by omega
    rw [List.take_left, ← h.length, List.getElem?_concat_length]

/-- A message without an overload changes the default overload only. -/
theorem Follows.visit_default {earlier : List ParsedMessage} {s : Dispatcher ω δ}
    (h : Follows rt call callDefault adds start earlier s) {msg : ParsedMessage}
    (hfirst : adds.lookup (key msg) = none) (calls : List (Invocation ω δ))
    (hcalls : calls =
      s.invocations ++ [expectedInvocation call callDefault adds start earlier msg]) :
    Follows rt call callDefault adds start (earlier ++ [msg])
      { overloads := s.overloads
        defaultOverload := (callDefault s.defaultOverload msg).2
        invocations := calls } where
  overloads := by
    intro k
    rw [h.overloads k]
    cases hk : adds.lookup k with
    | none => rfl
    | some overload =>
        have hother : key msg ≠ k := by
          rintro rfl
          rw [hfirst] at hk
          cases hk
        simp [overloadAfter_append, hother]
  defaultOverload := by rw [defaultAfter_append, if_pos hfirst, h.defaultOverload]
  length := by simp [hcalls, h.length]
  invoked := by
    rw [hcalls]
    exact h.invoked_append msg

/-- A message with an overload changes this overload only. -/
theorem Follows.visit_overload {earlier : List ParsedMessage} {s : Dispatcher ω δ}
    (h : Follows rt call callDefault adds start earlier s) {msg : ParsedMessage} {overload : ω}
    (hfirst : adds.lookup (key msg) = some overload) (calls : List (Invocation ω δ))
    (hcalls : calls =
      s.invocations ++ [expectedInvocation call callDefault adds start earlier msg]) :
    Follows rt call callDefault adds start (earlier ++ [msg])
      { overloads := s.overloads.modify rt.hash keyEq (key msg) fun _ =>
          (call (overloadAfter call (key msg) earlier overload) msg.arguments).2
        defaultOverload := s.defaultOverload
        invocations := calls } where
  overloads := by
    intro k
    rw [HashTable.find_modify (lawful_key rt), h.overloads k]
    by_cases hkey : key msg = k
    · subst hkey
      simp [keyEq_iff, hfirst, overloadAfter_append]
    · have hother : overloadAfter call k (earlier ++ [msg]) = overloadAfter call k earlier := by
        funext overload'
        rw [overloadAfter_append, if_neg hkey]
      rw [if_neg fun heq => hkey ((keyEq_iff _ _).mp heq), hother]
  defaultOverload := by
    rw [defaultAfter_append, hfirst, if_neg (Option.some_ne_none overload), h.defaultOverload]
  length := by simp [hcalls, h.length]
  invoked := by
    rw [hcalls]
    exact h.invoked_append msg

/-- One message is visited as it should be. -/
theorem Follows.messageVisit {earlier : List ParsedMessage} {s : Dispatcher ω δ}
    (h : Follows rt call callDefault adds start earlier s) (msg : ParsedMessage) :
    (messageVisit rt call callDefault s msg).1 =
        (expectedInvocation call callDefault adds start earlier msg).exception call callDefault ∧
      Follows rt call callDefault adds start (earlier ++ [msg])
        (messageVisit rt call callDefault s msg).2 := by
  have hfound : s.overloads.overloadResolution rt msg.objectId msg.opcode =
      (adds.lookup (key msg)).map (overloadAfter call (key msg) earlier) := h.overloads (key msg)
  rw [OverloadTable.messageVisit, hfound]
  cases hfirst : adds.lookup (key msg) with
  | none =>
      have hcall : expectedInvocation call callDefault adds start earlier msg =
          .default s.defaultOverload msg := by
        rw [expectedInvocation, hfirst, h.defaultOverload]
      rw [hcall]
      exact ⟨rfl, h.visit_default hfirst _ (by rw [hcall])⟩
  | some overload =>
      have hcall : expectedInvocation call callDefault adds start earlier msg =
          .overload (overloadAfter call (key msg) earlier overload) msg.arguments := by
        rw [expectedInvocation, hfirst]
      rw [hcall]
      exact ⟨rfl, h.visit_overload hfirst _ (by rw [hcall])⟩

/-- A range is visited as it should be, up to the first exception. -/
theorem Follows.messageVisitRange {earlier : List ParsedMessage} {s : Dispatcher ω δ}
    (h : Follows rt call callDefault adds start earlier s) (msgs : List ParsedMessage) :
    (messageVisitRange rt call callDefault s msgs).1 =
        (untilThrow call callDefault adds start earlier msgs).2 ∧
      Follows rt call callDefault adds start
        (earlier ++ (untilThrow call callDefault adds start earlier msgs).1)
        (messageVisitRange rt call callDefault s msgs).2 := by
  induction msgs generalizing earlier s with
  | nil => exact ⟨rfl, by simpa [untilThrow, OverloadTable.messageVisitRange] using h⟩
  | cons msg msgs ih =>
      obtain ⟨hthrown, hstep⟩ := h.messageVisit msg
      rw [OverloadTable.messageVisitRange, untilThrow, ← hthrown]
      cases hvisit : OverloadTable.messageVisit rt call callDefault s msg with
      | mk e s' =>
          rw [hvisit] at hstep
          cases e with
          | some e => exact ⟨rfl, hstep⟩
          | none =>
              obtain ⟨hrest, hfollows⟩ := ih hstep
              refine ⟨hrest, ?_⟩
              simpa using hfollows

theorem untilThrow_isPrefix (earlier msgs : List ParsedMessage) :
    (untilThrow call callDefault adds start earlier msgs).1 <+: msgs ∧
      ((untilThrow call callDefault adds start earlier msgs).2 = none →
        (untilThrow call callDefault adds start earlier msgs).1 = msgs) := by
  induction msgs generalizing earlier with
  | nil => simp [untilThrow]
  | cons msg msgs ih =>
      rw [untilThrow]
      split
      · simp
      · obtain ⟨hvisited, hall⟩ := ih (earlier ++ [msg])
        exact ⟨List.cons_prefix_cons.mpr ⟨rfl, hvisited⟩,
          fun hnone => congrArg (msg :: ·) (hall hnone)⟩

theorem untilThrow_of_returns (hcall : ∀ callable arguments, (call callable arguments).1 = none)
    (hdefault : ∀ callable msg, (callDefault callable msg).1 = none)
    (earlier msgs : List ParsedMessage) :
    (untilThrow call callDefault adds start earlier msgs).2 = none := by
  induction msgs generalizing earlier with
  | nil => rfl
  | cons msg msgs ih =>
      have hreturns : (expectedInvocation call callDefault adds start earlier msg).exception call
          callDefault = none := by
        cases expectedInvocation call callDefault adds start earlier msg with
        | overload callable arguments => exact hcall callable arguments
        | default callable msg => exact hdefault callable msg
      rw [untilThrow, hreturns]
      exact ih (earlier ++ [msg])

end Visit

/-! ## Visits seen from outside -/

section Visits

variable {ω δ ι : Type} {rt : Runtime} {call : ω → List Byte → Option Exception × ω}
  {callDefault : δ → ParsedMessage → Option Exception × δ} {name : ω → ι}
  {mos : MessageOverloadSet ι} {s : Dispatcher ω δ}

/-- What the call is handed, with the name of the overload. -/
def Invocation.visit (name : ω → ι) : Invocation ω δ → Visit ι
  | .overload callable arguments => .overload (name callable) arguments
  | .default _ msg => .default msg

/-- The set has, for each key, the name of the overload in the table. -/
def Named (rt : Runtime) (name : ω → ι) (mos : MessageOverloadSet ι) (s : Dispatcher ω δ) :
    Prop :=
  ∀ objId opcode, mos.overloadResolution objId opcode =
    (s.overloads.overloadResolution rt objId opcode).map name

variable (callDefault) in
/-- One message is handed to what the set has for it, and the names stay. -/
theorem Named.messageVisit (hname : ∀ callable arguments,
      name (call callable arguments).2 = name callable)
    (h : Named rt name mos s) (msg : ParsedMessage) :
    (messageVisit rt call callDefault s msg).2.invocations.map (Invocation.visit name) =
        s.invocations.map (Invocation.visit name) ++ [Waylander.messageVisit mos msg] ∧
      Named rt name mos (messageVisit rt call callDefault s msg).2 := by
  rw [OverloadTable.messageVisit, Waylander.messageVisit, h msg.objectId msg.opcode]
  cases hfound : s.overloads.overloadResolution rt msg.objectId msg.opcode with
  | none =>
      refine ⟨by simp [Invocation.visit], ?_⟩
      intro objId opcode
      exact h objId opcode
  | some overload =>
      refine ⟨by simp [Invocation.visit], ?_⟩
      intro objId opcode
      rw [h objId opcode]
      simp only [overloadResolution] at hfound ⊢
      rw [HashTable.find_modify (lawful_key rt)]
      by_cases hkey : keyEq (key msg) (objId, opcode) = true
      · rw [if_pos hkey, ← (keyEq_iff _ _).mp hkey, key, hfound]
        simp [hname]
      · rw [if_neg hkey]

/-- The visits of a range are those of the set, with calls that throw where the callables
do. -/
theorem Named.exists_messageVisitRange (hname : ∀ callable arguments,
      name (call callable arguments).2 = name callable)
    (h : Named rt name mos s) (msgs : List ParsedMessage) :
    ∃ throws, Waylander.messageVisitRange throws mos (s.invocations.map (Invocation.visit name))
        msgs none =
      ((messageVisitRange rt call callDefault s msgs).2.invocations.map (Invocation.visit name),
        (messageVisitRange rt call callDefault s msgs).1.map fun _ => .callbackError) := by
  -- The visit that throws is the one that makes the calls `k` in number.
  suffices hk : ∃ k : Option ℕ, (∀ n, k = some n → s.invocations.length < n) ∧
      Waylander.messageVisitRange (fun visits => k = some visits.length) mos
          (s.invocations.map (Invocation.visit name)) msgs none =
        ((messageVisitRange rt call callDefault s msgs).2.invocations.map (Invocation.visit name),
          (messageVisitRange rt call callDefault s msgs).1.map fun _ => .callbackError) by
    obtain ⟨k, -, heq⟩ := hk
    exact ⟨_, heq⟩
  induction msgs generalizing s with
  | nil => exact ⟨none, by simp, rfl⟩
  | cons msg msgs ih =>
      obtain ⟨hvisits, hnamed⟩ := h.messageVisit callDefault hname msg
      cases hvisit : OverloadTable.messageVisit rt call callDefault s msg with
      | mk e s' =>
          rw [hvisit] at hvisits hnamed
          dsimp only at hvisits hnamed
          have hlength := congrArg List.length hvisits
          simp only [List.length_map, List.length_append, List.length_singleton] at hlength
          cases e with
          | some e =>
              refine ⟨some (s.invocations.length + 1), by simp, ?_⟩
              rw [Waylander.messageVisitRange, OverloadTable.messageVisitRange, hvisit]
              simp [hvisits]
          | none =>
              obtain ⟨k, hk, hrest⟩ := ih hnamed
              have hlater : ∀ n, k = some n → s.invocations.length + 1 < n := by
                intro n hn
                rw [← hlength]
                exact hk n hn
              have hnot : k ≠ some (s.invocations.length + 1) := fun hn =>
                Nat.lt_irrefl _ (hlater _ hn)
              refine ⟨k, fun n hn => Nat.lt_of_succ_lt (hlater n hn), ?_⟩
              rw [Waylander.messageVisitRange, OverloadTable.messageVisitRange, hvisit]
              simp only [← hvisits, List.length_map, hlength, decide_eq_true_eq, if_neg hnot]
              exact hrest

end Visits

/-- After any sequence of `add_overload` calls, a call for a new pair succeeds and
one for an old pair throws and leaves every lookup as it was.  A visit calls, for
each message in order up to the first exception, the overload of the first call
for the message's pair or else the default overload, in the state that its
earlier messages left.  Equal keys have equal hashes, and a call of one pair's
overload leaves those of all others alone. -/
theorem dispatch_exact {ω δ : Type} (rt : Runtime) :
    (∀ (adds : List (OverloadKey × ω)) (objId : Wobject) (opcode : Wopcode) (overload : ω),
      let added := (addOverloads rt adds).addOverload rt objId opcode overload
      if adds.lookup (objId, opcode) = none then added.1 = .ok ()
      else
        added.1 = .error (.runtimeError
          "Overload for \x7bWobject<W>, Msg::opcode\x7d already present!") ∧
        ∀ objId' opcode', added.2.overloadResolution rt objId' opcode' =
          (addOverloads rt adds).overloadResolution rt objId' opcode') ∧
    (∀ (call : ω → List Byte → Option Exception × ω)
      (callDefault : δ → ParsedMessage → Option Exception × δ)
      (adds : List (OverloadKey × ω)) (start : δ) (msgs : List ParsedMessage),
      let run := messageVisitRange rt call callDefault
        { overloads := addOverloads rt adds, defaultOverload := start } msgs
      let visited := untilThrow call callDefault adds start [] msgs
      run.1 = visited.2 ∧ visited.1 <+: msgs ∧ (run.1 = none → visited.1 = msgs) ∧
      ((∀ callable arguments, (call callable arguments).1 = none) →
        (∀ callable msg, (callDefault callable msg).1 = none) → run.1 = none) ∧
      run.2.invocations.length = visited.1.length ∧
      ∀ j msg, visited.1[j]? = some msg → run.2.invocations[j]? =
        some (expectedInvocation call callDefault adds start (visited.1.take j) msg)) ∧
    (∀ (rt' : Runtime) (a b : OverloadKey), rt.stdHash = rt'.stdHash → keyEq a b = true →
      keyHash rt a = keyHash rt' b) ∧
    ∀ (t : OverloadTable ω) (f : ω → ω) (a b : OverloadKey), a ≠ b →
      (t.modify rt.hash keyEq a f).find rt.hash keyEq b = t.find rt.hash keyEq b := by
  refine ⟨addOverload_addOverloads rt, ?_, ?_, ?_⟩
  · intro call callDefault adds start msgs run visited
    obtain ⟨hthrown, hfollows⟩ := (follows_start rt call callDefault adds start).messageVisitRange
      msgs
    have hvisited : visited.1 <+: msgs ∧ (visited.2 = none → visited.1 = msgs) :=
      untilThrow_isPrefix [] msgs
    refine ⟨hthrown, hvisited.1, fun hnone => hvisited.2 (hthrown ▸ hnone), ?_,
      hfollows.length, hfollows.invoked⟩
    intro hcall hdefault
    exact hthrown.trans (untilThrow_of_returns hcall hdefault [] msgs)
  · intro rt' a b hstd hkey
    exact keyHash_eq_of_keyEq hstd hkey
  · intro t f a b hne
    rw [HashTable.find_modify (lawful_key rt), if_neg fun heq => hne ((keyEq_iff a b).mp heq)]

end OverloadTable

end Waylander
