import Waylander.Client.Conservation

/-!
# At-most-once dispatch

A message is identified by the position in the stream at which it was received.
As long as calls run to their end, the positions at which messages are handed to
overloads and until callbacks increase strictly, because what was visited is
erased before anything else is visited.

`until` invokes function objects before it erases the messages visited.  If one
of them throws, the next call visits the messages of the same batch again, and
if one of them calls `until` on the client, the inner call visits and erases
what the outer one has not erased yet.
-/

namespace Waylander

open Goto

variable {σ ω : Type} {callbacks : List (Event σ ω) → CallbackAction ω} {S : ServerStream σ}
variable {fs : List (List Byte)} {t : List Byte}

/-- The position of the message, if a function object is invoked with it. -/
def Event.dispatched : Event σ ω → Option ℕ
  | .visited position _ (.overload _) => some position
  | .visited position _ .untilCallback => some position
  | _ => none

/-- The positions of the messages that function objects were invoked with. -/
def dispatches (trace : List (Event σ ω)) : List ℕ :=
  trace.filterMap Event.dispatched

/-- No erase removes more bytes than the buffer holds. -/
def ErasesHeld (trace : List (Event σ ω)) : Prop :=
  ∀ count held, .erased count held ∈ trace → count ≤ held

/-- Messages below `position` were dispatched, none of them twice. -/
structure DispatchedBelow (trace : List (Event σ ω)) (position : ℕ) : Prop where
  increasing : (dispatches trace).Pairwise (· < ·)
  below : ∀ p ∈ dispatches trace, p < position
  erases : ErasesHeld trace

theorem dispatches_append (trace trace' : List (Event σ ω)) :
    dispatches (trace ++ trace') = dispatches trace ++ dispatches trace' :=
  List.filterMap_append

theorem erasesHeld_append {trace trace' : List (Event σ ω)} (h : ErasesHeld trace)
    (h' : ErasesHeld trace') : ErasesHeld (trace ++ trace') := by
  intro count held hmem
  rcases List.mem_append.mp hmem with hmem | hmem
  · exact h count held hmem
  · exact h' count held hmem

theorem DispatchedBelow.mono {trace : List (Event σ ω)} {position position' : ℕ}
    (h : DispatchedBelow trace position) (hle : position ≤ position') :
    DispatchedBelow trace position' :=
  ⟨h.increasing, fun p hp => (h.below p hp).trans_le hle, h.erases⟩

theorem DispatchedBelow.log {trace : List (Event σ ω)} {position : ℕ}
    (h : DispatchedBelow trace position) (event : Event σ ω) (hnone : event.dispatched = none)
    (herase : ErasesHeld [event]) : DispatchedBelow (trace ++ [event]) position := by
  have hsame : dispatches (trace ++ [event]) = dispatches trace := by
    rw [dispatches_append]
    simp [dispatches, hnone]
  refine ⟨?_, ?_, erasesHeld_append h.erases herase⟩
  · rw [hsame]
    exact h.increasing
  · rw [hsame]
    exact h.below

theorem Event.dispatched_visited {position p : ℕ} {msg : ParsedMessage} {handler : Handler ω}
    (h : (.visited position msg handler : Event σ ω).dispatched = some p) : position = p := by
  cases handler with
  | skipped => cases h
  | overload ov => exact Option.some.inj h
  | untilCallback => exact Option.some.inj h
  | noCallback => cases h

/-- Visiting one message of `n` bytes at `position`. -/
theorem DispatchedBelow.visited {trace : List (Event σ ω)} {position n : ℕ}
    (h : DispatchedBelow trace position) (hn : 0 < n) (msg : ParsedMessage)
    (handler : Handler ω) :
    DispatchedBelow (trace ++ [.visited position msg handler]) (position + n) := by
  have herase : ErasesHeld [(.visited position msg handler : Event σ ω)] := by
    intro count held hmem
    simp at hmem
  cases hdispatched : Event.dispatched (.visited position msg handler : Event σ ω) with
  | none => exact (h.log _ hdispatched herase).mono (Nat.le_add_right _ _)
  | some p =>
      obtain rfl : position = p := Event.dispatched_visited hdispatched
      have hsnoc : dispatches (trace ++ [.visited position msg handler]) =
          dispatches trace ++ [position] := by
        rw [dispatches_append]
        simp [dispatches, hdispatched]
      refine ⟨?_, ?_, erasesHeld_append h.erases herase⟩
      · rw [hsnoc, List.pairwise_append]
        refine ⟨h.increasing, List.pairwise_singleton _ _, ?_⟩
        intro q hq q' hq'
        rw [List.mem_singleton.mp hq']
        exact h.below q hq
      · intro q hq
        rw [hsnoc, List.mem_append, List.mem_singleton] at hq
        rcases hq with hq | rfl
        · exact (h.below q hq).trans_le (Nat.le_add_right _ _)
        · exact Nat.lt_add_of_pos_right hn

/-- Visiting frames from `position` on. -/
theorem DispatchedBelow.visits {trace : List (Event σ ω)} {position : ℕ}
    (h : DispatchedBelow trace position) (call : UntilCall ω) {gs : List (List Byte)}
    (hgs : ∀ g ∈ gs, wire.IsFrame g) :
    DispatchedBelow (trace ++ visits call position gs) (position + gs.flatten.length) := by
  induction gs generalizing trace position with
  | nil => simpa [Waylander.visits] using h
  | cons g gs ih =>
      have hpos := List.length_pos_of_ne_nil (hgs g (by simp)).ne_nil
      have hhead := h.visited hpos (.ofFrame g) (call.handler (.ofFrame g))
      have htail := ih hhead fun g' hg' => hgs g' (by simp [hg'])
      rw [List.append_assoc] at htail
      rw [List.flatten_cons, List.length_append, ← Nat.add_assoc]
      exact htail

/-! ## Runs -/

variable (S fs t) in
/-- Only messages before the front of the buffer were dispatched, none of them
twice. -/
def DispatchedOnce (w : Session σ ω) : Prop :=
  ∃ done rest, AtBoundary S fs t w.client done rest ∧
    DispatchedBelow w.trace done.flatten.length

theorem Act.dispatchedOnce (hfs : ∀ f ∈ fs, wire.IsFrame f) (ht : wire.Incomplete t)
    {w w' : Session σ ω} (hw : DispatchedOnce S fs t w) (h : Act S w w') :
    DispatchedOnce S fs t w' := by
  obtain ⟨done, rest, hboundary, hbelow⟩ := hw
  cases h with
  | read hreceives hne hfilled =>
      refine ⟨done, rest, hboundary.receives hreceives, hbelow.log (.reads w.client) rfl ?_⟩
      simp [ErasesHeld]
  | parse hscan =>
      obtain ⟨gs, hgs, rfl⟩ :=
        hscan.exists_frames (hboundary.isFrame hfs) ht hboundary.unconsumed
      obtain ⟨hs, rfl, hboundary'⟩ := hboundary.erase hfs ht hgs hscan.split
      refine ⟨done ++ gs, hs, hboundary', ?_⟩
      have hlog := hbelow.log (.parsed { unparsedMessages := gs.flatten }) rfl
        (by simp [ErasesHeld])
      exact hlog.mono (by rw [List.flatten_append, List.length_append]; omega)
  | @visit call gs r hgs hbuff =>
      obtain ⟨hs, rfl, hboundary'⟩ := hboundary.erase hfs ht hgs hbuff
      refine ⟨done ++ gs, hs, hboundary', ?_⟩
      have hvisits := hbelow.visits call hgs
      rw [← hboundary.position] at hvisits
      have hlog := hvisits.log
        (.erased gs.flatten.length (gs.flatten.length + r.length)) rfl (by simp [ErasesHeld])
      rw [hboundary.position, List.append_assoc] at hlog
      rw [List.flatten_append, List.length_append, Session.consumed, hboundary.position]
      exact hlog

theorem Acts.dispatchedOnce (hfs : ∀ f ∈ fs, wire.IsFrame f) (ht : wire.Incomplete t)
    {w w' : Session σ ω} (hw : DispatchedOnce S fs t w) (h : Acts S w w') :
    DispatchedOnce S fs t w' := by
  induction h with
  | refl => exact hw
  | tail _ hact ih => exact hact.dispatchedOnce hfs ht ih

/-- During any call nothing is dispatched twice.  A call that is not left by an
exception of a callback leaves nothing dispatched in the buffer. -/
theorem CallEnd.dispatchedOnce (hfs : ∀ f ∈ fs, wire.IsFrame f) (ht : wire.Incomplete t)
    {w : Session σ ω} {r : Exit × Session σ ω} (hw : DispatchedOnce S fs t w)
    (h : CallEnd callbacks S w r) :
    (∃ position, DispatchedBelow r.2.trace position) ∧
      (r.1 ≠ .threw .callbackError → DispatchedOnce S fs t r.2) := by
  have hof : ∀ {w' : Session σ ω}, DispatchedOnce S fs t w' →
      ∃ position, DispatchedBelow w'.trace position := by
    rintro w' ⟨done, rest, -, hbelow⟩
    exact ⟨_, hbelow⟩
  cases h with
  | normal hacts =>
      have honce := hacts.dispatchedOnce hfs ht hw
      exact ⟨hof honce, fun _ => honce⟩
  | @eof w₁ c bytes hacts hreceives hpending hfilled =>
      obtain ⟨done, rest, hboundary, hbelow⟩ := hacts.dispatchedOnce hfs ht hw
      have hlog := hbelow.log (.reads w₁.client) rfl (by simp [ErasesHeld])
      exact ⟨⟨_, hlog⟩, fun _ => ⟨done, rest, hboundary.receives hreceives, hlog⟩⟩
  | malformed hacts hscan hgs hspan hu herror =>
      obtain ⟨done, rest, hboundary, -⟩ := hacts.dispatchedOnce hfs ht hw
      exact absurd herror (hscan.parseNUM_ne_error (hboundary.isFrame hfs) ht
        hboundary.unconsumed hgs hspan hu)
  | @callbackThrew w₁ call gs r hacts hgs hbuff hthrows =>
      obtain ⟨done, rest, hboundary, hbelow⟩ := hacts.dispatchedOnce hfs ht hw
      have hvisits := hbelow.visits call hgs
      rw [← hboundary.position] at hvisits
      exact ⟨⟨_, hvisits⟩, fun hne => absurd rfl hne⟩

theorem Reachable.dispatchedOnce (hfs : ∀ f ∈ fs, wire.IsFrame f) (ht : wire.Incomplete t)
    (hreenter : NeverReenters callbacks) {server : σ}
    (hserver : S.pending server = fs.flatten ++ t) {w : Session σ ω}
    (hw : Reachable callbacks S.toHost (fun exit => exit ≠ .threw .callbackError)
      (.start server) w) : DispatchedOnce S fs t w := by
  induction hw with
  | start =>
      refine ⟨[], fs, atBoundary_connect hserver, List.Pairwise.nil, ?_, ?_⟩
      · simp [dispatches, Session.start]
      · simp [ErasesHeld, Session.start]
  | step hw hop hexit ih =>
      have hend := ((hw.conserved hfs ht hreenter (Or.inr fun hne => hne rfl)
        hserver).noZeroSize hfs ht).callEnd hreenter hop
      exact (hend.dispatchedOnce hfs ht ih).2 hexit

/-- In every run in which no callback calls the client and no call follows one
that a callback left by an exception, no message is dispatched twice, and no
erase removes more than the buffer holds. -/
theorem dispatches_nodup (hreenter : NeverReenters callbacks)
    (hfs : ∀ f ∈ fs, wire.IsFrame f) (ht : wire.Incomplete t) {server : σ}
    (hserver : S.pending server = fs.flatten ++ t) {w w' : Session σ ω}
    (hw : Reachable callbacks S.toHost (fun exit => exit ≠ .threw .callbackError)
      (.start server) w) {op : Op ω} {exit : Exit}
    (hop : Performs callbacks S.toHost op w exit w') :
    (dispatches w'.trace).Nodup ∧ ErasesHeld w'.trace := by
  have hend := ((hw.conserved hfs ht hreenter (Or.inr fun hne => hne rfl)
    hserver).noZeroSize hfs ht).callEnd hreenter hop
  obtain ⟨position, hbelow⟩ :=
    (hend.dispatchedOnce hfs ht (hw.dispatchedOnce hfs ht hreenter hserver)).1
  exact ⟨hbelow.increasing.imp Nat.ne_of_lt, hbelow.erases⟩

/-- Wait for an event of the object, with an overload for the event of opcode 0 of
object 1. -/
def waitFor (untilObjId : Wobject) : UntilCall Unit where
  mos := (MessageOverloadSet.empty.addOverload 1 0 ()).2
  untilObjId := untilObjId
  untilOpcode := 0
  callback := false

theorem dispatches_nodup_throwing :
    ∃ (exit : Exit) (w : Session (List Byte) Unit),
      Performs (fun _ => .throws) (boundedServer 99).toHost (.untilCall (waitFor 2))
        (.start [1, 0, 0, 0, 0, 0, 8, 0]) exit w ∧
      (dispatches w.trace).Nodup ∧ ErasesHeld w.trace := by
  have hfs : ∀ f ∈ [[1, 0, 0, 0, 0, 0, 8, 0]], wire.IsFrame f := by decide
  have hreenter : NeverReenters (fun _ : List (Event (List Byte) Unit) => .throws) := by
    intro _ _ hcall
    cases hcall
  have hstart : Conserved (boundedServer 99) [[1, 0, 0, 0, 0, 0, 8, 0]] []
      (.start [1, 0, 0, 0, 0, 0, 8, 0] : Session (List Byte) Unit) :=
    conserved_start rfl
  obtain ⟨exit, w, hop⟩ := hstart.exists_performs hfs Framing.incomplete_nil
    hreenter (.untilCall (waitFor 2))
  exact ⟨exit, w, hop, dispatches_nodup hreenter hfs Framing.incomplete_nil rfl .start hop⟩

/-- An overload that throws is invoked again with the same message by the next
call; a call made by an overload has the outer call erase bytes that are gone. -/
theorem dispatches_twice :
    (do
      let (exit, w) ← (Op.untilCall (waitFor 2)).perform (fun _ => .throws)
        (boundedServer 99).toHost 5 (.start [1, 0, 0, 0, 0, 0, 8, 0])
      let (exit', w) ← (Op.untilCall (waitFor 2)).perform (fun _ => .throws)
        (boundedServer 99).toHost 5 w
      return (exit, exit', dispatches w.trace)) =
        some (.threw .callbackError, .threw .callbackError, [0, 0]) ∧
    ((Op.untilCall (waitFor 2)).perform
        (fun trace => match trace.getLast? with
          | some (.visited ..) => .callsUntil (waitFor 1)
          | _ => .returns)
        (boundedServer 99).toHost 7 (.start [1, 0, 0, 0, 0, 0, 8, 0])).map
      (fun r => (r.1, r.2.client.recvBuff)) = some (.undefined, []) := by
  decide +kernel

end Waylander
