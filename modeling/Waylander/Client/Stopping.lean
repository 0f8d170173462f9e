import Waylander.Client.Dispatch

/-!
# Function objects that throw

`until` with function objects that throw on some messages.  The call ends at the
first message that it waits for or whose function object throws, whichever comes
first, and it does not matter what the stream holds behind that message.  A call
that is left by an exception erases nothing of what it visited in its last pass.
-/

namespace Waylander

open Goto

variable {σ ω : Type} {S : ServerStream σ}

/-- Function objects that throw or return by what they are invoked with. -/
def throwing (throws : Invocation ω → Bool) (trace : List (Event σ ω)) : CallbackAction ω :=
  if (trace.getLast?.bind Event.invocation).any throws then .throws else .returns

variable {throws : Invocation ω → Bool}

theorem throwing_neverReenters :
    NeverReenters (throwing throws : List (Event σ ω) → CallbackAction ω) := by
  intro trace call
  rw [throwing]
  split
  · simp
  · simp

/-- What is invoked with the message. -/
def UntilCall.invocation (call : UntilCall ω) (msg : ParsedMessage) : Option (Invocation ω) :=
  (.visited 0 msg (call.handler msg) : Event Unit ω).invocation

theorem invocation_visited (call : UntilCall ω) (position : ℕ) (msg : ParsedMessage) :
    (.visited position msg (call.handler msg) : Event σ ω).invocation = call.invocation msg := by
  rw [UntilCall.invocation]
  cases call.handler msg <;> rfl

/-- A function object throws on the message. -/
def UntilCall.throwsOn (call : UntilCall ω) (throws : Invocation ω → Bool)
    (msg : ParsedMessage) : Bool :=
  (call.invocation msg).any throws

/-- The call ends with the message. -/
def UntilCall.EndsWith (call : UntilCall ω) (throws : Invocation ω → Bool)
    (msg : ParsedMessage) : Prop :=
  call.Matches msg ∨ call.throwsOn throws msg = true

instance (call : UntilCall ω) (throws : Invocation ω → Bool) (msg : ParsedMessage) :
    Decidable (call.EndsWith throws msg) :=
  inferInstanceAs (Decidable (_ ∨ _))

/-- How the call ends with the message. -/
def UntilCall.exitWith (call : UntilCall ω) (throws : Invocation ω → Bool)
    (msg : ParsedMessage) : Exit :=
  if call.throwsOn throws msg then .threw .callbackError else .normal

variable {call : UntilCall ω}
variable {reenter : UntilCall ω → Session σ ω → Option (Exit × Session σ ω)}

/-! ## One message -/

theorem invoke_throwing {fuel : ℕ} {w w' : Session σ ω} {exit : Exit}
    (h : invoke (throwing throws) reenter fuel w = some (exit, w')) :
    w' = w ∧ exit =
      if (w.trace.getLast?.bind Event.invocation).any throws then .threw .callbackError
      else .normal := by
  cases fuel with
  | zero => cases h
  | succ fuel =>
      by_cases hthrows : (w.trace.getLast?.bind Event.invocation).any throws = true
      · simp only [invoke, run, callbackStep, throwing, if_pos hthrows, Option.some.injEq,
          Prod.mk.injEq] at h
        rw [if_pos hthrows]
        exact ⟨h.2.symm, h.1.symm⟩
      · simp only [invoke, run, callbackStep, throwing, if_neg hthrows, Option.some.injEq,
          Prod.mk.injEq] at h
        rw [if_neg hthrows]
        exact ⟨h.2.symm, h.1.symm⟩

theorem handOver_throwing {fuel position : ℕ} {msg : ParsedMessage} {w w' : Session σ ω}
    {exit : Exit}
    (h : handOver (throwing throws) reenter fuel position msg (call.handler msg) w =
      some (exit, w')) :
    w' = w.log (.visited position msg (call.handler msg)) ∧ exit = call.exitWith throws msg := by
  have hlast : ((w.log (.visited position msg (call.handler msg))).trace.getLast?.bind
      Event.invocation) = call.invocation msg := by
    rw [Session.log, List.getLast?_concat]
    exact invocation_visited call position msg
  rw [UntilCall.exitWith, UntilCall.throwsOn, ← hlast]
  cases hhandler : call.handler msg with
  | skipped =>
      rw [hhandler] at h
      cases h
      exact ⟨rfl, by simp [Session.log, Event.invocation]⟩
  | overload ov =>
      rw [hhandler] at h
      exact invoke_throwing h
  | untilCallback =>
      rw [hhandler] at h
      exact invoke_throwing h
  | noCallback =>
      rw [hhandler] at h
      cases h
      exact ⟨rfl, by simp [Session.log, Event.invocation]⟩

/-! ## The messages of a pass -/

variable (call) in
/-- From the session `w` on, the messages were handed over. -/
def Hears (w w' : Session σ ω) (msgs : List ParsedMessage) : Prop :=
  ∃ events, w'.trace = w.trace ++ events ∧ removed events = msgs ∧
    invocations events = msgs.filterMap call.invocation

theorem hears_refl (w : Session σ ω) : Hears call w w [] :=
  ⟨[], (List.append_nil _).symm, rfl, rfl⟩

theorem Hears.log {w w' : Session σ ω} {msgs : List ParsedMessage}
    (h : Hears call w w' msgs) {e : Event σ ω} (hremoved : e.removed = [])
    (hinvocation : e.invocation = none) : Hears call w (w'.log e) msgs := by
  obtain ⟨events, htrace, hmsgs, hinvocations⟩ := h
  refine ⟨events ++ [e], ?_, ?_, ?_⟩
  · rw [Session.log, htrace, List.append_assoc]
  · rw [removed_append, hmsgs]
    simp [removed, hremoved]
  · rw [invocations_append, hinvocations]
    simp [invocations, hinvocation]

theorem Hears.visited {w w' : Session σ ω} {msgs : List ParsedMessage}
    (h : Hears call w w' msgs) (position : ℕ) (msg : ParsedMessage) :
    Hears call w (w'.log (.visited position msg (call.handler msg))) (msgs ++ [msg]) := by
  obtain ⟨events, htrace, hmsgs, hinvocations⟩ := h
  refine ⟨events ++ [.visited position msg (call.handler msg)], ?_, ?_, ?_⟩
  · rw [Session.log, htrace, List.append_assoc]
  · rw [removed_append, hmsgs]
    rfl
  · have hlast : invocations [(.visited position msg (call.handler msg) : Event σ ω)] =
        [msg].filterMap call.invocation := by
      rw [invocations, List.filterMap_cons, List.filterMap_cons, invocation_visited]
      rfl
    rw [invocations_append, hinvocations, hlast, List.filterMap_append]

theorem Hears.erase {w w' : Session σ ω} {msgs : List ParsedMessage}
    (h : Hears call w w' msgs) (count : ℕ) : Hears call w (w'.erase count).2 msgs := by
  have hlog := h.log (e := .erased count w'.client.recvBuff.length) rfl rfl
  rw [Session.erase]
  dsimp only
  split
  · exact hlog
  · exact hlog

variable (call throws) in
/-- From the session `w` on, no message has ended the call. -/
def Heard (w w' : Session σ ω) : Prop :=
  ∃ msgs, Hears call w w' msgs ∧ ∀ msg ∈ msgs, ¬call.EndsWith throws msg

variable (call throws) in
/-- From the session `w` on, one message has ended the call as `exit`. -/
def HeardLast (w : Session σ ω) (exit : Exit) (w' : Session σ ω) : Prop :=
  ∃ msgs msg, Hears call w w' (msgs ++ [msg]) ∧ (∀ m ∈ msgs, ¬call.EndsWith throws m) ∧
    call.EndsWith throws msg ∧ exit = call.exitWith throws msg

/-- The exits that a message brings about. -/
def Exit.FromMessage (exit : Exit) : Prop :=
  exit = .normal ∨ exit = .threw .callbackError

variable (call throws) in
/-- What is known of the end of a loop over messages that began in `w`. -/
def LeftAs (w : Session σ ω) (left : Option Exit) (w' : Session σ ω) : Prop :=
  match left with
  | none => Heard throws call w w'
  | some exit =>
      (exit.FromMessage → HeardLast throws call w exit w') ∧ exit ≠ .threw eofException

theorem exitWith_ne_eof (msg : ParsedMessage) :
    call.exitWith throws msg ≠ .threw eofException := by
  rw [UntilCall.exitWith]
  split
  · decide
  · decide

theorem exitWith_eq_normal_iff {msg : ParsedMessage} :
    call.exitWith throws msg = .normal ↔ ¬call.throwsOn throws msg = true := by
  rw [UntilCall.exitWith]
  split
  · rename_i hthrows
    exact ⟨fun h => (nomatch h), fun h => absurd hthrows h⟩
  · rename_i hreturns
    exact ⟨fun _ => hreturns, fun _ => rfl⟩

theorem erase_fromMessage {w : Session σ ω} {count : ℕ}
    (h : (w.erase count).1.FromMessage) : (w.erase count).1 = .normal := by
  rcases h with h | h
  · exact h
  · rw [Session.erase] at h
    dsimp only at h
    split at h
    · cases h
    · cases h

theorem erase_ne_eof (w : Session σ ω) (count : ℕ) :
    (w.erase count).1 ≠ .threw eofException := by
  rw [Session.erase]
  dsimp only
  split
  · simp
  · simp

theorem parseNUM_ne_eofException {unparsed : List Byte} :
    parseNUM unparsed ≠ .error eofException := by
  intro h
  obtain ⟨what, hwhat⟩ := (parseNUM_error h).1
  cases hwhat

theorem not_fromMessage_of_parseNUM {unparsed : List Byte} {e : Exception}
    (h : parseNUM unparsed = .error e) : ¬(Exit.threw e).FromMessage := by
  obtain ⟨what, rfl⟩ := (parseNUM_error h).1
  rintro (hexit | hexit)
  · cases hexit
  · cases hexit

theorem visitNext_heard {spanSize resizes fuel : ℕ} {w : Session σ ω} {l : VisitLocals σ ω}
    {j : Jump (VisitLocals σ ω) (Option Exit × Session σ ω)}
    (hl : Heard throws call w l.session)
    (h : visitNext (throwing throws) reenter call spanSize resizes fuel l = some j) :
    j.Satisfies (fun l' => Heard throws call w l'.session)
      (fun r => LeftAs throws call w r.1 r.2) := by
  obtain ⟨msgs, hmsgs, hgoOn⟩ := hl
  simp only [visitNext] at h
  split at h
  · cases h
    exact ⟨msgs, hmsgs, hgoOn⟩
  · split at h
    · cases h
      refine ⟨?_, by decide⟩
      rintro (hexit | hexit)
      · cases hexit
      · cases hexit
    · split at h
      · rename_i hparse
        cases h
        refine ⟨fun hexit => absurd hexit (not_fromMessage_of_parseNUM hparse), ?_⟩
        rintro heof
        cases heof
        exact parseNUM_ne_eofException hparse
      · rename_i msg hparse
        have hvisited := hmsgs.visited (l.session.position + l.numBegin) msg
        by_cases hmatch : call.Matches msg
        · rw [if_pos hmatch] at h
          obtain ⟨⟨exit, w'⟩, hhand, h⟩ := Option.bind_eq_some_iff.mp h
          have hhand' : handOver (throwing throws) reenter fuel (l.session.position + l.numBegin)
              msg (call.handler msg) l.session = some (exit, w') := by
            rw [UntilCall.handler, if_pos hmatch]
            exact hhand
          obtain ⟨rfl, rfl⟩ := handOver_throwing hhand'
          have hlast (count : ℕ) : HeardLast throws call w (call.exitWith throws msg)
              ((l.session.log (.visited (l.session.position + l.numBegin) msg
                (call.handler msg))).erase count).2 :=
            ⟨msgs, msg, hvisited.erase count, hgoOn, .inl hmatch, rfl⟩
          split at h
          · rename_i hnormal
            cases h
            refine ⟨fun hexit => ?_, erase_ne_eof _ _⟩
            have hsame : (_ : Exit) = call.exitWith throws msg :=
              (erase_fromMessage hexit).trans hnormal.symm
            dsimp only
            rw [hsame]
            exact hlast _
          · cases h
            exact ⟨fun _ => ⟨msgs, msg, hvisited, hgoOn, .inl hmatch, rfl⟩, exitWith_ne_eof msg⟩
        · rw [if_neg hmatch] at h
          obtain ⟨⟨exit, w'⟩, hhand, h⟩ := Option.bind_eq_some_iff.mp h
          have hhand' : handOver (throwing throws) reenter fuel (l.session.position + l.numBegin)
              msg (call.handler msg) l.session = some (exit, w') := by
            rw [UntilCall.handler, if_neg hmatch]
            exact hhand
          obtain ⟨rfl, rfl⟩ := handOver_throwing hhand'
          split at h
          · rename_i hnormal
            cases h
            have hreturns := exitWith_eq_normal_iff.mp hnormal
            refine ⟨msgs ++ [msg], hvisited, ?_⟩
            intro m hm
            rcases List.mem_append.mp hm with hm | hm
            · exact hgoOn m hm
            · rw [List.mem_singleton.mp hm]
              exact not_or.mpr ⟨hmatch, hreturns⟩
          · rename_i hthrows
            cases h
            have hends := not_not.mp fun h => hthrows (exitWith_eq_normal_iff.mpr h)
            exact ⟨fun _ => ⟨msgs, msg, hvisited, hgoOn, .inr hends, rfl⟩, exitWith_ne_eof msg⟩

theorem visit_heard {spanSize resizes fuel : ℕ} {w w' : Session σ ω} {left : Option Exit}
    (h : run (visitNext (throwing throws) reenter call spanSize resizes) fuel { session := w } =
      some (left, w')) : LeftAs throws call w left w' := by
  have hblock : ∀ fuel' l j, Heard throws call w l.session →
      visitNext (throwing throws) reenter call spanSize resizes fuel' l = some j →
        j.Satisfies (fun l' => Heard throws call w l'.session)
          (fun r => LeftAs throws call w r.1 r.2) :=
    fun _ _ _ hl hnext => visitNext_heard hl hnext
  have hstart : Heard throws call w ({ session := w } : VisitLocals σ ω).session :=
    ⟨[], hears_refl w, by simp⟩
  exact run_invariant hblock hstart h

variable (call throws) in
/-- What is known of the end of a pass that began in `w`. -/
def JumpsAs (w : Session σ ω) : Jump (Session σ ω) (Exit × Session σ ω) → Prop
  | .again w' => Heard throws call w w'
  | .exit (exit, w') =>
      (exit.FromMessage → HeardLast throws call w exit w') ∧
        (exit = .threw eofException → Heard throws call w w')

theorem tryAgain_heard {fuel : ℕ} {w : Session σ ω}
    {j : Jump (Session σ ω) (Exit × Session σ ω)}
    (h : tryAgain (throwing throws) reenter call S.toHost fuel w = some j) :
    JumpsAs throws call w j := by
  simp only [tryAgain, Option.bind_eq_bind, Option.bind_eq_some_iff, Prod.exists] at h
  obtain ⟨span, -, left, w', hvisits, h⟩ := h
  have hleft := visit_heard hvisits
  cases left with
  | some exit =>
      cases h
      exact ⟨hleft.1, fun heof => absurd heof hleft.2⟩
  | none =>
      obtain ⟨msgs, hmsgs, hgoOn⟩ := hleft
      have herased := hmsgs.erase span.length
      have hne := erase_ne_eof w' span.length
      have hnormal : (w'.erase span.length).1.FromMessage →
          (w'.erase span.length).1 = .normal := erase_fromMessage
      cases herase : w'.erase span.length with
      | mk exit w'' =>
          rw [herase] at h herased hne hnormal
          cases exit with
          | normal =>
              simp only [Session.recvMoreData, Option.bind_eq_bind, Option.bind_eq_some_iff,
                Option.pure_def, Option.some.injEq, Prod.mk.injEq, Prod.exists] at h
              obtain ⟨r, w₁, ⟨r', c, hrecv, rfl, rfl⟩, h⟩ := h
              have hread : Heard throws call w (w''.afterRead c) :=
                ⟨msgs, herased.log (e := .reads w''.client) rfl rfl, hgoOn⟩
              obtain ⟨_, -, ⟨rfl, -⟩ | ⟨rfl, -⟩⟩ := recvMoreData_receives hrecv
              · cases h
                exact hread
              · cases h
                refine ⟨?_, fun _ => hread⟩
                rintro (hexit | hexit)
                · cases hexit
                · cases hexit
          | threw e =>
              cases h
              refine ⟨fun hexit => ?_, fun heof => absurd heof hne⟩
              cases hnormal hexit
          | undefined =>
              cases h
              refine ⟨fun hexit => ?_, fun heof => absurd heof hne⟩
              cases hnormal hexit

/-! ## The whole call -/

/-- Total correctness of `until`, where the messages of every pass are known. -/
theorem recvisClosureUntil_total_throwing {Inv : Session σ ω → Prop}
    {Post : Exit × Session σ ω → Prop}
    (hscan : ∀ w, Inv w →
      Ends fun fuel => getRecdBytesFormingWholeMessages fuel w.client.recvBuff)
    (hpass : ∀ w j, Inv w → Pass (throwing throws) S call w j → JumpsAs throws call w j →
      j.Satisfies Inv Post)
    {w : Session σ ω} (hw : Inv w) :
    ∃ r, Yields (fun fuel => recvisClosureUntil (throwing throws) S.toHost fuel call w) r ∧
      Post r := by
  have hblock : ∀ w, Inv w → ∃ j,
      Yields (fun fuel => tryAgain (throwing throws) (fun _ _ => none) call S.toHost fuel w) j ∧
        j.Satisfies
          (fun w' => Inv w' ∧ (w'.client.pending S).length < (w.client.pending S).length)
          Post := by
    intro w hw
    obtain ⟨j, hj, hend⟩ := tryAgain_yields (fun _ _ => none) throwing_neverReenters call
      (hscan w hw)
    obtain ⟨fuel, hfuel⟩ := hj.exists_fuel
    have hsat := hpass w j hw hend (tryAgain_heard hfuel)
    refine ⟨j, hj, ?_⟩
    cases hend with
    | left => exact hsat
    | eof => exact hsat
    | again hgs hskip hscan hreceives hne hfilled =>
        have hlength := congrArg List.length hreceives.pending
        have hpos := List.length_pos_of_ne_nil hne
        rw [List.length_append] at hlength
        refine ⟨hsat, ?_⟩
        simp only [ConnectedClient.pending, Session.afterRead] at hlength ⊢
        omega
  obtain ⟨r, hr, hpost⟩ := run_total (fun w => (w.client.pending S).length) hblock hw
  refine ⟨r, Yields.shift ?_ rfl, hpost⟩
  simp only [recvisClosureUntil]
  simpa only [tryAgain_reenter throwing_neverReenters _ (fun _ _ => none)] using hr

variable {fs done pre post : List (List Byte)} {f : List Byte}

variable (S fs done pre post f call) in
/-- From the session `w` on, `until` has handed over the first of the messages `pre`,
and the others are to come. -/
def Handing (w w' : Session σ ω) : Prop :=
  ∃ seen rest, pre = seen ++ rest ∧
    AtBoundary S fs [] w'.client (done ++ seen) (rest ++ f :: post) ∧
    Hears call w w' (seen.map .ofFrame)

variable (S fs done pre post f throws call) in
/-- From the session `w` on, `until` has handed over the messages `pre` and the
message `f`, which has ended it. -/
structure Handed (w : Session σ ω) (r : Exit × Session σ ω) : Prop where
  exit : r.1 = call.exitWith throws (.ofFrame f)
  hears : Hears call w r.2 ((pre ++ [f]).map .ofFrame)
  /-- Behind the message that ended it, or behind the last pass if it threw. -/
  boundary : ∃ taken left, pre ++ f :: post = taken ++ left ∧
    AtBoundary S fs [] r.2.client (done ++ taken) left ∧
    if call.throwsOn throws (.ofFrame f) then taken <+: pre else taken = pre ++ [f]

theorem Hears.trans {w w₁ w₂ : Session σ ω} {msgs msgs' : List ParsedMessage}
    (h : Hears call w w₁ msgs) (h' : Hears call w₁ w₂ msgs') :
    Hears call w w₂ (msgs ++ msgs') := by
  obtain ⟨events, htrace, hmsgs, hinvocations⟩ := h
  obtain ⟨events', htrace', hmsgs', hinvocations'⟩ := h'
  refine ⟨events ++ events', ?_, ?_, ?_⟩
  · rw [htrace', htrace, List.append_assoc]
  · rw [removed_append, hmsgs, hmsgs']
  · rw [invocations_append, hinvocations, hinvocations', List.filterMap_append]

theorem Hears.removed_eq {w w' : Session σ ω} {msgs : List ParsedMessage}
    (h : Hears call w w' msgs) {events : List (Event σ ω)}
    (htrace : w'.trace = w.trace ++ events) : removed events = msgs := by
  obtain ⟨events', htrace', hmsgs, -⟩ := h
  obtain rfl := List.append_cancel_left (htrace.symm.trans htrace')
  exact hmsgs

/-- Elements of which none is the one looked for come before it. -/
theorem exists_eq_append_of_forall_not {α : Type} {P : α → Prop} {front back gs hs : List α}
    {a : α} (h : front ++ a :: back = gs ++ hs) (ha : P a) (hgs : ∀ g ∈ gs, ¬P g) :
    ∃ rest, front = gs ++ rest ∧ hs = rest ++ a :: back := by
  rcases List.append_eq_append_iff.mp h with ⟨s, rfl, hs'⟩ | ⟨s, rfl, rfl⟩
  · cases s with
    | nil => exact ⟨[], by simp, hs'.symm⟩
    | cons g s =>
        obtain ⟨rfl, -⟩ := List.cons_eq_cons.mp hs'
        exact absurd ha (hgs a (by simp))
  · exact ⟨s, rfl, rfl⟩

/-- A pass that hands over frames which do not end the call. -/
theorem Handing.heard {w w₁ w' : Session σ ω} {gs : List (List Byte)} {r : List Byte}
    {events : List (Event σ ω)} (h : Handing S call fs done pre post f w w₁)
    (hfs : ∀ g ∈ fs, wire.IsFrame g) (hlast : call.EndsWith throws (.ofFrame f))
    (hgs : ∀ g ∈ gs, wire.IsFrame g) (hbuff : w₁.client.recvBuff = gs.flatten ++ r)
    (hheard : Heard throws call w₁ w') (htrace : w'.trace = w₁.trace ++ events)
    (hevents : removed events = gs.map .ofFrame) :
    ∃ seen rest, pre = seen ++ rest ∧
      AtBoundary S fs [] { w₁.client with recvBuff := r } (done ++ seen) (rest ++ f :: post) ∧
      Hears call w w' (seen.map .ofFrame) := by
  obtain ⟨seen, rest, rfl, hboundary, hhears⟩ := h
  obtain ⟨msgs, hmsgs, hgoOn⟩ := hheard
  obtain rfl : gs.map .ofFrame = msgs := hevents.symm.trans (hmsgs.removed_eq htrace)
  obtain ⟨hs, heq, hboundary'⟩ := hboundary.erase hfs Framing.incomplete_nil hgs hbuff
  obtain ⟨rest, rfl, rfl⟩ := exists_eq_append_of_forall_not
    (P := fun g => call.EndsWith throws (.ofFrame g)) heq hlast
    fun g hg => hgoOn _ (List.mem_map_of_mem hg)
  refine ⟨seen ++ gs, rest, (List.append_assoc seen gs rest).symm, ?_, ?_⟩
  · rw [← List.append_assoc]
    exact hboundary'
  · rw [List.map_append]
    exact hhears.trans hmsgs

/-- A pass whose last frame ends the call. -/
theorem Handing.heardLast {w w₁ w' : Session σ ω} {gs : List (List Byte)} {g r : List Byte}
    {events : List (Event σ ω)} {exit : Exit}
    (h : Handing S call fs done pre post f w w₁)
    (hfs : ∀ g ∈ fs, wire.IsFrame g) (hpre : ∀ g ∈ pre, ¬call.EndsWith throws (.ofFrame g))
    (hlast : call.EndsWith throws (.ofFrame f)) (hgs : ∀ h ∈ gs ++ [g], wire.IsFrame h)
    (hbuff : w₁.client.recvBuff = (gs ++ [g]).flatten ++ r)
    (hheard : HeardLast throws call w₁ exit w') (htrace : w'.trace = w₁.trace ++ events)
    (hevents : removed events = (gs ++ [g]).map .ofFrame) :
    ∃ seen, pre = seen ++ gs ∧ exit = call.exitWith throws (.ofFrame f) ∧
      Hears call w w' ((pre ++ [f]).map .ofFrame) ∧
      AtBoundary S fs [] w₁.client (done ++ seen) (gs ++ f :: post) ∧
      AtBoundary S fs [] { w₁.client with recvBuff := r } (done ++ (pre ++ [f])) post := by
  obtain ⟨seen, rest, rfl, hboundary, hhears⟩ := h
  obtain ⟨msgs, msg, hmsgs, hgoOn, hends, rfl⟩ := hheard
  have heq := hevents.symm.trans (hmsgs.removed_eq htrace)
  rw [List.map_append, List.map_singleton] at heq
  obtain ⟨rfl, hmsg⟩ := List.append_inj' heq rfl
  obtain rfl : ParsedMessage.ofFrame g = msg := by simpa using hmsg
  obtain ⟨hs, heq, hboundary'⟩ := hboundary.erase hfs Framing.incomplete_nil hgs hbuff
  rw [List.append_assoc] at heq
  obtain ⟨rest, rfl, hrest⟩ := exists_eq_append_of_forall_not
    (P := fun g => call.EndsWith throws (.ofFrame g)) heq hlast
    fun g hg => hgoOn _ (List.mem_map_of_mem hg)
  cases rest with
  | cons g' rest =>
      obtain ⟨rfl, -⟩ := List.cons_eq_cons.mp hrest
      exact absurd hends (hpre g (by simp))
  | nil =>
      obtain ⟨rfl, rfl⟩ := List.cons_eq_cons.mp hrest
      rw [List.append_nil] at *
      refine ⟨seen, rfl, rfl, ?_, hboundary, ?_⟩
      · have hall := hhears.trans hmsgs
        simpa using hall
      · simpa using hboundary'

theorem consumed_afterRead_trace (w : Session σ ω) (events : List (Event σ ω))
    (bytes rest : List Byte) (c : ConnectedClient σ) :
    ((w.consumed events bytes rest).afterRead c).trace =
      w.trace ++ (events ++ [.erased bytes.length (bytes.length + rest.length)] ++
        [.reads (w.consumed events bytes rest).client]) := by
  rw [← List.append_assoc]
  rfl

theorem removed_consumed (w : Session σ ω) (gs : List (List Byte)) (count held : ℕ)
    (c : ConnectedClient σ) :
    removed (visits call w.position gs ++ [.erased count held] ++ [.reads c]) =
      gs.map .ofFrame := by
  rw [removed_append, removed_append, removed_visits]
  simp [removed, Event.removed]

theorem Handing.pass {w w₁ : Session σ ω} {j : Jump (Session σ ω) (Exit × Session σ ω)}
    (h : Handing S call fs done pre post f w w₁) (hfs : ∀ g ∈ fs, wire.IsFrame g)
    (hwords : ∀ g ∈ fs, 4 ∣ g.length) (hpre : ∀ g ∈ pre, ¬call.EndsWith throws (.ofFrame g))
    (hlast : call.EndsWith throws (.ofFrame f)) (hpass : Pass (throwing throws) S call w₁ j)
    (hjumps : JumpsAs throws call w₁ j) :
    j.Satisfies (Handing S call fs done pre post f w)
      (Handed S throws call fs done pre post f w) := by
  cases hpass with
  | @left span rest exit w' hscan hvisit =>
      cases hvisit with
      | malformed hgs hspan hu herror =>
          obtain ⟨_, _, -, hboundary, -⟩ := h
          exact absurd herror (hscan.parseNUM_ne_error (hboundary.isFrame hfs)
            Framing.incomplete_nil hboundary.unconsumed hgs hspan hu)
      | @callbackThrew gs g u hgs hspan hthrows =>
          have hbuff : w₁.client.recvBuff = (gs ++ [g]).flatten ++ (u ++ rest) := by
            rw [hscan.split, hspan, List.append_assoc]
          obtain ⟨seen, rfl, hexit, hhears, hboundary, -⟩ := h.heardLast hfs hpre hlast hgs
            hbuff (hjumps.1 (.inr rfl)) rfl (removed_visits _ _ _)
          have hthrows : call.throwsOn throws (.ofFrame f) = true := by
            by_contra hreturns
            exact absurd (hexit.trans (exitWith_eq_normal_iff.mpr hreturns)) (by simp)
          refine ⟨hexit, hhears, seen, gs ++ f :: post, List.append_assoc _ _ _, hboundary, ?_⟩
          rw [if_pos hthrows]
          exact List.prefix_append _ _
      | @found gs g u hgs hskip hfound hspan =>
          have hbuff : w₁.client.recvBuff = (gs ++ [g]).flatten ++ (u ++ rest) := by
            rw [hscan.split, hspan, List.append_assoc]
          have hevents : removed (visits call w₁.position (gs ++ [g]) ++
              [.erased (gs ++ [g]).flatten.length
                ((gs ++ [g]).flatten.length + (u ++ rest).length)] : List (Event σ ω)) =
              (gs ++ [g]).map .ofFrame := by
            rw [removed_append, removed_visits]
            exact List.append_nil _
          obtain ⟨seen, rfl, hexit, hhears, -, hboundary⟩ := h.heardLast hfs hpre hlast hgs
            hbuff (hjumps.1 (.inl rfl)) rfl hevents
          have hreturns := exitWith_eq_normal_iff.mp hexit.symm
          refine ⟨hexit, hhears, seen ++ gs ++ [f], post, by simp, hboundary, ?_⟩
          rw [if_neg hreturns]
  | @eof gs rest bytes c hgs hskip hscan hreceives hpending hfilled =>
      obtain ⟨seen, rest', -, hboundary, -⟩ := h.heard hfs hlast hgs hscan.split
        (hjumps.2 rfl) (consumed_afterRead_trace _ _ _ _ _) (removed_consumed _ _ _ _ _)
      have hinc : wire.Incomplete rest := hscan.incomplete
      cases rest' with
      | nil => exact absurd hfilled (hboundary.not_filledToEof hfs hwords hinc)
      | cons g rest' => exact absurd hfilled (hboundary.not_filledToEof hfs hwords hinc)
  | @again gs rest bytes c hgs hskip hscan hreceives hne hfilled =>
      obtain ⟨seen, rest', hpre', hboundary, hhears⟩ := h.heard hfs hlast hgs hscan.split
        hjumps (consumed_afterRead_trace _ _ _ _ _) (removed_consumed _ _ _ _ _)
      exact ⟨seen, rest', hpre', hboundary.receives hreceives, hhears⟩

/-- Called at a message boundary of a stream of words, `until` hands over the messages up to
the first one that it waits for or on which a function object throws.  It returns if that
message makes no function object throw, with the buffer behind the message. -/
theorem recvisClosureUntil_endsWith (hfs : ∀ g ∈ fs, wire.IsFrame g)
    (hwords : ∀ g ∈ fs, 4 ∣ g.length) (hpre : ∀ g ∈ pre, ¬call.EndsWith throws (.ofFrame g))
    (hlast : call.EndsWith throws (.ofFrame f)) {w : Session σ ω}
    (hw : AtBoundary S fs [] w.client done (pre ++ f :: post)) :
    ∃ exit w', Yields (fun fuel => recvisClosureUntil (throwing throws) S.toHost fuel call w)
        (exit, w') ∧
      Handed S throws call fs done pre post f w (exit, w') := by
  have hscan : ∀ w₁, Handing S call fs done pre post f w w₁ →
      Ends fun fuel => getRecdBytesFormingWholeMessages fuel w₁.client.recvBuff := by
    rintro w₁ ⟨_, _, -, hboundary, -⟩
    exact (hboundary.noZeroSize hfs Framing.incomplete_nil).getRecdBytes_ends
  have hstart : Handing S call fs done pre post f w w := by
    refine ⟨[], pre, rfl, ?_, hears_refl w⟩
    rw [List.append_nil]
    exact hw
  obtain ⟨⟨exit, w'⟩, hyields, hend⟩ := recvisClosureUntil_total_throwing hscan
    (fun _ _ h hpass hjumps => h.pass hfs hwords hpre hlast hpass hjumps) hstart
  exact ⟨exit, w', hyields, hend⟩

/-! ## Sessions in which function objects throw -/

section Sessions

variable {callbacks : List (Event σ ω) → CallbackAction ω} {t : List Byte}

variable (S fs t) in
/-- Every message that is gone from the client was handed over, in the order of the
stream. -/
def NoneLost (w : Session σ ω) : Prop :=
  ∃ done rest, AtBoundary S fs t w.client done rest ∧
    (done.map ParsedMessage.ofFrame).Sublist (removed w.trace)

theorem Act.noneLost (hfs : ∀ g ∈ fs, wire.IsFrame g) (ht : wire.Incomplete t)
    {w w' : Session σ ω} (hw : NoneLost S fs t w) (h : Act S w w') : NoneLost S fs t w' := by
  obtain ⟨done, rest, hboundary, hremoved⟩ := hw
  cases h with
  | read hreceives hne hfilled =>
      refine ⟨done, rest, hboundary.receives hreceives, ?_⟩
      rw [Session.afterRead, Session.log, removed_append]
      exact hremoved.trans (List.sublist_append_left _ _)
  | @parse span r hscan =>
      obtain ⟨gs, hgs, rfl⟩ :=
        hscan.exists_frames (hboundary.isFrame hfs) ht hboundary.unconsumed
      obtain ⟨hs, rfl, hboundary'⟩ := hboundary.erase hfs ht hgs hscan.split
      have hparsed : removed [(.parsed { unparsedMessages := gs.flatten } : Event σ ω)] =
          gs.map .ofFrame := by
        simp [removed, Event.removed, MessageParser.messageGenerator,
          parsedMessageGenerator_flatten hgs]
      refine ⟨done ++ gs, hs, hboundary', ?_⟩
      rw [Session.log, removed_append, hparsed, List.map_append]
      exact hremoved.append_right _
  | @visit call gs r hgs hbuff =>
      obtain ⟨hs, rfl, hboundary'⟩ := hboundary.erase hfs ht hgs hbuff
      refine ⟨done ++ gs, hs, hboundary', ?_⟩
      rw [Session.consumed, removed_append, removed_append, removed_visits, List.map_append]
      exact (hremoved.append_right _).trans
        ((List.sublist_append_left _ _).append_left _)

theorem Acts.noneLost (hfs : ∀ g ∈ fs, wire.IsFrame g) (ht : wire.Incomplete t)
    {w w' : Session σ ω} (hw : NoneLost S fs t w) (h : Acts S w w') : NoneLost S fs t w' := by
  induction h with
  | refl => exact hw
  | tail _ hact ih => exact hact.noneLost hfs ht ih

/-- A call that is left by an exception leaves what it visited last in the client. -/
theorem CallEnd.noneLost (hfs : ∀ g ∈ fs, wire.IsFrame g) (ht : wire.Incomplete t)
    {w : Session σ ω} {r : Exit × Session σ ω} (hw : NoneLost S fs t w)
    (h : CallEnd callbacks S w r) : NoneLost S fs t r.2 := by
  cases h with
  | normal hacts => exact hacts.noneLost hfs ht hw
  | eof hacts hreceives hpending hfilled =>
      obtain ⟨done, rest, hboundary, hremoved⟩ := hacts.noneLost hfs ht hw
      refine ⟨done, rest, hboundary.receives hreceives, ?_⟩
      rw [Session.afterRead, Session.log, removed_append]
      exact hremoved.trans (List.sublist_append_left _ _)
  | malformed hacts hscan hgs hspan hu herror =>
      obtain ⟨done, rest, hboundary, -⟩ := hacts.noneLost hfs ht hw
      exact absurd herror (hscan.parseNUM_ne_error (hboundary.isFrame hfs) ht
        hboundary.unconsumed hgs hspan hu)
  | callbackThrew hacts hgs hbuff hthrows =>
      obtain ⟨done, rest, hboundary, hremoved⟩ := hacts.noneLost hfs ht hw
      refine ⟨done, rest, hboundary, ?_⟩
      rw [Session.logAll, removed_append]
      exact hremoved.trans (List.sublist_append_left _ _)

theorem Reachable.noneLost (hfs : ∀ g ∈ fs, wire.IsFrame g) (ht : wire.Incomplete t)
    (hreenter : NeverReenters callbacks) {server : σ}
    (hserver : S.pending server = fs.flatten ++ t) {w : Session σ ω}
    (hw : Reachable callbacks S.toHost (fun _ => True) (.start server) w) :
    NoneLost S fs t w := by
  induction hw with
  | start => exact ⟨[], fs, atBoundary_connect hserver, List.nil_sublist _⟩
  | @step w w' op exit _ hop hexit ih =>
      have hzero : NoZeroSize (w.client.unconsumed S) := by
        obtain ⟨done, rest, hboundary, -⟩ := ih
        exact hboundary.noZeroSize hfs ht
      exact (hzero.callEnd hreenter hop).noneLost hfs ht ih

variable (S fs) in
/-- A call of `until` in the session, where `rest` is to come, hands over exactly the messages
up to the first that ends it. -/
def HandsOver (done rest : List (List Byte)) (w : Session σ ω) : Prop :=
  ∀ (call : UntilCall ω) (throws : Invocation ω → Bool) (pre : List (List Byte))
    (f : List Byte) (post : List (List Byte)),
    rest = pre ++ f :: post → (∀ g ∈ pre, ¬call.EndsWith throws (.ofFrame g)) →
    call.EndsWith throws (.ofFrame f) →
    ∃ exit w', Yields
        (fun fuel => recvisClosureUntil (throwing throws) S.toHost fuel call w) (exit, w') ∧
      Handed S throws call fs done pre post f w (exit, w')

/-- Wait for an event of object 2 with an overload for the event of object 1. -/
def waitForTwo : UntilCall Unit where
  mos := (MessageOverloadSet.empty.addOverload 1 0 ()).2
  untilObjId := 2
  untilOpcode := 0
  callback := false

end Sessions

end Waylander
