import Waylander.Client.Runs

/-!
# Invariants of all runs

A call of `until` visits messages, returns to callbacks, erases, and receives,
and function objects may have any number of further calls do the same in
between.  A property of sessions that each of these acts keeps is kept by every
call and so holds in every session of a run, whatever the function objects do
and however calls are left.
-/

namespace Waylander

open Goto

variable {σ ω : Type}

/-- A property that the acts of a call keep. -/
structure Kept (host : Host σ) (I : Session σ ω → Prop) : Prop where
  visited : ∀ {w : Session σ ω} {span unparsed rest : List Byte} {msg : ParsedMessage}
    {position : ℕ} (handler : Handler ω), I w → w.client.recvBuff = span ++ unparsed ++ rest →
      position = w.position + span.length → parseNUM unparsed = .ok msg →
        I (w.log (.visited position msg handler))
  returned : ∀ {w : Session σ ω} (exit : Exit), I w → I (w.log (.returned exit))
  erased : ∀ {w : Session σ ω} (count : ℕ), I w → I (w.erase count).2
  read : ∀ {w : Session σ ω} {fuel : ℕ} {r : Except Exception Unit} {c : ConnectedClient σ},
    I w → recvMoreData host fuel w.client = some (r, c) → I (w.afterRead c)
  parsed : ∀ {w : Session σ ω} {span rest : List Byte}, I w →
    w.client.recvBuff = span ++ rest →
      I (({ w with client := { w.client with recvBuff := rest } }).log
        (.parsed { unparsedMessages := span }))

namespace Kept

variable {host : Host σ} {I : Session σ ω → Prop}
variable {callbacks : List (Event σ ω) → CallbackAction ω}
variable {reenter : UntilCall ω → Session σ ω → Option (Exit × Session σ ω)}

/-- The calls that a function object makes keep the property. -/
abbrev ReentersKeeping (I : Session σ ω → Prop)
    (reenter : UntilCall ω → Session σ ω → Option (Exit × Session σ ω)) : Prop :=
  ∀ call w r, I w → reenter call w = some r → I r.2

theorem invoke (h : Kept host I) (hreenter : ReentersKeeping I reenter) {fuel : ℕ}
    {w : Session σ ω} {r : Exit × Session σ ω} (hw : I w)
    (hinvoke : Waylander.invoke callbacks reenter fuel w = some r) : I r.2 := by
  have hblock : ∀ (_ : ℕ) w j, I w → callbackStep callbacks reenter w = some j →
      j.Satisfies I (fun r => I r.2) := by
    intro _ w j hw hstep
    rw [callbackStep] at hstep
    cases haction : callbacks w.trace with
    | returns =>
        simp only [haction, Option.some.injEq] at hstep
        exact hstep ▸ hw
    | throws =>
        simp only [haction, Option.some.injEq] at hstep
        exact hstep ▸ hw
    | callsUntil call =>
        simp only [haction, Option.bind_eq_bind, Option.bind_eq_some_iff, Prod.exists] at hstep
        obtain ⟨exit, w', hcall, hexit⟩ := hstep
        have hw' : I w' := hreenter call w (exit, w') hw hcall
        by_cases hundefined : exit = .undefined
        · rw [if_pos hundefined] at hexit
          cases hexit
          exact hw'
        · rw [if_neg hundefined] at hexit
          cases hexit
          exact h.returned exit hw'
  exact run_invariant hblock hw hinvoke

theorem handOver (h : Kept host I) (hreenter : ReentersKeeping I reenter) {fuel position : ℕ}
    {msg : ParsedMessage} {handler : Handler ω} {w : Session σ ω} {r : Exit × Session σ ω}
    (hw : I (w.log (.visited position msg handler)))
    (hhand : Waylander.handOver callbacks reenter fuel position msg handler w = some r) :
    I r.2 := by
  cases handler with
  | skipped =>
      cases hhand
      exact hw
  | overload ov => exact h.invoke hreenter hw hhand
  | untilCallback => exact h.invoke hreenter hw hhand
  | noCallback =>
      cases hhand
      exact hw

theorem visited_of_parse (h : Kept host I) {w : Session σ ω} {spanSize numBegin : ℕ}
    {msg : ParsedMessage} (hw : I w)
    (hparse : parseNUM ((w.client.recvBuff.take spanSize).drop numBegin) = .ok msg)
    (handler : Handler ω) : I (w.log (.visited (w.position + numBegin) msg handler)) := by
  have hne : (w.client.recvBuff.take spanSize).drop numBegin ≠ [] := by
    intro hnil
    rw [hnil] at hparse
    simp [parseNUM] at hparse
  have hbegin : numBegin < (w.client.recvBuff.take spanSize).length := by
    by_contra hle
    exact hne (List.drop_eq_nil_of_le (Nat.not_lt.mp hle))
  have hbuff : w.client.recvBuff = (w.client.recvBuff.take spanSize).take numBegin ++
      (w.client.recvBuff.take spanSize).drop numBegin ++ w.client.recvBuff.drop spanSize := by
    rw [List.take_append_drop, List.take_append_drop]
  apply h.visited handler hw hbuff _ hparse
  rw [List.length_take_of_le hbegin.le]

theorem visitNext (h : Kept host I) (hreenter : ReentersKeeping I reenter)
    {call : UntilCall ω} {spanSize resizes fuel : ℕ} {l : VisitLocals σ ω}
    {j : Jump (VisitLocals σ ω) (Option Exit × Session σ ω)} (hw : I l.session)
    (hvisit : Waylander.visitNext callbacks reenter call spanSize resizes fuel l = some j) :
    j.Satisfies (fun l' => I l'.session) (fun r => I r.2) := by
  simp only [Waylander.visitNext] at hvisit
  split at hvisit
  · cases hvisit
    exact hw
  · split at hvisit
    · cases hvisit
      exact hw
    · split at hvisit
      · cases hvisit
        exact hw
      · rename_i msg hparse
        have hlog := h.visited_of_parse hw hparse
        split at hvisit
        · simp only [Option.bind_eq_bind, Option.bind_eq_some_iff, Prod.exists] at hvisit
          obtain ⟨exit, w', hhand, hvisit⟩ := hvisit
          have hw' : I w' := h.handOver hreenter (hlog _) hhand
          split at hvisit
          · cases hvisit
            exact h.erased _ hw'
          · cases hvisit
            exact hw'
        · simp only [Option.bind_eq_bind, Option.bind_eq_some_iff, Prod.exists] at hvisit
          obtain ⟨exit, w', hhand, hvisit⟩ := hvisit
          have hw' : I w' := h.handOver hreenter (hlog _) hhand
          split at hvisit
          · cases hvisit
            exact hw'
          · cases hvisit
            exact hw'

theorem tryAgain (h : Kept host I) (hreenter : ReentersKeeping I reenter)
    {call : UntilCall ω} {fuel : ℕ} {w : Session σ ω}
    {j : Jump (Session σ ω) (Exit × Session σ ω)} (hw : I w)
    (hpass : Waylander.tryAgain callbacks reenter call host fuel w = some j) :
    j.Satisfies I (fun r => I r.2) := by
  simp only [Waylander.tryAgain, Option.bind_eq_bind, Option.bind_eq_some_iff,
    Prod.exists] at hpass
  obtain ⟨span, -, left, w', hvisits, hpass⟩ := hpass
  have hblock : ∀ fuel' l j, I l.session →
      Waylander.visitNext callbacks reenter call span.length w.resizes fuel' l = some j →
        j.Satisfies (fun l' => I l'.session) (fun r => I r.2) :=
    fun _ _ _ hl hl' => h.visitNext hreenter hl hl'
  have hw' : I w' := run_invariant hblock hw hvisits
  cases left with
  | some exit =>
      cases hpass
      exact hw'
  | none =>
      have herased := h.erased span.length hw'
      cases herase : w'.erase span.length with
      | mk exit w'' =>
          rw [herase] at herased hpass
          cases exit with
          | normal =>
              simp only [Session.recvMoreData, Option.bind_eq_bind, Option.bind_eq_some_iff,
                Option.pure_def, Option.some.injEq, Prod.mk.injEq, Prod.exists] at hpass
              obtain ⟨r, w₁, ⟨r', c, hrecv, rfl, rfl⟩, hpass⟩ := hpass
              have hread := h.read herased hrecv
              cases r' with
              | error e =>
                  cases hpass
                  exact hread
              | ok _ =>
                  cases hpass
                  exact hread
          | threw e =>
              cases hpass
              exact herased
          | undefined =>
              cases hpass
              exact herased

theorem recvisClosureUntil (h : Kept host I) {fuel : ℕ} {call : UntilCall ω}
    {w : Session σ ω} {r : Exit × Session σ ω} (hw : I w)
    (hcall : Waylander.recvisClosureUntil callbacks host fuel call w = some r) : I r.2 := by
  induction fuel generalizing call w r with
  | zero => cases hcall
  | succ fuel ih =>
      rw [Waylander.recvisClosureUntil] at hcall
      exact run_invariant (fun _ _ _ hw hpass => h.tryAgain (fun _ _ _ => ih) hw hpass) hw hcall

theorem performs (h : Kept host I) {op : Op ω} {w w' : Session σ ω} {exit : Exit} (hw : I w)
    (hop : Performs callbacks host op w exit w') : I w' := by
  obtain ⟨fuel, hop⟩ := hop
  cases op with
  | recvMoreData =>
      simp only [Op.perform, Session.recvMoreData, Option.bind_eq_bind, Option.bind_eq_some_iff,
        Option.pure_def, Option.some.injEq, Prod.mk.injEq, Prod.exists] at hop
      obtain ⟨r, w₁, ⟨r', c, hrecv, rfl, rfl⟩, -, rfl⟩ := hop
      exact h.read hw hrecv
  | recvEvents =>
      simp only [Op.perform, recvEvents, Option.bind_eq_bind, Option.bind_eq_some_iff,
        Prod.exists] at hop
      obtain ⟨r, c, ⟨r', c', hrecv, hparse⟩, hop⟩ := hop
      have hread := h.read hw hrecv
      cases r' with
      | error e =>
          cases hparse
          cases hop
          exact hread
      | ok _ =>
          simp only [Option.bind_eq_some_iff] at hparse
          obtain ⟨span, hspan, hparse⟩ := hparse
          cases hparse
          cases hop
          obtain ⟨rest, hscan⟩ := getRecdBytes_spec hspan
          have hdrop : c'.recvBuff.drop span.length = rest := by
            rw [hscan.split, List.drop_left]
          rw [hdrop]
          exact h.parsed hread hscan.split
  | untilCall call => exact h.recvisClosureUntil hw hop

theorem reachable (h : Kept host I) {allowed : Exit → Prop} {w₀ w : Session σ ω} (hw₀ : I w₀)
    (hw : Reachable callbacks host allowed w₀ w) : I w := by
  induction hw with
  | start => exact hw₀
  | step _ hop _ ih => exact h.performs ih hop

end Kept

end Waylander
