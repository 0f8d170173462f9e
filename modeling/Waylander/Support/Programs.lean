import Mathlib

/-!
# Hoare triples of programs that may stop

A program has a state, which is kept when it is stopped by an exception, and it
may run out of fuel.  The triples are those of partial correctness: `Q` holds
where the program returns, `E` where it is stopped.
-/

namespace Programs

open Std.Do

variable {ε σ α β : Type}

abbrev Stoppable (ε σ : Type) := ExceptT ε (StateT σ Option)

/-- `Q` where the program returns, `E` where it is stopped. -/
def ends (Q : α → σ → Prop) (E : σ → Prop) :
    PostCond α (.except ε (.arg σ (.except PUnit .pure))) :=
  (fun a s => ⌜Q a s⌝, fun _ s => ⌜E s⌝, fun _ => ⌜True⌝, ())

theorem wp_ends_iff (x : Stoppable ε σ α) (Q : α → σ → Prop) (E : σ → Prop) (s : σ) :
    (wp⟦x⟧ (ends Q E) s).down ↔
      match x.run.run s with
      | some (.ok a, s') => Q a s'
      | some (.error _, s') => E s'
      | none => True := by
  simp only [WP.wp, ends, PredTrans.apply_pushExcept, PredTrans.apply_pushArg]
  cases x.run.run s with
  | none => exact ⟨fun _ => trivial, fun _ => trivial⟩
  | some r =>
      obtain ⟨r, s'⟩ := r
      cases r with
      | ok a => exact Iff.rfl
      | error e => exact Iff.rfl

/-- A triple is about all runs. -/
theorem triple_iff {x : Stoppable ε σ α} {P : σ → Prop} {Q : α → σ → Prop} {E : σ → Prop} :
    ⦃fun s => ⌜P s⌝⦄ x ⦃ends Q E⦄ ↔
      ∀ s r s', P s → x.run.run s = some (r, s') →
        match r with
        | .ok a => Q a s'
        | .error _ => E s' := by
  rw [Triple.iff]
  constructor
  · intro h s r s' hs hrun
    have hwp := (wp_ends_iff x Q E s).mp (h s hs)
    rw [hrun] at hwp
    cases r with
    | ok a => exact hwp
    | error e => exact hwp
  · intro h s hs
    refine (wp_ends_iff x Q E s).mpr ?_
    split
    · rename_i hrun
      exact h s _ _ hs hrun
    · rename_i hrun
      exact h s _ _ hs hrun
    · trivial

section Rules

variable {x : Stoppable ε σ α} {P P' : σ → Prop} {Q Q' : α → σ → Prop} {E E' : σ → Prop}

theorem bind {f : α → Stoppable ε σ β} {R : β → σ → Prop}
    (hx : ⦃fun s => ⌜P s⌝⦄ x ⦃ends Q E⦄) (hf : ∀ a, ⦃fun s => ⌜Q a s⌝⦄ f a ⦃ends R E⦄) :
    ⦃fun s => ⌜P s⌝⦄ (x >>= f) ⦃ends R E⦄ :=
  Triple.bind x f hx hf

theorem returns {a : α} (h : ∀ s, P s → Q a s) :
    ⦃fun s => ⌜P s⌝⦄ (pure a : Stoppable ε σ α) ⦃ends Q E⦄ :=
  Triple.pure a h

theorem stops {e : ε} (h : ∀ s, P s → E s) :
    ⦃fun s => ⌜P s⌝⦄ (throw e : Stoppable ε σ α) ⦃ends Q E⦄ := by
  rw [triple_iff]
  intro s r s' hs hrun
  cases hrun
  exact h s hs

theorem modifies {f : σ → σ} {Q : Unit → σ → Prop} (h : ∀ s, P s → Q () (f s)) :
    ⦃fun s => ⌜P s⌝⦄ (modify f : Stoppable ε σ Unit) ⦃ends Q E⦄ := by
  rw [triple_iff]
  intro s r s' hs hrun
  cases hrun
  exact h s hs

theorem reads {f : σ → Stoppable ε σ α} (h : ∀ s, P s → ⦃fun s' => ⌜s' = s⌝⦄ f s ⦃ends Q E⦄) :
    ⦃fun s => ⌜P s⌝⦄ (get >>= f) ⦃ends Q E⦄ := by
  rw [triple_iff]
  intro s r s' hs hrun
  exact triple_iff.mp (h s hs) s r s' rfl hrun

/-- A part of the precondition that is not about the state. -/
theorem pure_pre {φ : Prop} (h : φ → ⦃fun s => ⌜P s⌝⦄ x ⦃ends Q E⦄) :
    ⦃fun s => ⌜φ ∧ P s⌝⦄ x ⦃ends Q E⦄ := by
  rw [triple_iff]
  rintro s r s' ⟨hφ, hs⟩ hrun
  exact triple_iff.mp (h hφ) s r s' hs hrun

/-- The result of the first program is known. -/
theorem bind_eq {a : α} {f : α → Stoppable ε σ β} {R : β → σ → Prop}
    (hx : ⦃fun s => ⌜P s⌝⦄ x ⦃ends (fun b s => b = a ∧ P' s) E⦄)
    (hf : ⦃fun s => ⌜P' s⌝⦄ f a ⦃ends R E⦄) : ⦃fun s => ⌜P s⌝⦄ (x >>= f) ⦃ends R E⦄ := by
  refine bind hx fun b => ?_
  refine pure_pre fun hb => ?_
  rw [hb]
  exact hf

theorem consequence (h : ⦃fun s => ⌜P s⌝⦄ x ⦃ends Q E⦄) (hpre : ∀ s, P' s → P s)
    (hpost : ∀ a s, Q a s → Q' a s) (hstop : ∀ s, E s → E' s) :
    ⦃fun s => ⌜P' s⌝⦄ x ⦃ends Q' E'⦄ := by
  rw [triple_iff] at h ⊢
  intro s r s' hs hrun
  have hends := h s r s' (hpre s hs) hrun
  cases r with
  | ok a => exact hpost a s' hends
  | error e => exact hstop s' hends

/-- What the triple says of each value of an auxiliary variable. -/
theorem exists_pre {ι : Type} {P : ι → σ → Prop} (h : ∀ i, ⦃fun s => ⌜P i s⌝⦄ x ⦃ends Q E⦄) :
    ⦃fun s => ⌜∃ i, P i s⌝⦄ x ⦃ends Q E⦄ := by
  rw [triple_iff]
  rintro s r s' ⟨i, hs⟩ hrun
  exact triple_iff.mp (h i) s r s' hs hrun

/-- What a program does as long as a resource lasts that it never gets back. -/
theorem while_lasts {L : σ → Prop}
    (hkeep : ⦃fun s => ⌜¬L s⌝⦄ x ⦃ends (fun _ s => ¬L s) (fun s => ¬L s)⦄)
    (h : ⦃fun s => ⌜L s ∧ P s⌝⦄ x ⦃ends Q E⦄) :
    ⦃fun s => ⌜L s → P s⌝⦄ x ⦃ends (fun a s => L s → Q a s) (fun s => L s → E s)⦄ := by
  rw [triple_iff] at hkeep h ⊢
  intro s r s' hs hrun
  by_cases hlasts : L s
  · have hends := h s r s' ⟨hlasts, hs hlasts⟩ hrun
    cases r with
    | ok a => exact fun _ => hends
    | error e => exact fun _ => hends
  · have hends := hkeep s r s' hlasts hrun
    cases r with
    | ok a => exact fun hL => absurd hL hends
    | error e => exact fun hL => absurd hL hends

end Rules

end Programs
