import Mathlib.Data.Nat.Init
import Mathlib.Order.Nat

/-!
# Programs with a label and jumps

A block that begins at a label either jumps back to the label with new values
of its local variables or leaves with a result.  `run` executes such a block
with a bound on the number of jumps, so it is a computable total function; a
program that never leaves is one for which no bound suffices.

The rules below are those used to reason about a loop: an invariant for partial
correctness, an invariant with a decreasing variant for total correctness, and
a set of states that is never left for divergence.
-/

namespace Goto

variable {σ ρ τ : Type*}

/-- What one pass through a labelled block ends with. -/
inductive Jump (σ ρ : Type*)
  | again (s : σ)
  | exit (r : ρ)

/-- `P` holds of the locals a pass jumps back with, or `Q` of the result. -/
def Jump.Satisfies (P : σ → Prop) (Q : ρ → Prop) : Jump σ ρ → Prop
  | .again s => P s
  | .exit r => Q r

/-! ## Bounded evaluation -/

/-- Every large enough bound gives the result `r`, and no bound another one. -/
def Yields (f : ℕ → Option ρ) (r : ρ) : Prop :=
  (∃ N, ∀ n, N ≤ n → f n = some r) ∧ ∀ n r', f n = some r' → r' = r

/-- Some result is reached. -/
def Ends (f : ℕ → Option ρ) : Prop :=
  ∃ r, Yields f r

/-- No bound suffices. -/
def Diverges (f : ℕ → Option ρ) : Prop :=
  ∀ n, f n = none

theorem yields_some (r : ρ) : Yields (fun _ => some r) r :=
  ⟨⟨0, fun _ _ => rfl⟩, fun _ _ h => (Option.some.inj h).symm⟩

theorem Yields.exists_fuel {f : ℕ → Option ρ} {r : ρ} (h : Yields f r) :
    ∃ n, f n = some r := by
  obtain ⟨N, hN⟩ := h.1
  exact ⟨N, hN N le_rfl⟩

theorem Yields.eq_of_some {f : ℕ → Option ρ} {r r' : ρ} {n : ℕ} (h : Yields f r)
    (hn : f n = some r') : r' = r :=
  h.2 n r' hn

theorem Yields.bind {f : ℕ → Option ρ} {g : ρ → ℕ → Option τ} {r : ρ} {t : τ}
    (hf : Yields f r) (hg : Yields (g r) t) :
    Yields (fun n => (f n).bind fun r => g r n) t := by
  constructor
  · obtain ⟨N, hN⟩ := hf.1
    obtain ⟨N', hN'⟩ := hg.1
    refine ⟨max N N', fun n hn => ?_⟩
    have hr := hN n ((le_max_left N N').trans hn)
    have ht := hN' n ((le_max_right N N').trans hn)
    simp only [hr, Option.bind_some, ht]
  · intro n t' ht'
    obtain ⟨r', hr', htr'⟩ := Option.bind_eq_some_iff.mp ht'
    rw [hf.eq_of_some hr'] at htr'
    exact hg.eq_of_some htr'

theorem Yields.bind_some {f : ℕ → Option ρ} {g : ρ → Option τ} {r : ρ} {t : τ}
    (hf : Yields f r) (hg : g r = some t) : Yields (fun n => (f n).bind g) t :=
  hf.bind (g := fun r _ => g r) (by rw [hg]; exact yields_some t)

/-- A program that needs one more step than another one with the same result. -/
theorem Yields.shift {f : ℕ → Option ρ} {r : ρ} (h : Yields (fun n => f (n + 1)) r)
    (hzero : f 0 = none) : Yields f r := by
  constructor
  · obtain ⟨N, hN⟩ := h.1
    refine ⟨N + 1, fun n hn => ?_⟩
    obtain ⟨m, rfl⟩ := Nat.exists_eq_add_of_le hn
    simpa [Nat.add_right_comm] using hN (N + m) (Nat.le_add_right N m)
  · intro n r' hr'
    cases n with
    | zero =>
        rw [hzero] at hr'
        cases hr'
    | succ n => exact h.2 n r' hr'

theorem Diverges.not_ends {f : ℕ → Option ρ} (h : Diverges f) : ¬Ends f := by
  rintro ⟨r, hr⟩
  obtain ⟨n, hn⟩ := hr.exists_fuel
  rw [h n] at hn
  cases hn

/-! ## Running a block -/

/-- Enter the block at its label with locals `s`. -/
def run (block : ℕ → σ → Option (Jump σ ρ)) : ℕ → σ → Option ρ
  | 0, _ => none
  | fuel + 1, s =>
      match block fuel s with
      | none => none
      | some (.again s') => run block fuel s'
      | some (.exit r) => some r

variable {block : ℕ → σ → Option (Jump σ ρ)}

theorem run_yields_exit {s : σ} {r : ρ}
    (h : Yields (fun n => block n s) (.exit r)) :
    Yields (fun n => run block n s) r := by
  refine Yields.shift ?_ rfl
  constructor
  · obtain ⟨N, hN⟩ := h.1
    exact ⟨N, fun n hn => by simp only [run, hN n hn]⟩
  · intro n r' hr'
    cases hpass : block n s with
    | none => simp [run, hpass] at hr'
    | some j =>
        obtain rfl := h.eq_of_some hpass
        simp only [run, hpass, Option.some.injEq] at hr'
        exact hr'.symm

theorem run_yields_again {s s' : σ} {r : ρ}
    (h : Yields (fun n => block n s) (.again s'))
    (h' : Yields (fun n => run block n s') r) :
    Yields (fun n => run block n s) r := by
  refine Yields.shift ?_ rfl
  constructor
  · obtain ⟨N, hN⟩ := h.1
    obtain ⟨N', hN'⟩ := h'.1
    refine ⟨max N N', fun n hn => ?_⟩
    simp only [run, hN n ((le_max_left N N').trans hn)]
    exact hN' n ((le_max_right N N').trans hn)
  · intro n r' hr'
    cases hpass : block n s with
    | none => simp [run, hpass] at hr'
    | some j =>
        obtain rfl := h.eq_of_some hpass
        simp only [run, hpass] at hr'
        exact h'.eq_of_some hr'

/-- Partial correctness: an invariant at the label gives the postcondition at
every exit. -/
theorem run_invariant {Inv : σ → Prop} {Post : ρ → Prop}
    (hblock : ∀ fuel s j, Inv s → block fuel s = some j →
      j.Satisfies Inv Post)
    {fuel : ℕ} {s : σ} {r : ρ} (hs : Inv s) (hrun : run block fuel s = some r) :
    Post r := by
  induction fuel generalizing s with
  | zero => cases hrun
  | succ fuel ih =>
      rw [run] at hrun
      cases hpass : block fuel s with
      | none => simp [hpass] at hrun
      | some j =>
          have hj := hblock fuel s j hs hpass
          cases j with
          | again s' =>
              simp only [hpass] at hrun
              exact ih hj hrun
          | exit r' =>
              simp only [hpass, Option.some.injEq] at hrun
              exact hrun ▸ hj

/-- Total correctness: if moreover every pass completes and every jump back
decreases the variant, the block is left. -/
theorem run_total {Inv : σ → Prop} {Post : ρ → Prop} (variant : σ → ℕ)
    (hblock : ∀ s, Inv s → ∃ j, Yields (fun n => block n s) j ∧
      j.Satisfies (fun s' => Inv s' ∧ variant s' < variant s) Post)
    {s : σ} (hs : Inv s) :
    ∃ r, Yields (fun n => run block n s) r ∧ Post r := by
  induction hv : variant s using Nat.strongRecOn generalizing s with
  | ind v ih =>
      obtain ⟨j, hj, hsat⟩ := hblock s hs
      cases j with
      | again s' =>
          obtain ⟨r, hr, hpost⟩ := ih (variant s') (hv ▸ hsat.2) hsat.1 rfl
          exact ⟨r, run_yields_again hj hr, hpost⟩
      | exit r => exact ⟨r, run_yields_exit hj, hsat⟩

/-- Divergence: a set of label states from which every pass jumps back into the
set is never left. -/
theorem run_diverges {Stuck : σ → Prop}
    (hblock : ∀ fuel s, Stuck s →
      ∃ s', Stuck s' ∧ block fuel s = some (.again s'))
    {s : σ} (hs : Stuck s) : Diverges (fun n => run block n s) := by
  intro fuel
  induction fuel generalizing s with
  | zero => rfl
  | succ fuel ih =>
      obtain ⟨s', hs', hpass⟩ := hblock fuel s hs
      simp only [run, hpass]
      exact ih hs'

end Goto
