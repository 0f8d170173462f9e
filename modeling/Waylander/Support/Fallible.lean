import Mathlib.Data.List.Forall2

/-!
# Steps that may fail

Rules for computations in `Except`, whatever they fail with: when a sequence of
two steps returns, when a check returns, and when a step done for each element
of a list returns.
-/

namespace Fallible

variable {ε : Type*} {α β : Type}

/-- What a sequence of two steps returning means. -/
theorem bind_eq_ok_iff {x : Except ε α} {f : α → Except ε β} {b : β} :
    x >>= f = .ok b ↔ ∃ a, x = .ok a ∧ f a = .ok b := by
  cases x with
  | error e => simp [bind, Except.bind]
  | ok a => simp [bind, Except.bind]

@[simp] theorem pure_eq_ok_iff {a b : α} : (pure a : Except ε α) = .ok b ↔ a = b := by
  simp [pure, Except.pure]

/-- Continue only if `c` holds. -/
def require (c : Prop) [Decidable c] (e : ε) : Except ε Unit :=
  if c then .ok () else .error e

@[simp] theorem require_eq_ok_iff {c : Prop} [Decidable c] {e : ε} {u : Unit} :
    require c e = .ok u ↔ c := by
  by_cases hc : c
  · simp [require, hc]
  · simp [require, hc]

/-- A step for each element returns exactly if each of them returns. -/
theorem mapM_eq_ok_iff {f : α → Except ε β} {xs : List α} {ys : List β} :
    xs.mapM f = .ok ys ↔ List.Forall₂ (fun x y => f x = .ok y) xs ys := by
  induction xs generalizing ys with
  | nil =>
      rw [List.mapM_nil, pure_eq_ok_iff, List.forall₂_nil_left_iff, eq_comm]
  | cons x xs ih =>
      rw [List.mapM_cons, bind_eq_ok_iff]
      constructor
      · rintro ⟨y, hy, hrest⟩
        obtain ⟨rest, hmap, heq⟩ := bind_eq_ok_iff.mp hrest
        obtain rfl := pure_eq_ok_iff.mp heq
        exact .cons hy (ih.mp hmap)
      · intro h
        obtain ⟨y, rest, hy, hrest, rfl⟩ := List.forall₂_cons_left_iff.mp h
        exact ⟨y, hy, bind_eq_ok_iff.mpr ⟨rest, ih.mpr hrest, rfl⟩⟩

end Fallible
