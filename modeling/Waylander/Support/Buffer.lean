import Mathlib.Data.List.Basic

/-!
# Growable buffers written in place

A buffer is the list of its elements.  `resize` shortens it or lengthens it with
elements nobody has written yet: their values are given by a function of the
index, so a statement that holds for every such function depends on no
unwritten element.  `overwrite` stores a block over existing elements.
-/

namespace Buffer

variable {α : Type*}

/-- The `k` elements that the storage `fill` holds from index `start` on. -/
def fresh (fill : ℕ → α) (start k : ℕ) : List α :=
  (List.range k).map fun i => fill (start + i)

/-- Change the number of elements to `n`, keeping the first ones. -/
def resize (fill : ℕ → α) (xs : List α) (n : ℕ) : List α :=
  xs.take n ++ fresh fill xs.length (n - xs.length)

/-- Store the block `src` at index `i` and on. -/
def overwrite (xs : List α) (i : ℕ) (src : List α) : List α :=
  xs.take i ++ src ++ xs.drop (i + src.length)

@[simp] theorem fresh_length (fill : ℕ → α) (start k : ℕ) :
    (fresh fill start k).length = k := by
  simp [fresh]

theorem fresh_drop (fill : ℕ → α) (start k j : ℕ) :
    (fresh fill start k).drop j = fresh fill (start + j) (k - j) := by
  apply List.ext_getElem
  · simp
  · intro i hleft hright
    simp [fresh, Nat.add_assoc]

@[simp] theorem resize_length (fill : ℕ → α) (xs : List α) (n : ℕ) :
    (resize fill xs n).length = n := by
  simp only [resize, List.length_append, List.length_take, fresh_length]
  omega

theorem resize_add (fill : ℕ → α) (xs : List α) (k : ℕ) :
    resize fill xs (xs.length + k) = xs ++ fresh fill xs.length k := by
  rw [resize, List.take_of_length_le (Nat.le_add_right _ _), Nat.add_sub_cancel_left]

theorem resize_append_left (fill : ℕ → α) (xs ys : List α) :
    resize fill (xs ++ ys) xs.length = xs := by
  simp [resize, fresh]

theorem overwrite_append (xs ys src : List α) :
    overwrite (xs ++ ys) xs.length src = xs ++ (src ++ ys.drop src.length) := by
  simp [overwrite]

end Buffer
