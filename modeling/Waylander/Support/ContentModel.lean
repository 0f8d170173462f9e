import Mathlib.Computability.Language
import Mathlib.Data.List.Forall2

/-!
# Content models

A content model says which children an element may have, and in which order.
It is a regular language over the children, written with Mathlib's operations
on languages; the letters are predicates.  `Leading` is what a reader makes of
an optional first child.
-/

namespace ContentModel

open Computability

variable {α β : Type*}

/-- One child, with the property `p`. -/
def one (p : α → Prop) : Language α :=
  {xs | ∃ x, p x ∧ xs = [x]}

/-- `p?` -/
def opt (p : α → Prop) : Language α :=
  1 + one p

/-- `p*` -/
def many (p : α → Prop) : Language α :=
  (one p)∗

/-- `p+` -/
def many1 (p : α → Prop) : Language α :=
  one p * many p

theorem mem_one {p : α → Prop} {xs : List α} : xs ∈ one p ↔ ∃ x, p x ∧ xs = [x] :=
  Iff.rfl

theorem mem_many {p : α → Prop} {xs : List α} : xs ∈ many p ↔ ∀ x ∈ xs, p x := by
  constructor
  · intro h x hx
    obtain ⟨words, rfl, hwords⟩ := Language.mem_kstar.mp h
    obtain ⟨word, hword, hmem⟩ := List.mem_flatten.mp hx
    obtain ⟨y, hy, rfl⟩ := hwords word hword
    obtain rfl := List.mem_singleton.mp hmem
    exact hy
  · intro h
    refine Language.mem_kstar.mpr ⟨xs.map fun x => [x], (List.flatMap_singleton' xs).symm, ?_⟩
    intro word hword
    obtain ⟨x, hx, rfl⟩ := List.mem_map.mp hword
    exact ⟨x, h x hx, rfl⟩

theorem mem_many1 {p : α → Prop} {xs : List α} :
    xs ∈ many1 p ↔ xs ≠ [] ∧ ∀ x ∈ xs, p x := by
  rw [many1, Language.mem_mul]
  constructor
  · rintro ⟨_, ⟨x, hx, rfl⟩, rest, hrest, rfl⟩
    refine ⟨by simp, ?_⟩
    simpa [hx] using mem_many.mp hrest
  · rintro ⟨hne, h⟩
    obtain ⟨x, rest, rfl⟩ := List.exists_cons_of_ne_nil hne
    obtain ⟨hx, hrest⟩ := List.forall_mem_cons.mp h
    exact ⟨[x], ⟨x, hx, rfl⟩, rest, mem_many.mpr hrest, rfl⟩

theorem mem_opt_mul {p : α → Prop} {l : Language α} {xs : List α} :
    xs ∈ opt p * l ↔ xs ∈ l ∨ ∃ x rest, xs = x :: rest ∧ p x ∧ rest ∈ l := by
  rw [opt, add_mul, one_mul, Language.mem_add, Language.mem_mul]
  apply or_congr_right
  constructor
  · rintro ⟨_, ⟨x, hx, rfl⟩, rest, hrest, rfl⟩
    exact ⟨x, rest, rfl, hx, hrest⟩
  · rintro ⟨x, rest, rfl, hx, hrest⟩
    exact ⟨[x], ⟨x, hx, rfl⟩, rest, hrest, rfl⟩

theorem mem_many_of_mem_many1 {p : α → Prop} {xs : List α} (h : xs ∈ many1 p) : xs ∈ many p :=
  mem_many.mpr (mem_many1.mp h).2

theorem mem_opt_mul_of_subset {p : α → Prop} {l l' : Language α} {xs : List α}
    (h : ∀ ys ∈ l, ys ∈ l') (hxs : xs ∈ opt p * l) : xs ∈ opt p * l' := by
  obtain hrest | ⟨x, rest, heq, hx, hrest⟩ := mem_opt_mul.mp hxs
  · exact mem_opt_mul.mpr (.inl (h xs hrest))
  · exact mem_opt_mul.mpr (.inr ⟨x, rest, heq, hx, h rest hrest⟩)

/-! ## Reading an optional first child -/

/-- The optional first child is recognised by `isHead` and read as `R` says;
`rest` are the other children. -/
inductive Leading (isHead : α → Prop) (R : α → β → Prop) :
    List α → Option β → List α → Prop
  | absent {rest : List α} (h : ∀ x ∈ rest.head?, ¬isHead x) : Leading isHead R rest none rest
  | present {x : α} {y : β} {rest : List α} (hx : isHead x) (h : R x y) :
      Leading isHead R (x :: rest) (some y) rest

variable {isHead : α → Prop} {R : α → β → Prop}

theorem leading_nil {o : Option β} {rest : List α} :
    Leading isHead R [] o rest ↔ o = none ∧ rest = [] := by
  constructor
  · rintro ⟨⟩
    exact ⟨rfl, rfl⟩
  · rintro ⟨rfl, rfl⟩
    exact .absent (by simp)

theorem leading_cons_of_pos {x : α} {xs rest : List α} {o : Option β} (hx : isHead x) :
    Leading isHead R (x :: xs) o rest ↔ ∃ y, R x y ∧ o = some y ∧ rest = xs := by
  constructor
  · rintro (h | ⟨-, h⟩)
    · exact absurd hx (h x rfl)
    · exact ⟨_, h, rfl, rfl⟩
  · rintro ⟨y, h, rfl, rfl⟩
    exact .present hx h

theorem leading_cons_of_neg {x : α} {xs rest : List α} {o : Option β} (hx : ¬isHead x) :
    Leading isHead R (x :: xs) o rest ↔ o = none ∧ rest = x :: xs := by
  constructor
  · rintro (h | ⟨hhead, -⟩)
    · exact ⟨rfl, rfl⟩
    · exact absurd hhead hx
  · rintro ⟨rfl, rfl⟩
    exact .absent (by simpa using hx)

theorem Leading.unique (hR : ∀ x y y', R x y → R x y' → y = y') {xs rest rest' : List α}
    {o o' : Option β} (h : Leading isHead R xs o rest) (h' : Leading isHead R xs o' rest') :
    o = o' ∧ rest = rest' := by
  rcases h with hnot | ⟨hx, hy⟩
  · rcases h' with - | ⟨hx', -⟩
    · exact ⟨rfl, rfl⟩
    · exact absurd hx' (hnot _ rfl)
  · obtain ⟨y', hy', rfl, rfl⟩ := (leading_cons_of_pos hx).mp h'
    exact ⟨congrArg some (hR _ _ _ hy hy'), rfl⟩

/-- A list that matches `p?` and then `l` can be read, if what has the property
`p` can be and no word of `l` begins like it. -/
theorem exists_leading {p : α → Prop} {l : Language α} {xs : List α}
    (hxs : xs ∈ opt p * l) (hp : ∀ x, p x → isHead x ∧ ∃ y, R x y)
    (hl : ∀ rest ∈ l, ∀ x ∈ rest.head?, ¬isHead x) :
    ∃ o rest, Leading isHead R xs o rest ∧ rest ∈ l := by
  obtain hrest | ⟨x, rest, rfl, hx, hrest⟩ := mem_opt_mul.mp hxs
  · exact ⟨none, xs, .absent (hl xs hrest), hrest⟩
  · obtain ⟨hhead, y, hy⟩ := hp x hx
    exact ⟨some y, rest, .present hhead hy, hrest⟩

/-- A list that matches `p*` can be read element by element. -/
theorem exists_forall₂ {p : α → Prop} {xs : List α} (hxs : xs ∈ many p)
    (hp : ∀ x, p x → ∃ y, R x y) : ∃ ys, List.Forall₂ R xs ys := by
  have hall := mem_many.mp hxs
  clear hxs
  induction xs with
  | nil => exact ⟨[], .nil⟩
  | cons x xs ih =>
      obtain ⟨hx, hrest⟩ := List.forall_mem_cons.mp hall
      obtain ⟨y, hy⟩ := hp x hx
      obtain ⟨ys, hys⟩ := ih hrest
      exact ⟨y :: ys, .cons hy hys⟩

theorem forall_mem_of_forall₂ {p : α → Prop} {xs : List α} {ys : List β}
    (h : List.Forall₂ R xs ys) (hp : ∀ x y, R x y → p x) : ∀ x ∈ xs, p x :=
  ((List.forall₂_and_left _ _).mp (h.imp fun x y hxy => ⟨hp x y hxy, hxy⟩)).1

/-- A property of the elements as a property of what is read from them. -/
theorem forall_mem_iff_of_forall₂ {p : α → Prop} {q : β → Prop} {xs : List α} {ys : List β}
    (h : List.Forall₂ R xs ys) (hpq : ∀ x y, R x y → (p x ↔ q y)) :
    (∀ x ∈ xs, p x) ↔ ∀ y ∈ ys, q y := by
  induction h with
  | nil => simp
  | cons hxy _ ih => rw [List.forall_mem_cons, List.forall_mem_cons, hpq _ _ hxy, ih]

/-- What a function of the elements and one of what is read from them have in
common. -/
theorem map_eq_map_of_forall₂ {γ : Type*} {f : α → γ} {g : β → γ} {xs : List α} {ys : List β}
    (h : List.Forall₂ R xs ys) (hfg : ∀ x y, R x y → f x = g y) : xs.map f = ys.map g := by
  induction h with
  | nil => rfl
  | cons hxy _ ih => rw [List.map_cons, List.map_cons, hfg _ _ hxy, ih]

theorem forall₂_append_left_iff {xs xs' : List α} {ys : List β} :
    List.Forall₂ R (xs ++ xs') ys ↔
      ∃ zs zs', List.Forall₂ R xs zs ∧ List.Forall₂ R xs' zs' ∧ ys = zs ++ zs' := by
  constructor
  · intro h
    induction xs generalizing ys with
    | nil => exact ⟨[], ys, .nil, h, rfl⟩
    | cons x xs ih =>
        obtain ⟨y, ys, hy, hys, rfl⟩ := List.forall₂_cons_left_iff.mp h
        obtain ⟨zs, zs', hzs, hzs', rfl⟩ := ih hys
        exact ⟨y :: zs, zs', .cons hy hzs, hzs', rfl⟩
  · rintro ⟨zs, zs', hzs, hzs', rfl⟩
    exact List.rel_append hzs hzs'

/-- Numbering what has been read, from `start` on, numbers the elements. -/
theorem forall₂_zipIdx {γ : Type*} {S : α × ℕ → γ → Prop} {f : ℕ → β → γ} {xs : List α}
    {ys : List β} (h : List.Forall₂ R xs ys) (hf : ∀ x y n, R x y → S (x, n) (f n y))
    (start : ℕ) :
    List.Forall₂ S (xs.zipIdx start)
      (((List.range' start ys.length).zip ys).map fun (n, y) => f n y) := by
  induction h generalizing start with
  | nil => exact .nil
  | cons hxy _ ih => exact .cons (hf _ _ start hxy) (ih (start + 1))

end ContentModel
