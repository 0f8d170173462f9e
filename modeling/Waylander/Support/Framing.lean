import Mathlib.Data.List.Infix
import Mathlib.Logic.Relation

/-!
# Self-delimiting frames

A framing tells the length of a frame from a header of fixed length.  Walking a
string means dropping, again and again, as many symbols as the header in front
announces, as long as that many symbols are there.  This module relates the
strings met on such a walk to the sequences of whole frames that tile a prefix
of the string, over an arbitrary alphabet and without assuming that announced
sizes are large enough to contain a header.
-/

/-- A header length and the frame length announced by a header. -/
structure Framing (α : Type*) where
  header : ℕ
  header_pos : 0 < header
  size : List α → ℕ
  size_append : ∀ xs ys, header ≤ xs.length → size (xs ++ ys) = size xs

namespace Framing

variable {α : Type*} (F : Framing α)

/-- A string whose header announces exactly its own length. -/
def IsFrame (f : List α) : Prop :=
  F.header ≤ f.length ∧ F.size f = f.length

/-- The header at the beginning or the rest of its frame is cut off. -/
def Incomplete (t : List α) : Prop :=
  t.length < F.header ∨ t.length < F.size t

/-- No whole frame stands at the beginning. -/
def NoFrame (t : List α) : Prop :=
  ∀ f, F.IsFrame f → ¬f <+: t

instance (f : List α) : Decidable (F.IsFrame f) :=
  inferInstanceAs (Decidable (_ ∧ _))

instance (t : List α) : Decidable (F.Incomplete t) :=
  inferInstanceAs (Decidable (_ ∨ _))

/-- One step of the walk: the announced number of symbols is dropped. -/
def Follows (xs ys : List α) : Prop :=
  F.header ≤ xs.length ∧ F.size xs ≤ xs.length ∧ ys = xs.drop (F.size xs)

/-- The strings met on the walk. -/
def Reached : List α → List α → Prop :=
  Relation.ReflTransGen F.Follows

variable {F}

theorem IsFrame.ne_nil {f : List α} (hf : F.IsFrame f) : f ≠ [] := by
  rintro rfl
  exact absurd hf.1 (Nat.not_le.mpr F.header_pos)

theorem IsFrame.size_append {f : List α} (hf : F.IsFrame f) (r : List α) :
    F.size (f ++ r) = f.length := by
  rw [F.size_append f r hf.1, hf.2]

theorem IsFrame.follows {f : List α} (hf : F.IsFrame f) (r : List α) :
    F.Follows (f ++ r) r := by
  refine ⟨?_, ?_, ?_⟩
  · exact hf.1.trans (by simp)
  · simp [hf.size_append]
  · simp [hf.size_append]

theorem Incomplete.not_follows {t ys : List α} (ht : F.Incomplete t) :
    ¬F.Follows t ys := by
  rintro ⟨hheader, hsize, -⟩
  rcases ht with h | h
  · exact absurd hheader (Nat.not_le.mpr h)
  · exact absurd hsize (Nat.not_le.mpr h)

theorem Incomplete.noFrame {t : List α} (ht : F.Incomplete t) : F.NoFrame t := by
  rintro f hf ⟨r, rfl⟩
  exact ht.not_follows (hf.follows r)

theorem noFrame_nil : F.NoFrame [] := by
  intro f hf hprefix
  exact hf.ne_nil (List.prefix_nil.mp hprefix)

theorem incomplete_or_follows (F : Framing α) (xs : List α) :
    F.Incomplete xs ∨ F.Follows xs (xs.drop (F.size xs)) := by
  by_cases hinc : F.Incomplete xs
  · exact Or.inl hinc
  · rw [Incomplete, not_or, Nat.not_lt, Nat.not_lt] at hinc
    exact Or.inr ⟨hinc.1, hinc.2, rfl⟩

theorem incomplete_nil : F.Incomplete [] :=
  Or.inl F.header_pos

theorem Incomplete.of_isPrefix {t u : List α} (hu : F.Incomplete u)
    (htu : t <+: u) : F.Incomplete t := by
  obtain ⟨r, rfl⟩ := htu
  by_cases hheader : F.header ≤ t.length
  · right
    rcases hu with h | h
    · rw [List.length_append] at h
      omega
    · rw [F.size_append t r hheader, List.length_append] at h
      omega
  · exact Or.inl (Nat.lt_of_not_le hheader)

theorem IsFrame.incomplete_of_prefix {f t : List α} (hf : F.IsFrame f)
    (htf : t <+: f) (hlt : t.length < f.length) : F.Incomplete t := by
  obtain ⟨r, rfl⟩ := htf
  by_cases hheader : F.header ≤ t.length
  · right
    rw [← F.size_append t r hheader, hf.2]
    exact hlt
  · exact Or.inl (Nat.lt_of_not_le hheader)

/-- The announced number of symbols is a frame if it covers the header. -/
theorem isFrame_take {xs : List α} (hcover : F.header ≤ F.size xs)
    (hfits : F.size xs ≤ xs.length) : F.IsFrame (xs.take (F.size xs)) := by
  have htake : (xs.take (F.size xs)).length = F.size xs := by
    rw [List.length_take, Nat.min_eq_left hfits]
  have hheader : F.header ≤ (xs.take (F.size xs)).length := by
    rw [htake]
    exact hcover
  refine ⟨hheader, ?_⟩
  rw [htake, ← F.size_append _ (xs.drop (F.size xs)) hheader, List.take_append_drop]

theorem dvd_length_flatten {n : ℕ} {fs : List (List α)} (h : ∀ f ∈ fs, n ∣ f.length) :
    n ∣ fs.flatten.length := by
  induction fs with
  | nil => exact Nat.dvd_zero n
  | cons f fs ih =>
      rw [List.flatten_cons, List.length_append]
      exact Nat.dvd_add (h f (by simp)) (ih fun g hg => h g (by simp [hg]))

/-! ## The walk and the frames -/

theorem Follows.append {xs ys : List α} (h : F.Follows xs ys) (r : List α) :
    F.Follows (xs ++ r) (ys ++ r) := by
  obtain ⟨hheader, hsize, rfl⟩ := h
  have happend := F.size_append xs r hheader
  refine ⟨?_, ?_, ?_⟩
  · rw [List.length_append]
    omega
  · rw [happend, List.length_append]
    omega
  · rw [happend, List.drop_append_of_le_length hsize]

theorem Reached.append {xs ys : List α} (h : F.Reached xs ys) (r : List α) :
    F.Reached (xs ++ r) (ys ++ r) := by
  induction h with
  | refl => exact .refl
  | tail _ hstep ih => exact ih.tail (hstep.append r)

theorem reached_flatten {fs : List (List α)} (hfs : ∀ f ∈ fs, F.IsFrame f)
    (r : List α) : F.Reached (fs.flatten ++ r) r := by
  induction fs with
  | nil => exact .refl
  | cons f fs ih =>
      rw [List.flatten_cons, List.append_assoc]
      exact .head ((hfs f (by simp)).follows _)
        (ih fun g hg => hfs g (by simp [hg]))

/-- Over whole frames followed by an incomplete one, the walk meets exactly the
frame boundaries. -/
theorem exists_of_reached_flatten {fs : List (List α)} {t c : List α}
    (hfs : ∀ f ∈ fs, F.IsFrame f) (ht : F.Incomplete t)
    (hc : F.Reached (fs.flatten ++ t) c) :
    ∃ gs hs, fs = gs ++ hs ∧ c = hs.flatten ++ t := by
  induction hc with
  | refl => exact ⟨[], fs, rfl, rfl⟩
  | tail _ hstep ih =>
      obtain ⟨gs, hs, rfl, rfl⟩ := ih
      cases hs with
      | nil => exact absurd hstep ht.not_follows
      | cons f hs =>
          have hf := hfs f (by simp)
          obtain ⟨-, -, rfl⟩ := hstep
          refine ⟨gs ++ [f], hs, by simp, ?_⟩
          rw [List.flatten_cons, List.append_assoc, hf.size_append, List.drop_left]

/-- Over whole frames followed by an incomplete one, every size met covers the
header. -/
theorem header_le_size_of_reached {fs : List (List α)} {t c : List α}
    (hfs : ∀ f ∈ fs, F.IsFrame f) (ht : F.Incomplete t) (hc : F.Reached (fs.flatten ++ t) c)
    (hheader : F.header ≤ c.length) : F.header ≤ F.size c := by
  obtain ⟨gs, hs, rfl, rfl⟩ := exists_of_reached_flatten hfs ht hc
  cases hs with
  | nil =>
      rcases ht with hshort | hcut
      · exact absurd hheader (Nat.not_le.mpr hshort)
      · exact hheader.trans (Nat.le_of_lt hcut)
  | cons f hs =>
      have hf := hfs f (by simp)
      rw [List.flatten_cons, List.append_assoc, hf.size_append]
      exact hf.1

/-- If every size met on the walk covers the header, the string is tiled by
whole frames up to an incomplete one. -/
theorem exists_frames_of_reached {xs : List α}
    (hsize : ∀ c, F.Reached xs c → F.header ≤ c.length → F.header ≤ F.size c) :
    ∃ (fs : List (List α)) (t : List α),
      (∀ f ∈ fs, F.IsFrame f) ∧ F.Incomplete t ∧ xs = fs.flatten ++ t := by
  induction hn : xs.length using Nat.strongRecOn generalizing xs with
  | ind n ih =>
      rcases F.incomplete_or_follows xs with hinc | hstep
      · exact ⟨[], xs, by simp, hinc, rfl⟩
      · have hheader := hstep.1
        have hfits := hstep.2.1
        have hcover := hsize xs .refl hheader
        have hpos := F.header_pos
        obtain ⟨fs, t, hfs, ht, hdrop⟩ := ih (xs.drop (F.size xs)).length
          (by rw [List.length_drop]; omega)
          (fun c hc => hsize c (.head hstep hc)) rfl
        refine ⟨xs.take (F.size xs) :: fs, t, ?_, ht, ?_⟩
        · intro f hf
          rcases List.mem_cons.mp hf with rfl | hf
          · exact isFrame_take hcover hfits
          · exact hfs f hf
        · rw [List.flatten_cons, List.append_assoc, ← hdrop, List.take_append_drop]

/-- Where no further frame begins, whole frames at the beginning are the first of
the frames that tile the string. -/
theorem isPrefix_of_flatten_eq {fs gs : List (List α)} {t r : List α}
    (hfs : ∀ f ∈ fs, F.IsFrame f) (hgs : ∀ g ∈ gs, F.IsFrame g) (ht : F.NoFrame t)
    (h : fs.flatten ++ t = gs.flatten ++ r) : gs <+: fs := by
  induction gs generalizing fs with
  | nil => exact List.nil_prefix
  | cons g gs ih =>
      have hg := hgs g (by simp)
      rw [List.flatten_cons, List.append_assoc] at h
      cases fs with
      | nil =>
          rw [List.flatten_nil, List.nil_append] at h
          exact absurd ⟨_, h.symm⟩ (ht g hg)
      | cons f fs =>
          rw [List.flatten_cons, List.append_assoc] at h
          have hlength : f.length = g.length := by
            rw [← (hfs f (by simp)).size_append (fs.flatten ++ t), h, hg.size_append]
          obtain ⟨rfl, hrest⟩ := List.append_inj h hlength
          rw [List.prefix_cons_inj]
          exact ih (fun f hf => hfs f (by simp [hf])) (fun g hg => hgs g (by simp [hg])) hrest

/-- Whole frames at the beginning are the first of the frames that tile the
string. -/
theorem exists_eq_append {fs gs : List (List α)} {t r : List α}
    (hfs : ∀ f ∈ fs, F.IsFrame f) (hgs : ∀ g ∈ gs, F.IsFrame g) (ht : F.Incomplete t)
    (h : fs.flatten ++ t = gs.flatten ++ r) : ∃ hs, fs = gs ++ hs ∧ r = hs.flatten ++ t := by
  obtain ⟨hs, rfl⟩ := isPrefix_of_flatten_eq hfs hgs ht.noFrame h
  refine ⟨hs, rfl, ?_⟩
  rw [List.flatten_append, List.append_assoc] at h
  exact (List.append_cancel_left h).symm

/-- Cutting a sequence of whole frames, followed by an incomplete one, at any
symbol leaves whole frames and an incomplete one on the left. -/
theorem exists_cut {fs : List (List α)} {u b r : List α}
    (hfs : ∀ f ∈ fs, F.IsFrame f) (hu : F.Incomplete u)
    (h : b ++ r = fs.flatten ++ u) :
    ∃ gs hs t, fs = gs ++ hs ∧ b = gs.flatten ++ t ∧ F.Incomplete t ∧
      t ++ r = hs.flatten ++ u := by
  induction fs generalizing b with
  | nil =>
      have hprefix : b <+: u := ⟨r, by simpa using h⟩
      exact ⟨[], [], b, rfl, rfl, hu.of_isPrefix hprefix, h⟩
  | cons f fs ih =>
      have hf := hfs f (by simp)
      rw [List.flatten_cons, List.append_assoc] at h
      rcases List.append_eq_append_iff.mp h with ⟨s, rfl, hr⟩ | ⟨s, rfl, hs⟩
      · -- The cut falls inside the first frame or right behind it.
        by_cases hnil : s = []
        · subst hnil
          refine ⟨[b], fs, [], by simp, by simp, incomplete_nil, ?_⟩
          simpa using hr
        · refine ⟨[], (b ++ s) :: fs, b, rfl, rfl, ?_, by simp [hr]⟩
          exact hf.incomplete_of_prefix (List.prefix_append b s)
            (by simpa using List.length_pos_of_ne_nil hnil)
      · obtain ⟨gs, hs', t, rfl, rfl, ht, hrest⟩ :=
          ih (fun g hg => hfs g (by simp [hg])) hs.symm
        exact ⟨f :: gs, hs', t, rfl, by simp, ht, hrest⟩

end Framing
