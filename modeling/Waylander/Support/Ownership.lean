import Mathlib.Data.List.Induction
import Mathlib.Logic.Function.Basic

/-!
# Ownership of resources

A ledger of the events of resources that holders adopt, pass on and release.
The owner of a resource is read off the ledger; a ledger is legal if every event
in it respects the owners right before it.  In a legal ledger a resource is
released at most once, and exactly once when nobody owns it in the end.
-/

namespace Ownership

inductive Event (H R : Type*) where
  | adopted (h : H) (r : R)
  | transferred (h h' : H) (r : R)
  | released (h : H) (r : R)
  /-- The holder loses whatever it held of the resource. -/
  | overwritten (h : H) (r : R)
  /-- The holder operates on the resource. -/
  | used (h : H) (r : R)
  deriving DecidableEq

variable {H R : Type*} [DecidableEq R]

def Event.resource : Event H R → R
  | .adopted _ r => r
  | .transferred _ _ r => r
  | .released _ r => r
  | .overwritten _ r => r
  | .used _ r => r

/-- The owners after an event. -/
def Event.pass (o : R → Option H) : Event H R → R → Option H
  | .adopted h r => Function.update o r (some h)
  | .transferred _ h r => Function.update o r (some h)
  | .released _ r => Function.update o r none
  | .overwritten _ _ => o
  | .used _ _ => o

/-- The owners after the events of a ledger. -/
def owner (ledger : List (Event H R)) : R → Option H :=
  ledger.foldl Event.pass fun _ => none

/-- The event may happen after the ones in `past`. -/
def Event.Allowed (past : List (Event H R)) : Event H R → Prop
  | .adopted _ r => ∀ h, .adopted h r ∉ past
  | .transferred h _ r => owner past r = some h
  | .released h r => owner past r = some h
  | .overwritten h r => owner past r ≠ some h
  | .used h r => owner past r = some h

def Legal (ledger : List (Event H R)) : Prop :=
  ∀ past e future, ledger = past ++ e :: future → e.Allowed past

def Event.isRelease (r : R) : Event H R → Bool
  | .released _ r' => r' = r
  | _ => false

def Event.isAdoption (r : R) : Event H R → Bool
  | .adopted _ r' => r' = r
  | _ => false

/-- How often a resource is released. -/
def releases (r : R) (ledger : List (Event H R)) : ℕ :=
  ledger.countP (Event.isRelease r)

/-- How often a resource is adopted. -/
def adoptions (r : R) (ledger : List (Event H R)) : ℕ :=
  ledger.countP (Event.isAdoption r)

@[simp] theorem owner_append (past : List (Event H R)) (e : Event H R) :
    owner (past ++ [e]) = e.pass (owner past) := by
  simp [owner]

theorem legal_nil : Legal ([] : List (Event H R)) := by
  intro past e future h
  simp at h

theorem legal_append_iff {past : List (Event H R)} {e : Event H R} :
    Legal (past ++ [e]) ↔ Legal past ∧ e.Allowed past := by
  constructor
  · intro h
    refine ⟨?_, h past e [] rfl⟩
    intro past' e' future heq
    exact h past' e' (future ++ [e]) (by simp [heq])
  · rintro ⟨hpast, he⟩ past' e' future heq
    cases future using List.reverseRecOn with
    | nil =>
        obtain ⟨rfl, hlast⟩ := List.append_inj' heq rfl
        obtain rfl := List.head_eq_of_cons_eq hlast
        exact he
    | append_singleton future last =>
        rw [← List.cons_append, ← List.append_assoc] at heq
        exact hpast past' e' future (List.append_inj' heq rfl).1

theorem adoptions_eq_zero_iff {r : R} {ledger : List (Event H R)} :
    adoptions r ledger = 0 ↔ ∀ h, .adopted h r ∉ ledger := by
  rw [adoptions, List.countP_eq_zero]
  constructor
  · intro h h' hmem
    exact h _ hmem (by simp [Event.isAdoption])
  · intro h e hmem hadoption
    cases e with
    | adopted h' r' =>
        obtain rfl : r' = r := of_decide_eq_true hadoption
        exact h h' hmem
    | transferred | released | overwritten | used => cases hadoption

theorem Event.pass_of_ne {e : Event H R} {r : R} (h : e.resource ≠ r) (o : R → Option H) :
    e.pass o r = o r := by
  cases e with
  | adopted h' r' => exact Function.update_of_ne (Ne.symm h) _ _
  | transferred h' h'' r' => exact Function.update_of_ne (Ne.symm h) _ _
  | released h' r' => exact Function.update_of_ne (Ne.symm h) _ _
  | overwritten | used => rfl

theorem releases_append_of_ne {e : Event H R} {r : R} (h : e.resource ≠ r)
    (past : List (Event H R)) : releases r (past ++ [e]) = releases r past := by
  cases e with
  | released h' r' => simp [releases, Event.isRelease, show r' ≠ r from h]
  | adopted | transferred | overwritten | used => simp [releases, Event.isRelease]

theorem adoptions_append_of_ne {e : Event H R} {r : R} (h : e.resource ≠ r)
    (past : List (Event H R)) : adoptions r (past ++ [e]) = adoptions r past := by
  cases e with
  | adopted h' r' => simp [adoptions, Event.isAdoption, show r' ≠ r from h]
  | released | transferred | overwritten | used => simp [adoptions, Event.isAdoption]

/-- Each adoption of a resource is either released by now or owned by now, and
there is at most one. -/
theorem Legal.releases_add {ledger : List (Event H R)} (h : Legal ledger) (r : R) :
    releases r ledger + (owner ledger r).toList.length = adoptions r ledger ∧
      adoptions r ledger ≤ 1 := by
  induction ledger using List.reverseRecOn with
  | nil => simp [releases, adoptions, owner]
  | append_singleton past e ih =>
      obtain ⟨hpast, he⟩ := legal_append_iff.mp h
      obtain ⟨hsum, hle⟩ := ih hpast
      by_cases hr : e.resource = r
      · simp only [releases, adoptions] at hsum hle
        simp only [releases, adoptions, owner_append, List.countP_append, List.countP_singleton]
        cases e with
        | adopted h' r' =>
            obtain rfl : r' = r := hr
            have hzero : past.countP (Event.isAdoption r') = 0 := adoptions_eq_zero_iff.mpr he
            have hnone : past.countP (Event.isRelease r') = 0 := by omega
            simp [hzero, hnone, Event.isRelease, Event.isAdoption, Event.pass]
        | transferred h' h'' r' =>
            obtain rfl : r' = r := hr
            rw [show owner past r' = some h' from he] at hsum
            simpa [Event.isRelease, Event.isAdoption, Event.pass] using ⟨hsum, hle⟩
        | released h' r' =>
            obtain rfl : r' = r := hr
            rw [show owner past r' = some h' from he] at hsum
            simpa [Event.isRelease, Event.isAdoption, Event.pass] using ⟨hsum, hle⟩
        | overwritten h' r' =>
            simpa [Event.isRelease, Event.isAdoption, Event.pass] using ⟨hsum, hle⟩
        | used h' r' =>
            simpa [Event.isRelease, Event.isAdoption, Event.pass] using ⟨hsum, hle⟩
      · rw [releases_append_of_ne hr, adoptions_append_of_ne hr, owner_append,
          Event.pass_of_ne hr]
        exact ⟨hsum, hle⟩

/-- No resource is released twice. -/
theorem Legal.releases_le_one {ledger : List (Event H R)} (h : Legal ledger) (r : R) :
    releases r ledger ≤ 1 := by
  obtain ⟨hsum, hle⟩ := h.releases_add r
  omega

/-- A resource that nobody owns any more has been released once. -/
theorem Legal.releases_eq_one {ledger : List (Event H R)} (h : Legal ledger) {r : R}
    (hnone : owner ledger r = none) {h' : H} (hadopted : .adopted h' r ∈ ledger) :
    releases r ledger = 1 := by
  obtain ⟨hsum, hle⟩ := h.releases_add r
  have hne : adoptions r ledger ≠ 0 := fun hzero => adoptions_eq_zero_iff.mp hzero h' hadopted
  rw [hnone, Option.toList_none, List.length_nil] at hsum
  omega

/-! ## Who holds what -/

/-- The ledger is legal, and by it the holders own just what they hold. -/
structure Keeps (ledger : List (Event H R)) (holds : H → R → Prop) : Prop where
  legal : Legal ledger
  owner_iff : ∀ h r, owner ledger r = some h ↔ holds h r

variable {ledger : List (Event H R)} {holds : H → R → Prop}

theorem keeps_nil : Keeps ([] : List (Event H R)) fun _ _ => False where
  legal := legal_nil
  owner_iff := by simp [owner]

theorem Keeps.congr (hk : Keeps ledger holds) {holds' : H → R → Prop}
    (h : ∀ h r, holds h r ↔ holds' h r) : Keeps ledger holds' where
  legal := hk.legal
  owner_iff := fun h' r => (hk.owner_iff h' r).trans (h h' r)

/-- No two holders hold the same. -/
theorem Keeps.unique (hk : Keeps ledger holds) {h h' : H} {r : R} (hh : holds h r)
    (hh' : holds h' r) : h = h' :=
  Option.some.inj (((hk.owner_iff h r).mpr hh).symm.trans ((hk.owner_iff h' r).mpr hh'))

theorem Keeps.adopt (hk : Keeps ledger holds) {h : H} {r : R}
    (hr : ∀ h, .adopted h r ∉ ledger) (hnothing : ∀ r, ¬holds h r) :
    Keeps (ledger ++ [.adopted h r]) fun h' r' =>
      (h' = h ∧ r = r') ∨ (h' ≠ h ∧ holds h' r') where
  legal := legal_append_iff.mpr ⟨hk.legal, hr⟩
  owner_iff := by
    intro h' r'
    have hnone : owner ledger r = none := by
      obtain ⟨hsum, -⟩ := hk.legal.releases_add r
      rw [adoptions_eq_zero_iff.mpr hr] at hsum
      simpa using Nat.eq_zero_of_add_eq_zero_left hsum
    have hother : holds h' r' → h' ≠ h := by
      rintro hh rfl
      exact hnothing r' hh
    rw [owner_append, Event.pass, and_iff_right_of_imp hother, ← hk.owner_iff]
    by_cases hr' : r' = r
    · subst hr'
      simp [hnone, eq_comm]
    · simp [hr', Ne.symm hr']

/-- A holder of one resource passes it on to a holder of nothing. -/
theorem Keeps.transfer (hk : Keeps ledger holds) {h h' : H} {r : R} (hh : holds h r)
    (honly : ∀ r', holds h r' → r = r') (hnothing : ∀ r, ¬holds h' r) :
    Keeps (ledger ++ [.transferred h h' r]) fun h'' r' =>
      (h'' = h' ∧ r = r') ∨ (h'' ≠ h' ∧ h'' ≠ h ∧ holds h'' r') where
  legal := legal_append_iff.mpr ⟨hk.legal, (hk.owner_iff h r).mpr hh⟩
  owner_iff := by
    intro h'' r'
    have hother : h'' ≠ h ∧ holds h'' r' → h'' ≠ h' := by
      rintro ⟨-, hh'⟩ rfl
      exact hnothing r' hh'
    rw [owner_append, Event.pass, and_iff_right_of_imp hother]
    by_cases hr' : r' = r
    · subst hr'
      have hno : ¬(h'' ≠ h ∧ holds h'' r') := fun hh' => hh'.1 (hk.unique hh'.2 hh)
      rw [or_iff_left hno]
      simp [eq_comm]
    · have hne : holds h'' r' → h'' ≠ h := by
        rintro hh' rfl
        exact hr' (honly r' hh').symm
      simp [hr', Ne.symm hr', hk.owner_iff, and_iff_right_of_imp hne]

/-- A holder of one resource releases it. -/
theorem Keeps.release (hk : Keeps ledger holds) {h : H} {r : R} (hh : holds h r)
    (honly : ∀ r', holds h r' → r = r') :
    Keeps (ledger ++ [.released h r]) fun h' r' => h' ≠ h ∧ holds h' r' where
  legal := legal_append_iff.mpr ⟨hk.legal, (hk.owner_iff h r).mpr hh⟩
  owner_iff := by
    intro h' r'
    rw [owner_append, Event.pass]
    by_cases hr' : r' = r
    · subst hr'
      have hno : ¬(h' ≠ h ∧ holds h' r') := fun hh' => hh'.1 (hk.unique hh'.2 hh)
      simp [hno]
    · have hne : holds h' r' → h' ≠ h := by
        rintro hh' rfl
        exact hr' (honly r' hh').symm
      simp [hr', hk.owner_iff, and_iff_right_of_imp hne]

theorem Keeps.overwrite (hk : Keeps ledger holds) {h : H} {r : R} (hh : ¬holds h r) :
    Keeps (ledger ++ [.overwritten h r]) holds where
  legal := legal_append_iff.mpr ⟨hk.legal, fun howner => hh ((hk.owner_iff h r).mp howner)⟩
  owner_iff := by
    intro h' r'
    rw [owner_append, Event.pass, hk.owner_iff]

/-- When nothing is held any more, each adopted resource has been released once. -/
theorem Keeps.releases_eq_one (hk : Keeps ledger holds) (hnone : ∀ h r, ¬holds h r) {h : H}
    {r : R} (hadopted : .adopted h r ∈ ledger) : releases r ledger = 1 := by
  have howner : owner ledger r = none := by
    rw [Option.eq_none_iff_forall_ne_some]
    exact fun h' howner => hnone h' r ((hk.owner_iff h' r).mp howner)
  exact hk.legal.releases_eq_one howner hadopted

end Ownership
