import Waylander.Sstd.UniqueHandle

/-!
# The lifetime of the base

The base subobjects of the handles, when the user calls no destructor.  Move
assignment destroys the base of its left-hand side by the explicit destructor
call, assigns to it afterwards, and leaves it to be destroyed again at the end of
the handle's lifetime.
-/

namespace Waylander

open Ownership

def Operation.IsDestructor {ι : Type} : Operation ι → Prop
  | .destructor _ _ _ => True
  | _ => False

def Operation.IsMoveAssign {ι : Type} : Operation ι → Prop
  | .moveAssign _ _ _ _ _ => True
  | _ => False

namespace Handles

variable {ι : Type} {s s' : Handles ι} {h rhs : ι} {x y : UniqueHandle}

/-- No base is destroyed twice, the move assignment of `T` is applied to living
bases only, and when no handle is left every base has been destroyed exactly
once. -/
def RespectsBases (s : Handles ι) : Prop :=
  (∀ b, releases b s.bases ≤ 1) ∧
  (∀ past h b future, s.bases = past ++ .used h b :: future → owner past b = some h) ∧
  ((∀ h, s.handle h = none) → ∀ h b, .adopted h b ∈ s.bases → releases b s.bases = 1)

/-- The base of the handle. -/
def HasBase (handle : ι → Option UniqueHandle) (h : ι) (b : ℕ) : Prop :=
  ∃ x, handle h = some x ∧ x.base = b

/-- Every handle's base is alive, and the next base is a new one. -/
structure OwnsBases (s : Handles ι) : Prop where
  keeps : Keeps s.bases (HasBase s.handle)
  fresh : ∀ h b, .adopted h b ∈ s.bases → b < s.nextBase

/-- A base that was destroyed has been assigned to. -/
def AssignsDead (s : Handles ι) : Prop :=
  ∃ past h b future, s.bases = past ++ [.released h b] ++ .used h b :: future

theorem hasBase_iff {handle : ι → Option UniqueHandle} {h : ι} {x : UniqueHandle}
    (hx : handle h = some x) (b : ℕ) : HasBase handle h b ↔ x.base = b := by
  simp [HasBase, hx]

theorem not_hasBase_of_none (hnone : s.handle h = none) (b : ℕ) : ¬HasBase s.handle h b := by
  rintro ⟨x, hx, -⟩
  rw [hnone] at hx
  cases hx

/-- A new handle has a new base. -/
theorem OwnsBases.adopt (hs : OwnsBases s) (hnew : s.handle h = none) :
    Keeps (s.bases ++ [.adopted h s.nextBase]) fun h' b =>
      (h' = h ∧ s.nextBase = b) ∨ (h' ≠ h ∧ HasBase s.handle h' b) :=
  hs.keeps.adopt (fun h' hmem => Nat.lt_irrefl _ (hs.fresh h' _ hmem))
    (not_hasBase_of_none hnew)

theorem ownsBases_empty : OwnsBases ({} : Handles ι) where
  keeps := keeps_nil.congr (by simp [HasBase])
  fresh := by simp

theorem OwnsBases.respectsBases (hs : OwnsBases s) : RespectsBases s := by
  refine ⟨hs.keeps.legal.releases_le_one, ?_, ?_⟩
  · intro past h' b future hbases
    exact hs.keeps.legal past _ future hbases
  · intro hnone h' b hadopted
    exact hs.keeps.releases_eq_one (fun h'' => not_hasBase_of_none (hnone h'')) hadopted

theorem AssignsDead.not_respectsBases (hs : AssignsDead s) : ¬RespectsBases s := by
  obtain ⟨past, h, b, future, hbases⟩ := hs
  intro hrespects
  have howner := hrespects.2.1 _ h b future hbases
  rw [owner_append, Event.pass, Function.update_self] at howner
  cases howner

theorem AssignsDead.of_isPrefix (hs : AssignsDead s) (hbases : s.bases <+: s'.bases) :
    AssignsDead s' := by
  obtain ⟨past, h, b, future, hs⟩ := hs
  obtain ⟨later, hlater⟩ := hbases
  exact ⟨past, h, b, future ++ later, by rw [← hlater, hs]; simp⟩

section Steps

variable [DecidableEq ι]

/-! ## Without move assignment -/

theorem hasBase_update (handle : ι → Option UniqueHandle) (h : ι) (o : Option UniqueHandle)
    (h' : ι) (b : ℕ) :
    HasBase (Function.update handle h o) h' b ↔
      (h' = h ∧ ∃ x, o = some x ∧ x.base = b) ∨ (h' ≠ h ∧ HasBase handle h' b) := by
  by_cases hh : h' = h
  · subst hh
    simp [HasBase]
  · simp [HasBase, hh]

theorem OwnsBases.construct (hs : OwnsBases s) (hnew : s.handle h = none) :
    OwnsBases (s.construct h) where
  keeps := by
    refine (hs.adopt hnew).congr fun h' b => ?_
    simp [Handles.construct, hasBase_update]
  fresh := fun _ _ hmem => adopted_lt_succ hs.fresh hmem

theorem OwnsBases.moveConstruct (hs : OwnsBases s) (hnew : s.handle h = none)
    (hy : s.handle rhs = some y) (left : ℕ) : OwnsBases (s.moveConstruct h rhs y left) where
  keeps := by
    refine (hs.adopt hnew).congr fun h' b => ?_
    have hsource :
        HasBase (Function.update s.handle rhs (some ⟨false, y.alive, left, y.base⟩)) h' b ↔
          HasBase s.handle h' b := by
      rw [hasBase_update]
      by_cases hh : h' = rhs
      · subst hh
        simp [hasBase_iff hy]
      · simp [hh]
    simp only [Handles.moveConstruct, read, set_handle]
    rw [hasBase_update, hsource]
    simp
  fresh := fun _ _ hmem => adopted_lt_succ hs.fresh hmem

theorem OwnsBases.endOfLifetime (hs : OwnsBases s) (hx : s.handle h = some x)
    (destroyed : ℕ) : OwnsBases (s.endOfLifetime h x destroyed) where
  keeps := by
    simp only [Handles.endOfLifetime, destroy_eq]
    refine (hs.keeps.release ((hasBase_iff hx _).mpr rfl) fun b hb =>
      (hasBase_iff hx b).mp hb).congr fun h' b => ?_
    simp [hasBase_update]
  fresh := by simpa [Handles.endOfLifetime, destroy_eq] using hs.fresh

theorem OwnsBases.step (hs : OwnsBases s) {op : Operation ι} (huser : ¬op.IsDestructor)
    (hmove : ¬op.IsMoveAssign) (h' : s.step op = some s') : OwnsBases s' := by
  cases op with
  | construct h =>
      obtain ⟨hnew, rfl⟩ := step_construct_eq_some_iff.mp h'
      exact hs.construct hnew
  | moveConstruct h rhs left =>
      obtain ⟨y, hnew, hy, rfl⟩ := step_moveConstruct_eq_some_iff.mp h'
      exact hs.moveConstruct hnew hy left
  | moveAssign => exact absurd trivial hmove
  | destructor => exact absurd trivial huser
  | endOfLifetime h destroyed =>
      obtain ⟨x, hx, rfl⟩ := Option.map_eq_some_iff.mp h'
      exact hs.endOfLifetime hx destroyed

/-! ## With move assignment -/

theorem moveAssign_bases {destroyed left : ℕ} {flag : Bool}
    (h' : s.moveAssign h rhs destroyed left flag = some s') :
    ∃ b, s'.bases = s.bases ++ [.released h b] ++ [.used h b] := by
  obtain ⟨x, hx, rfl | ⟨hne, y, hy⟩⟩ := exists_of_moveAssign h'
  · rw [moveAssign_self hx] at h'
    obtain rfl := Option.some.inj h'
    exact ⟨x.base, rfl⟩
  · rw [moveAssign_of_ne hx hy hne] at h'
    obtain rfl := Option.some.inj h'
    exact ⟨x.base, rfl⟩

/-- Nothing that happened to a base is undone. -/
theorem bases_isPrefix_of_step {op : Operation ι} (h' : s.step op = some s') :
    s.bases <+: s'.bases := by
  cases op with
  | construct h =>
      obtain ⟨-, rfl⟩ := step_construct_eq_some_iff.mp h'
      exact List.prefix_append _ _
  | moveConstruct h rhs left =>
      obtain ⟨y, -, -, rfl⟩ := step_moveConstruct_eq_some_iff.mp h'
      exact List.prefix_append _ _
  | moveAssign h rhs destroyed left flag =>
      obtain ⟨b, hb⟩ := moveAssign_bases h'
      rw [hb, List.append_assoc]
      exact List.prefix_append _ _
  | destructor h destroyed flag =>
      obtain ⟨x, -, rfl⟩ := Option.map_eq_some_iff.mp h'
      rw [destroy_eq]
      exact List.prefix_append _ _
  | endOfLifetime h destroyed =>
      obtain ⟨x, -, rfl⟩ := Option.map_eq_some_iff.mp h'
      rw [Handles.endOfLifetime, destroy_eq]
      exact List.prefix_append _ _

theorem assignsDead_of_moveAssign {ops : List (Operation ι)} {s₀ : Handles ι}
    {op : Operation ι} (hop : op ∈ ops) (hmove : op.IsMoveAssign)
    (h : ops.foldlM step s₀ = some s) : AssignsDead s := by
  induction ops generalizing s₀ with
  | nil => cases hop
  | cons first ops ih =>
      rw [List.foldlM_cons, Option.bind_eq_bind, Option.bind_eq_some_iff] at h
      obtain ⟨s₁, hfirst, hrest⟩ := h
      rcases List.mem_cons.mp hop with rfl | hop
      · have hdead : AssignsDead s₁ := by
          cases op with
          | moveAssign h rhs destroyed left flag =>
              obtain ⟨b, hb⟩ := moveAssign_bases hfirst
              exact ⟨s₀.bases, h, b, [], hb⟩
          | construct | moveConstruct | destructor | endOfLifetime => cases hmove
        exact foldlM_step_induction hdead
          (fun _ _ _ _ hs hstep => hs.of_isPrefix (bases_isPrefix_of_step hstep)) hrest
      · exact ih hop hrest

/-- A run without explicit destructor calls respects the lifetimes of the bases
exactly if it makes no move assignment. -/
theorem respectsBases_iff {ops : List (Operation ι)} (h : run ops = some s)
    (huser : ∀ op ∈ ops, ¬op.IsDestructor) :
    RespectsBases s ↔ ∀ op ∈ ops, ¬op.IsMoveAssign := by
  constructor
  · intro hrespects op hop hmove
    exact (assignsDead_of_moveAssign hop hmove h).not_respectsBases hrespects
  · intro hmove
    have hs : OwnsBases s := foldlM_step_induction ownsBases_empty
      (fun op hop _ _ hs hstep => hs.step (huser op hop) (hmove op hop) hstep) h
    exact hs.respectsBases

theorem respectsBases_iff_moved :
    ∃ s, run [.construct 0, .moveConstruct 1 0 0, .endOfLifetime 0 0, .endOfLifetime 1 0] =
        some s ∧
      (RespectsBases s ↔ ∀ op ∈ [Operation.construct 0, .moveConstruct 1 0 0,
        .endOfLifetime 0 0, .endOfLifetime 1 0], ¬op.IsMoveAssign) := by
  obtain ⟨s, hs⟩ : ∃ s, run [.construct 0, .moveConstruct 1 0 0, .endOfLifetime 0 0,
    .endOfLifetime 1 0] = some s := Option.isSome_iff_exists.mp (by decide)
  exact ⟨s, hs, respectsBases_iff hs (by simp [Operation.IsDestructor])⟩

/-- The base of the left-hand side is destroyed twice, and assigned to in between. -/
theorem not_respectsBases_moveAssign :
    ∃ s, run [.construct 0, .construct 1, .moveAssign 0 1 0 0 false, .endOfLifetime 0 0,
        .endOfLifetime 1 0] = some s ∧
      s.bases = [.adopted 0 0, .adopted 1 1, .released 0 0, .used 0 0, .released 0 0,
        .released 1 1] ∧
      releases 0 s.bases = 2 ∧ ¬RespectsBases s := by
  obtain ⟨s, hs⟩ : ∃ s, run [.construct 0, .construct 1, .moveAssign 0 1 0 0 false,
    .endOfLifetime 0 0, .endOfLifetime 1 0] = some s := Option.isSome_iff_exists.mp (by decide)
  have hbases : s.bases = [.adopted 0 0, .adopted 1 1, .released 0 0, .used 0 0,
      .released 0 0, .released 1 1] := by
    have hrun : (run [.construct 0, .construct 1, .moveAssign 0 1 0 0 false, .endOfLifetime 0 0,
        .endOfLifetime 1 0]).map Handles.bases = some [.adopted 0 0, .adopted 1 1,
          .released 0 0, .used 0 0, .released 0 0, .released 1 1] := by decide
    rw [hs] at hrun
    exact Option.some.inj hrun
  refine ⟨s, hs, hbases, by rw [hbases]; decide, ?_⟩
  intro hrespects
  have htwice : releases 0 s.bases = 2 := by rw [hbases]; decide
  have honce := hrespects.1 0
  omega

end Steps

end Handles

end Waylander
