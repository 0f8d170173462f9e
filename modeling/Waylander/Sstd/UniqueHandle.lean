import Mathlib.Control.Basic
import Waylander.Support.Ownership

/-!
# `unique_handle`

The operations on any number of `unique_handle<T, Releaser>` objects, with two
ledgers: one of the resources that the bases hold, one of the base subobjects
themselves.  A resource is known by the number of the construction that adopted
it, a base subobject by the number of its construction.  What the base holds
after it was moved from or destroyed is up to `T`, so an operation may leave
any value there.

The destructor ends the lifetime of the handle, its flag included: the compiler
need not keep what the destructor stored in it.  An operation that runs the
destructor may therefore leave any value in the flag, and reading a flag that no
store has reached since is undefined behaviour.  The stores of move assignment
behind its own destructor call are taken to be kept.
-/

namespace Waylander

open Ownership

structure UniqueHandle where
  active : Bool
  /-- Cleared by the destructor, and set when the flag is written behind it. -/
  alive : Bool
  /-- What the base holds. -/
  resource : ℕ
  /-- The base subobject. -/
  base : ℕ
  deriving DecidableEq

structure Handles (ι : Type) where
  handle : ι → Option UniqueHandle := fun _ => none
  nextResource : ℕ := 0
  nextBase : ℕ := 0
  /-- Resources are released by calls of `Releaser`, and overwritten when the base
  that held them is destroyed, moved from or assigned to. -/
  ledger : List (Event ι ℕ) := []
  /-- Base subobjects are adopted by their construction, released by the
  destructor of `T` and used by the move assignment of `T`. -/
  bases : List (Event ι ℕ) := []
  /-- The flag of a destroyed handle was read, and nothing is promised any more. -/
  undefined : Bool := false

/-- What is left in the base and in the flag is given with the operation. -/
inductive Operation (ι : Type) where
  | construct (h : ι)
  | moveConstruct (h rhs : ι) (left : ℕ)
  | moveAssign (h rhs : ι) (destroyed left : ℕ) (flag : Bool)
  | destructor (h : ι) (destroyed : ℕ) (flag : Bool)
  | endOfLifetime (h : ι) (destroyed : ℕ)

namespace Handles

variable {ι : Type}

section Operations

variable [DecidableEq ι]

def set (s : Handles ι) (h : ι) (x : UniqueHandle) : Handles ι :=
  { s with handle := Function.update s.handle h (some x) }

/-- `unique_handle(T&&)` -/
def construct (s : Handles ι) (h : ι) : Handles ι :=
  { s with
    handle := Function.update s.handle h (some ⟨true, true, s.nextResource, s.nextBase⟩)
    nextResource := s.nextResource + 1
    nextBase := s.nextBase + 1
    ledger := s.ledger ++ [.adopted h s.nextResource]
    bases := s.bases ++ [.adopted h s.nextBase] }

/-- The flag of the handle is read. -/
def read (s : Handles ι) (x : UniqueHandle) : Handles ι :=
  { s with undefined := s.undefined || !x.alive }

/-- The call of `Releaser` in the destructor. -/
def release (s : Handles ι) (h : ι) (x : UniqueHandle) : Handles ι :=
  if x.active then
    { s.set h { x with active := false } with
      ledger := s.ledger ++ [.released h x.resource] }
  else s

/-- `~unique_handle`, and then the destructor of `T` for the base. -/
def destroy (s : Handles ι) (h : ι) (x : UniqueHandle) (destroyed : ℕ) (flag : Bool) :
    Handles ι :=
  let s := (s.read x).release h x
  { s.set h ⟨flag, false, destroyed, x.base⟩ with
    ledger := s.ledger ++ [.overwritten h x.resource]
    bases := s.bases ++ [.released h x.base] }

/-- `T` takes what the base of `rhs` holds, for the handle `h`. -/
def passOn (ledger : List (Event ι ℕ)) (h rhs : ι) (active : Bool) (resource : ℕ) :
    List (Event ι ℕ) :=
  (if active then ledger ++ [.transferred rhs h resource] else ledger) ++
    [.overwritten rhs resource]

/-- `unique_handle(unique_handle&&)`, where `y` is `rhs`. -/
def moveConstruct (s : Handles ι) (h rhs : ι) (y : UniqueHandle) (left : ℕ) : Handles ι :=
  let s := s.read y
  { (s.set rhs { y with active := false, resource := left }).set h
      ⟨y.active, true, y.resource, s.nextBase⟩ with
    nextBase := s.nextBase + 1
    ledger := passOn s.ledger h rhs y.active y.resource
    bases := s.bases ++ [.adopted h s.nextBase] }

/-- `operator=(unique_handle&&)` -/
def moveAssign (s : Handles ι) (h rhs : ι) (destroyed left : ℕ) (flag : Bool) :
    Option (Handles ι) := do
  let x ← s.handle h
  let s := s.destroy h x destroyed flag
  -- active_ = std::exchange(rhs.active_, false);
  let y ← s.handle rhs
  let s := (s.read y).set rhs { y with active := false }
  let x ← s.handle h
  let s := s.set h { x with active := y.active, alive := true }
  -- this->T::operator=(static_cast<T&&>(rhs));
  let x ← s.handle h
  let s := s.set h { x with resource := y.resource }
  let z ← s.handle rhs
  let s := s.set rhs { z with resource := left }
  return { s with
    ledger := passOn (s.ledger ++ [.overwritten h x.resource]) h rhs y.active y.resource
    bases := s.bases ++ [.used h x.base] }

/-- The destructor runs and the storage of the handle is given back. -/
def endOfLifetime (s : Handles ι) (h : ι) (x : UniqueHandle) (destroyed : ℕ) : Handles ι :=
  let s := s.destroy h x destroyed x.active
  { s with handle := Function.update s.handle h none }

/-- A step that needs a handle that is not there, or a place that is not free, is
no step. -/
def step (s : Handles ι) : Operation ι → Option (Handles ι)
  | .construct h =>
      match s.handle h with
      | none => some (s.construct h)
      | some _ => none
  | .moveConstruct h rhs left =>
      match s.handle h, s.handle rhs with
      | none, some y => some (s.moveConstruct h rhs y left)
      | _, _ => none
  | .moveAssign h rhs destroyed left flag => s.moveAssign h rhs destroyed left flag
  | .destructor h destroyed flag => (s.handle h).map fun x => s.destroy h x destroyed flag
  | .endOfLifetime h destroyed => (s.handle h).map fun x => s.endOfLifetime h x destroyed

/-- Any number of operations, from no handles at all. -/
def run (ops : List (Operation ι)) : Option (Handles ι) :=
  ops.foldlM step {}

/-! ## What each function leaves -/

@[simp] theorem set_handle (s : Handles ι) (h : ι) (x : UniqueHandle) :
    (s.set h x).handle = Function.update s.handle h (some x) := rfl

@[simp] theorem set_nextResource (s : Handles ι) (h : ι) (x : UniqueHandle) :
    (s.set h x).nextResource = s.nextResource := rfl

@[simp] theorem set_nextBase (s : Handles ι) (h : ι) (x : UniqueHandle) :
    (s.set h x).nextBase = s.nextBase := rfl

@[simp] theorem set_ledger (s : Handles ι) (h : ι) (x : UniqueHandle) :
    (s.set h x).ledger = s.ledger := rfl

@[simp] theorem set_bases (s : Handles ι) (h : ι) (x : UniqueHandle) :
    (s.set h x).bases = s.bases := rfl

@[simp] theorem set_undefined (s : Handles ι) (h : ι) (x : UniqueHandle) :
    (s.set h x).undefined = s.undefined := rfl

/-- What the destructor leaves, the flag and the base as they are left. -/
theorem destroy_eq (s : Handles ι) (h : ι) (x : UniqueHandle) (destroyed : ℕ) (flag : Bool) :
    s.destroy h x destroyed flag =
      { s with
        handle := Function.update s.handle h (some ⟨flag, false, destroyed, x.base⟩)
        ledger := (if x.active then s.ledger ++ [.released h x.resource] else s.ledger) ++
          [.overwritten h x.resource]
        bases := s.bases ++ [.released h x.base]
        undefined := s.undefined || !x.alive } := by
  rw [destroy, release]
  split <;> simp [read, set]

/-- What move assignment from another handle leaves. -/
theorem moveAssign_of_ne {s : Handles ι} {h rhs : ι} {x y : UniqueHandle}
    (hx : s.handle h = some x) (hy : s.handle rhs = some y) (hne : h ≠ rhs)
    (destroyed left : ℕ) (flag : Bool) :
    s.moveAssign h rhs destroyed left flag =
      some
        { handle := Function.update
            (Function.update s.handle rhs (some ⟨false, y.alive, left, y.base⟩)) h
            (some ⟨y.active, true, y.resource, x.base⟩)
          nextResource := s.nextResource
          nextBase := s.nextBase
          ledger := passOn ((s.destroy h x destroyed flag).ledger ++ [.overwritten h destroyed])
            h rhs y.active y.resource
          bases := s.bases ++ [.released h x.base] ++ [.used h x.base]
          undefined := s.undefined || !x.alive || !y.alive } := by
  have hcomm : ∀ (f : ι → Option UniqueHandle) (A B : Option UniqueHandle),
      Function.update (Function.update f h A) rhs B =
        Function.update (Function.update f rhs B) h A :=
    fun f A B => Function.update_comm hne A B f
  simp [moveAssign, destroy_eq, read, hx, hy, Ne.symm hne, bind, Option.bind, pure, hcomm]

/-- Move assignment from the handle itself reads the flag behind the destructor. -/
theorem moveAssign_self {s : Handles ι} {h : ι} {x : UniqueHandle} (hx : s.handle h = some x)
    (destroyed left : ℕ) (flag : Bool) :
    s.moveAssign h h destroyed left flag =
      some
        { handle := Function.update s.handle h (some ⟨flag, true, left, x.base⟩)
          nextResource := s.nextResource
          nextBase := s.nextBase
          ledger := passOn ((s.destroy h x destroyed flag).ledger ++ [.overwritten h destroyed])
            h h flag destroyed
          bases := s.bases ++ [.released h x.base] ++ [.used h x.base]
          undefined := true } := by
  simp [moveAssign, destroy_eq, read, hx, bind, Option.bind, pure]

end Operations

/-! ## Lifetimes -/

/-- The destructor of the handle has run, and nothing was written to it since. -/
def Dead (handle : ι → Option UniqueHandle) (h : ι) : Prop :=
  ∃ x, handle h = some x ∧ x.alive = false

end Handles

namespace Operation

variable {ι : Type}

/-- The operation is an explicit destructor call on the handle. -/
def Destroys : Operation ι → ι → Prop
  | .destructor h _ _, k => k = h
  | _, _ => False

/-- The operation is a move assignment of a handle to itself. -/
def SelfAssigns : Operation ι → Prop
  | .moveAssign h rhs _ _ _ => h = rhs
  | _ => False

/-- The operation is applied to the handle, which must be there. -/
def Uses : Operation ι → ι → Prop
  | .construct _, _ => False
  | .moveConstruct _ rhs _, k => k = rhs
  | .moveAssign h rhs _ _ _, k => k = h ∨ k = rhs
  | .destructor h _ _, k => k = h
  | .endOfLifetime h _, k => k = h

end Operation

/-- No handle is move-assigned to itself, and after an explicit destructor call
none is used any more, by the end of its lifetime included. -/
def KeepsLifetimes {ι : Type} (ops : List (Operation ι)) : Prop :=
  (∀ op ∈ ops, ¬op.SelfAssigns) ∧
    ops.Pairwise fun op op' => ∀ h, op.Destroys h → ¬op'.Uses h

theorem keepsLifetimes_append_iff {ι : Type} {ops : List (Operation ι)} {op : Operation ι} :
    KeepsLifetimes (ops ++ [op]) ↔
      KeepsLifetimes ops ∧ ¬op.SelfAssigns ∧
        ∀ k, (∃ op₁ ∈ ops, op₁.Destroys k) → ¬op.Uses k := by
  simp only [KeepsLifetimes, List.mem_append, List.mem_singleton, List.pairwise_append,
    List.pairwise_singleton, or_imp, forall_and, forall_eq, true_and]
  constructor
  · rintro ⟨⟨hops, hop⟩, hpairs, huses⟩
    exact ⟨⟨hops, hpairs⟩, hop, fun k ⟨op₁, hmem, hdestroys⟩ => huses op₁ hmem k hdestroys⟩
  · rintro ⟨⟨hops, hpairs⟩, hop, huses⟩
    exact ⟨⟨hops, hop⟩, hpairs, fun op₁ hmem k hdestroys => huses k ⟨op₁, hmem, hdestroys⟩⟩

namespace Handles

variable {ι : Type}

/-! ## Ownership -/

/-- The handle is alive and marked active, and its base holds the resource. -/
def Holds (handle : ι → Option UniqueHandle) (h : ι) (r : ℕ) : Prop :=
  ∃ x, handle h = some x ∧ x.alive = true ∧ x.active = true ∧ x.resource = r

/-- The active handles own, by the ledger, what their bases hold, and the next
resource is a new one. -/
structure Owns (s : Handles ι) : Prop where
  keeps : Keeps s.ledger (Holds s.handle)
  fresh : ∀ h r, .adopted h r ∈ s.ledger → r < s.nextResource

/-- The behaviour is defined, no resource is released twice, a base that is
overwritten, destroyed or moved from holds no resource that its handle still
owns, and when the lifetime of every handle has ended every resource has been
released exactly once. -/
structure ReleasesOnce (s : Handles ι) : Prop where
  defined : s.undefined = false
  once : ∀ r, releases r s.ledger ≤ 1
  lost : ∀ past h r future, s.ledger = past ++ .overwritten h r :: future →
    owner past r ≠ some h
  all : (∀ h x, s.handle h = some x → x.alive = false) →
    ∀ h r, .adopted h r ∈ s.ledger → releases r s.ledger = 1

theorem holds_iff {handle : ι → Option UniqueHandle} {h : ι} {x : UniqueHandle}
    (hx : handle h = some x) (halive : x.alive = true) (r : ℕ) :
    Holds handle h r ↔ x.active = true ∧ x.resource = r := by
  simp [Holds, hx, halive]

theorem dead_iff {handle : ι → Option UniqueHandle} {h : ι} {x : UniqueHandle}
    (hx : handle h = some x) : Dead handle h ↔ x.alive = false := by
  simp [Dead, hx]

variable {s s' : Handles ι} {h rhs : ι} {x y : UniqueHandle}

theorem not_holds_of_none (hnone : s.handle h = none) (r : ℕ) : ¬Holds s.handle h r := by
  rintro ⟨x, hx, -⟩
  rw [hnone] at hx
  cases hx

/-- What an active handle held goes to a handle that held nothing. -/
theorem keeps_passOn {ledger : List (Event ι ℕ)} {holds : ι → ℕ → Prop}
    (hk : Keeps ledger holds) (hne : rhs ≠ h) (hh : ∀ r, ¬holds h r)
    (hrhs : ∀ r, holds rhs r ↔ y.active = true ∧ y.resource = r) :
    Keeps (passOn ledger h rhs y.active y.resource) fun h' r =>
      (h' = h ∧ y.active = true ∧ y.resource = r) ∨ (h' ≠ h ∧ h' ≠ rhs ∧ holds h' r) := by
  have hmoved : Keeps
      (if y.active then ledger ++ [.transferred rhs h y.resource] else ledger) fun h' r =>
        (h' = h ∧ y.active = true ∧ y.resource = r) ∨ (h' ≠ h ∧ h' ≠ rhs ∧ holds h' r) := by
    cases hactive : y.active with
    | true =>
        simpa using hk.transfer ((hrhs _).mpr ⟨hactive, rfl⟩) (fun r hr => ((hrhs r).mp hr).2) hh
    | false =>
        refine hk.congr fun h' r => ?_
        have hkept : holds h' r → h' ≠ h ∧ h' ≠ rhs := by
          intro hr
          constructor
          · rintro rfl
            exact hh r hr
          · rintro rfl
            rw [hrhs, hactive] at hr
            cases hr.1
        simpa using ⟨fun hr => ⟨(hkept hr).1, (hkept hr).2, hr⟩, fun hr => hr.2.2⟩
  exact hmoved.overwrite (by simp [hne])

@[simp] theorem adopted_mem_passOn {ledger : List (Event ι ℕ)} {active : Bool}
    {resource r : ℕ} {h' : ι} :
    .adopted h' r ∈ passOn ledger h rhs active resource ↔ .adopted h' r ∈ ledger := by
  cases active <;> simp [passOn]

/-- A resource that is adopted under a new number leaves the next number new. -/
theorem adopted_lt_succ {ledger : List (Event ι ℕ)} {n : ℕ}
    (hfresh : ∀ h r, .adopted h r ∈ ledger → r < n) {h' : ι} {r : ℕ}
    (hmem : .adopted h' r ∈ ledger ++ [.adopted h n]) : r < n + 1 := by
  rcases List.mem_append.mp hmem with hold | hnew
  · exact Nat.lt_succ_of_lt (hfresh h' r hold)
  · obtain ⟨-, rfl⟩ := Event.adopted.inj (List.mem_singleton.mp hnew)
    exact Nat.lt_succ_self _

theorem owns_empty : Owns ({} : Handles ι) where
  keeps := keeps_nil.congr (by simp [Holds])
  fresh := by simp

section Steps

variable [DecidableEq ι]

theorem holds_update (handle : ι → Option UniqueHandle) (h : ι) (o : Option UniqueHandle)
    (h' : ι) (r : ℕ) :
    Holds (Function.update handle h o) h' r ↔
      (h' = h ∧ ∃ x, o = some x ∧ x.alive = true ∧ x.active = true ∧ x.resource = r) ∨
        (h' ≠ h ∧ Holds handle h' r) := by
  by_cases hh : h' = h
  · subst hh
    simp [Holds]
  · simp [Holds, hh]

theorem dead_update (handle : ι → Option UniqueHandle) (h : ι) (o : Option UniqueHandle)
    (h' : ι) :
    Dead (Function.update handle h o) h' ↔
      (h' = h ∧ ∃ x, o = some x ∧ x.alive = false) ∨ (h' ≠ h ∧ Dead handle h') := by
  by_cases hh : h' = h
  · subst hh
    simp [Dead]
  · simp [Dead, hh]

/-- A destroyed handle has released what it held, and nothing it holds is lost. -/
theorem keeps_destroy (hs : Keeps s.ledger (Holds s.handle)) (hx : s.handle h = some x)
    (halive : x.alive = true) (destroyed : ℕ) (flag : Bool) :
    Keeps (s.destroy h x destroyed flag).ledger fun h' r => h' ≠ h ∧ Holds s.handle h' r := by
  have hrest : Keeps (if x.active then s.ledger ++ [.released h x.resource] else s.ledger)
      fun h' r => h' ≠ h ∧ Holds s.handle h' r := by
    cases hactive : x.active with
    | true =>
        exact hs.release ((holds_iff hx halive _).mpr ⟨hactive, rfl⟩) fun r hr =>
          ((holds_iff hx halive r).mp hr).2
    | false =>
        refine hs.congr fun h' r => (and_iff_right_of_imp ?_).symm
        rintro hr rfl
        rw [holds_iff hx halive, hactive] at hr
        cases hr.1
  rw [destroy_eq]
  exact hrest.overwrite fun hh => hh.1 rfl

@[simp] theorem adopted_mem_destroy {destroyed r : ℕ} {flag : Bool} {h' : ι} :
    .adopted h' r ∈ (s.destroy h x destroyed flag).ledger ↔ .adopted h' r ∈ s.ledger := by
  rw [destroy_eq]
  cases x.active <;> simp

/-! ## The steps -/

theorem exists_of_moveAssign {destroyed left : ℕ} {flag : Bool}
    (h' : s.moveAssign h rhs destroyed left flag = some s') :
    ∃ x, s.handle h = some x ∧ (h = rhs ∨ h ≠ rhs ∧ ∃ y, s.handle rhs = some y) := by
  cases hx : s.handle h with
  | none => simp [Handles.moveAssign, hx] at h'
  | some x =>
      refine ⟨x, rfl, ?_⟩
      by_cases hne : h = rhs
      · exact Or.inl hne
      · cases hy : s.handle rhs with
        | none => simp [Handles.moveAssign, destroy_eq, hx, hy, Ne.symm hne] at h'
        | some y => exact Or.inr ⟨hne, y, rfl⟩

theorem step_construct_eq_some_iff :
    s.step (.construct h) = some s' ↔ s.handle h = none ∧ s' = s.construct h := by
  cases hx : s.handle h with
  | none => simp [Handles.step, hx, eq_comm]
  | some x => simp [Handles.step, hx]

theorem step_moveConstruct_eq_some_iff {left : ℕ} :
    s.step (.moveConstruct h rhs left) = some s' ↔
      ∃ y, s.handle h = none ∧ s.handle rhs = some y ∧ s' = s.moveConstruct h rhs y left := by
  cases hx : s.handle h with
  | none =>
      cases hy : s.handle rhs with
      | none => simp [Handles.step, hx, hy]
      | some y => simp [Handles.step, hx, hy, eq_comm]
  | some x => simp [Handles.step, hx]

/-- A step reads the flag of a dead handle if it assigns a handle to itself, or uses
one that is dead already. -/
theorem undefined_of_step {op : Operation ι} (h' : s.step op = some s') :
    s'.undefined = true ↔
      s.undefined = true ∨ op.SelfAssigns ∨ ∃ k, op.Uses k ∧ Dead s.handle k := by
  cases op with
  | construct h =>
      obtain ⟨-, rfl⟩ := step_construct_eq_some_iff.mp h'
      simp [Handles.construct, Operation.SelfAssigns, Operation.Uses]
  | moveConstruct h rhs left =>
      obtain ⟨y, -, hy, rfl⟩ := step_moveConstruct_eq_some_iff.mp h'
      simp [Handles.moveConstruct, read, Operation.SelfAssigns, Operation.Uses, dead_iff hy]
  | moveAssign h rhs destroyed left flag =>
      obtain ⟨x, hx, rfl | ⟨hne, y, hy⟩⟩ := exists_of_moveAssign h'
      · rw [Handles.step, moveAssign_self hx] at h'
        obtain rfl := Option.some.inj h'
        simp [Operation.SelfAssigns]
      · rw [Handles.step, moveAssign_of_ne hx hy hne] at h'
        obtain rfl := Option.some.inj h'
        simp [Operation.SelfAssigns, Operation.Uses, hne, or_and_right, exists_or, dead_iff hx,
          dead_iff hy, or_assoc]
  | destructor h destroyed flag =>
      obtain ⟨x, hx, rfl⟩ := Option.map_eq_some_iff.mp h'
      simp [destroy_eq, Operation.SelfAssigns, Operation.Uses, dead_iff hx]
  | endOfLifetime h destroyed =>
      obtain ⟨x, hx, rfl⟩ := Option.map_eq_some_iff.mp h'
      simp [Handles.endOfLifetime, destroy_eq, Operation.SelfAssigns, Operation.Uses, dead_iff hx]

theorem defined_of_step {op : Operation ι} (h' : s.step op = some s') :
    s'.undefined = false ↔
      s.undefined = false ∧ ¬op.SelfAssigns ∧ ∀ k, op.Uses k → ¬Dead s.handle k := by
  rw [← Bool.not_eq_true, undefined_of_step h']
  simp

/-- While the behaviour is defined, only explicit destructor calls leave dead
handles. -/
theorem dead_of_step {op : Operation ι} (h' : s.step op = some s')
    (hdefined : s'.undefined = false) (k : ι) :
    Dead s'.handle k ↔ Dead s.handle k ∨ op.Destroys k := by
  cases op with
  | construct h =>
      obtain ⟨hnew, rfl⟩ := step_construct_eq_some_iff.mp h'
      have hnot : ¬Dead s.handle h := by simp [Dead, hnew]
      by_cases hk : k = h
      · simp [Handles.construct, dead_update, Operation.Destroys, hk, hnot]
      · simp [Handles.construct, dead_update, Operation.Destroys, hk]
  | moveConstruct h rhs left =>
      obtain ⟨y, hnew, hy, rfl⟩ := step_moveConstruct_eq_some_iff.mp h'
      have hnot : ¬Dead s.handle h := by simp [Dead, hnew]
      have hrhs := dead_iff hy
      by_cases hk : k = h
      · simp [Handles.moveConstruct, dead_update, Operation.Destroys, hk, hnot]
      · by_cases hk' : k = rhs
        · subst hk'
          simp [Handles.moveConstruct, read, dead_update, Operation.Destroys, hk, hrhs]
        · simp [Handles.moveConstruct, read, dead_update, Operation.Destroys, hk, hk']
  | moveAssign h rhs destroyed left flag =>
      obtain ⟨x, hx, rfl | ⟨hne, y, hy⟩⟩ := exists_of_moveAssign h'
      · rw [Handles.step, moveAssign_self hx] at h'
        obtain rfl := Option.some.inj h'
        cases hdefined
      · rw [Handles.step, moveAssign_of_ne hx hy hne] at h'
        obtain rfl := Option.some.inj h'
        simp only [Bool.or_eq_false_iff, Bool.not_eq_false'] at hdefined
        have hnot : ¬Dead s.handle h := by simp [dead_iff hx, hdefined.1.2]
        have hrhs := dead_iff hy
        by_cases hk : k = h
        · simp [dead_update, Operation.Destroys, hk, hnot]
        · by_cases hk' : k = rhs
          · simp [dead_update, Operation.Destroys, hk', hrhs, Ne.symm hne]
          · simp [dead_update, Operation.Destroys, hk, hk']
  | destructor h destroyed flag =>
      obtain ⟨x, hx, rfl⟩ := Option.map_eq_some_iff.mp h'
      by_cases hk : k = h
      · simp [destroy_eq, dead_update, Operation.Destroys, hk]
      · simp [destroy_eq, dead_update, Operation.Destroys, hk]
  | endOfLifetime h destroyed =>
      obtain ⟨x, hx, rfl⟩ := Option.map_eq_some_iff.mp h'
      simp only [Handles.endOfLifetime, destroy_eq, Bool.or_eq_false_iff,
        Bool.not_eq_false'] at hdefined
      have hnot : ¬Dead s.handle h := by simp [dead_iff hx, hdefined.2]
      by_cases hk : k = h
      · simp [Handles.endOfLifetime, dead_update, Operation.Destroys, hk, hnot]
      · simp [Handles.endOfLifetime, destroy_eq, dead_update, Operation.Destroys, hk]

/-! ## The operations keep the ownership -/

theorem Owns.construct (hs : Owns s) (hnew : s.handle h = none) : Owns (s.construct h) where
  keeps := by
    have hfresh : ∀ h', .adopted h' s.nextResource ∉ s.ledger := fun h' hmem =>
      Nat.lt_irrefl _ (hs.fresh h' _ hmem)
    refine (hs.keeps.adopt hfresh (not_holds_of_none hnew)).congr fun h' r => ?_
    simp [Handles.construct, holds_update]
  fresh := fun _ _ hmem => adopted_lt_succ hs.fresh hmem

theorem Owns.destroy (hs : Owns s) (hx : s.handle h = some x) (halive : x.alive = true)
    (destroyed : ℕ) (flag : Bool) : Owns (s.destroy h x destroyed flag) where
  keeps := by
    refine (keeps_destroy hs.keeps hx halive destroyed flag).congr fun h' r => ?_
    simp [destroy_eq, holds_update]
  fresh := by
    intro h' r hmem
    rw [adopted_mem_destroy] at hmem
    rw [destroy_eq]
    exact hs.fresh h' r hmem

theorem Owns.endOfLifetime (hs : Owns s) (hx : s.handle h = some x) (halive : x.alive = true)
    (destroyed : ℕ) : Owns (s.endOfLifetime h x destroyed) where
  keeps := by
    refine (keeps_destroy hs.keeps hx halive destroyed x.active).congr fun h' r => ?_
    simp [Handles.endOfLifetime, destroy_eq, holds_update]
  fresh := (hs.destroy hx halive destroyed x.active).fresh

theorem Owns.moveConstruct (hs : Owns s) (hnew : s.handle h = none)
    (hy : s.handle rhs = some y) (halive : y.alive = true) (left : ℕ) :
    Owns (s.moveConstruct h rhs y left) where
  keeps := by
    have hne : rhs ≠ h := by
      rintro rfl
      rw [hnew] at hy
      cases hy
    refine (keeps_passOn hs.keeps hne (not_holds_of_none hnew) (holds_iff hy halive)).congr
      fun h' r => ?_
    simp [Handles.moveConstruct, read, holds_update]
  fresh := by simpa [Handles.moveConstruct, read] using hs.fresh

/-- Behind a move assignment from another handle. -/
theorem Owns.moveAssign (hs : Owns s) (hx : s.handle h = some x) (hxalive : x.alive = true)
    (hy : s.handle rhs = some y) (hyalive : y.alive = true) (hne : h ≠ rhs)
    {destroyed left : ℕ} {flag : Bool}
    (h' : s.moveAssign h rhs destroyed left flag = some s') : Owns s' := by
  rw [moveAssign_of_ne hx hy hne] at h'
  obtain rfl := Option.some.inj h'
  have hdestroyed := keeps_destroy hs.keeps hx hxalive destroyed flag
  have hoverwritten := hdestroyed.overwrite (r := destroyed) fun hh => hh.1 rfl
  have hnothing : ∀ r, ¬(h ≠ h ∧ Holds s.handle h r) := fun r hh => hh.1 rfl
  have hrhs : ∀ r, rhs ≠ h ∧ Holds s.handle rhs r ↔ y.active = true ∧ y.resource = r := fun r => by
    rw [holds_iff hy hyalive]
    exact and_iff_right (Ne.symm hne)
  constructor
  · refine (keeps_passOn hoverwritten (Ne.symm hne) hnothing hrhs).congr fun h' r => ?_
    by_cases hh : h' = h
    · simp [holds_update, hh]
    · simp [holds_update, hh]
  · simpa using hs.fresh

theorem Owns.step (hs : Owns s) {op : Operation ι} (h' : s.step op = some s')
    (hdefined : s'.undefined = false) : Owns s' := by
  obtain ⟨-, hself, hused⟩ := (defined_of_step h').mp hdefined
  have halive : ∀ k x, op.Uses k → s.handle k = some x → x.alive = true := by
    intro k x huses hx
    simpa [dead_iff hx] using hused k huses
  cases op with
  | construct h =>
      obtain ⟨hnew, rfl⟩ := step_construct_eq_some_iff.mp h'
      exact hs.construct hnew
  | moveConstruct h rhs left =>
      obtain ⟨y, hnew, hy, rfl⟩ := step_moveConstruct_eq_some_iff.mp h'
      exact hs.moveConstruct hnew hy (halive rhs y rfl hy) left
  | moveAssign h rhs destroyed left flag =>
      obtain ⟨x, hx, rfl | ⟨hne, y, hy⟩⟩ := exists_of_moveAssign h'
      · exact absurd rfl hself
      · exact hs.moveAssign hx (halive h x (Or.inl rfl) hx) hy (halive rhs y (Or.inr rfl) hy)
          hne h'
  | destructor h destroyed flag =>
      obtain ⟨x, hx, rfl⟩ := Option.map_eq_some_iff.mp h'
      exact hs.destroy hx (halive h x rfl hx) destroyed flag
  | endOfLifetime h destroyed =>
      obtain ⟨x, hx, rfl⟩ := Option.map_eq_some_iff.mp h'
      exact hs.endOfLifetime hx (halive h x rfl hx) destroyed

/-! ## Runs -/

/-- What holds of the handles at first and is kept by each of the operations holds
of them behind all operations. -/
theorem foldlM_step_induction {P : Handles ι → Prop} {ops : List (Operation ι)}
    {s₀ s : Handles ι} (h₀ : P s₀)
    (hstep : ∀ op ∈ ops, ∀ s s', P s → step s op = some s' → P s')
    (h : ops.foldlM step s₀ = some s) : P s := by
  induction ops generalizing s₀ with
  | nil =>
      obtain rfl := Option.some.inj h
      exact h₀
  | cons op ops ih =>
      rw [List.foldlM_cons, Option.bind_eq_bind, Option.bind_eq_some_iff] at h
      obtain ⟨s₁, hfirst, hrest⟩ := h
      have h₁ := hstep op (by simp) s₀ s₁ h₀ hfirst
      exact ih h₁ (fun op' hop' => hstep op' (by simp [hop'])) hrest

theorem owns_run {ops : List (Operation ι)} (h : run ops = some s)
    (hdefined : s.undefined = false) : Owns s := by
  have howns : s.undefined = false → Owns s := by
    refine foldlM_step_induction (P := fun s => s.undefined = false → Owns s)
      (fun _ => owns_empty) ?_ h
    intro op _ s₀ s₁ h₀ hstep hdefined₁
    exact (h₀ ((defined_of_step hstep).mp hdefined₁).1).step hstep hdefined₁
  exact howns hdefined

theorem run_append_eq_some_iff {ops : List (Operation ι)} {op : Operation ι} :
    run (ops ++ [op]) = some s' ↔ ∃ s, run ops = some s ∧ s.step op = some s' := by
  simp [run, List.foldlM_append, Option.bind_eq_some_iff]

/-- The behaviour of a run is defined as long as the operations keep the lifetimes of
the handles, and the dead handles are then those destroyed explicitly. -/
theorem undefined_run {ops : List (Operation ι)} (h : run ops = some s) :
    (s.undefined = false ↔ KeepsLifetimes ops) ∧
      (s.undefined = false → ∀ k, Dead s.handle k ↔ ∃ op ∈ ops, op.Destroys k) := by
  induction ops using List.reverseRecOn generalizing s with
  | nil =>
      obtain rfl := Option.some.inj h
      simp [KeepsLifetimes, Dead]
  | append_singleton ops op ih =>
      obtain ⟨s₁, hs₁, hstep⟩ := run_append_eq_some_iff.mp h
      obtain ⟨hdefined₁, hdead₁⟩ := ih hs₁
      have hdefined := defined_of_step hstep
      constructor
      · rw [keepsLifetimes_append_iff, hdefined, ← hdefined₁]
        refine and_congr_right fun h₁ => and_congr_right fun _ => forall_congr' fun k => ?_
        rw [hdead₁ h₁ k]
        exact imp_not_comm
      · intro hs k
        rw [dead_of_step hstep hs k, hdead₁ (hdefined.mp hs).1 k]
        simp [or_and_right, exists_or]

/-- Resources are released exactly once if and only if no handle is move-assigned to
itself and none is used after an explicit destructor call. -/
theorem releasesOnce_iff {ops : List (Operation ι)} (h : run ops = some s) :
    ReleasesOnce s ↔ KeepsLifetimes ops := by
  rw [← (undefined_run h).1]
  constructor
  · intro hs
    exact hs.defined
  · intro hdefined
    have hs := owns_run h hdefined
    refine ⟨hdefined, hs.keeps.legal.releases_le_one, ?_, ?_⟩
    · intro past h' r future hledger
      exact hs.keeps.legal past _ future hledger
    · intro hended h' r hadopted
      refine hs.keeps.releases_eq_one ?_ hadopted
      rintro h'' r' ⟨x, hx, halive, -⟩
      rw [hended h'' x hx] at halive
      cases halive

/-- Two handles: the first takes over the second's resource and is moved to a third,
which is destroyed explicitly and in whose place no handle is used again. -/
theorem releasesOnce_iff_threeHandles :
    ∃ s, run [.construct 0, .construct 1, .moveAssign 0 1 0 1 true, .moveConstruct 2 0 1,
        .endOfLifetime 0 0, .destructor 2 1 true, .endOfLifetime 1 1] = some s ∧
      (ReleasesOnce s ↔ KeepsLifetimes [.construct 0, .construct 1, .moveAssign 0 1 0 1 true,
        .moveConstruct 2 0 1, .endOfLifetime 0 0, .destructor 2 1 true,
        .endOfLifetime 1 1]) := by
  obtain ⟨s, hs⟩ : ∃ s, run [.construct 0, .construct 1, .moveAssign 0 1 0 1 true,
    .moveConstruct 2 0 1, .endOfLifetime 0 0, .destructor 2 1 true, .endOfLifetime 1 1] =
      some s := Option.isSome_iff_exists.mp (by decide)
  exact ⟨s, hs, releasesOnce_iff hs⟩

/-- A handle that is destroyed explicitly, and one that is assigned to itself.  If the
store to the flag is not kept, the end of the lifetime releases the resource
again. -/
theorem not_releasesOnce :
    (∃ s, run [.construct 0, .destructor 0 0 true, .endOfLifetime 0 0] = some s ∧
      releases 0 s.ledger = 2 ∧ ¬ReleasesOnce s) ∧
    ∃ s, run [.construct 0, .moveAssign 0 0 0 0 true, .endOfLifetime 0 0] = some s ∧
      releases 0 s.ledger = 2 ∧ ¬ReleasesOnce s := by
  have hnot : ∀ {s : Handles ℕ}, releases 0 s.ledger = 2 → ¬ReleasesOnce s := by
    intro s htwice hs
    have honce := hs.once 0
    omega
  have hrun : ∀ ops : List (Operation ℕ),
      (run ops).map (fun s => releases 0 s.ledger) = some 2 →
        ∃ s, run ops = some s ∧ releases 0 s.ledger = 2 ∧ ¬ReleasesOnce s := by
    intro ops hops
    obtain ⟨s, hs, htwice⟩ := Option.map_eq_some_iff.mp hops
    exact ⟨s, hs, htwice, hnot htwice⟩
  exact ⟨hrun _ (by decide), hrun _ (by decide)⟩

end Steps

end Handles

end Waylander
