import Mathlib.Data.List.Basic

/-!
# Hash tables

A table with unique keys whose hash function and key comparison are parameters.
An entry lies in the bucket of its hash modulo the number of buckets, and a key
is looked for in its own bucket only.  Inserting may change the number of
buckets in any way.

If keys that compare equal have equal hashes, no lookup depends on the buckets.
-/

structure HashTable (κ ω : Type*) where
  bucketCount : ℕ
  entries : List (κ × ω)

namespace HashTable

variable {κ ω : Type*} (hash : κ → ℕ) (eq : κ → κ → Bool)

def empty (bucketCount : ℕ) : HashTable κ ω where
  bucketCount := bucketCount
  entries := []

/-- The entries whose keys fall into bucket `i`. -/
def bucket (t : HashTable κ ω) (i : ℕ) : List (κ × ω) :=
  t.entries.filter fun entry => hash entry.1 % t.bucketCount == i

def find (t : HashTable κ ω) (k : κ) : Option ω :=
  ((t.bucket hash (hash k % t.bucketCount)).find? fun entry => eq entry.1 k).map Prod.snd

/-- Insert unless there is an entry for the key.  `grow` chooses the number of
buckets from the number of entries and the buckets so far. -/
def insert (grow : ℕ → ℕ → ℕ) (t : HashTable κ ω) (k : κ) (v : ω) : Bool × HashTable κ ω :=
  match t.find hash eq k with
  | some _ => (false, t)
  | none =>
      (true,
        { bucketCount := grow t.entries.length t.bucketCount
          entries := (k, v) :: t.entries })

/-- Change the value stored for a key in place. -/
def modify (t : HashTable κ ω) (k : κ) (f : ω → ω) : HashTable κ ω where
  bucketCount := t.bucketCount
  entries := t.entries.map fun entry =>
    if hash entry.1 % t.bucketCount = hash k % t.bucketCount ∧ eq entry.1 k = true then
      (entry.1, f entry.2)
    else entry

theorem insert_fst (grow : ℕ → ℕ → ℕ) (t : HashTable κ ω) (k : κ) (v : ω) :
    (t.insert hash eq grow k v).1 = true ↔ t.find hash eq k = none := by
  rw [insert]
  cases t.find hash eq k <;> simp

/-- What the hash function and the comparison of a table have to satisfy. -/
structure Lawful : Prop where
  refl : ∀ k, eq k k = true
  symm : ∀ {k k'}, eq k k' = true → eq k' k = true
  trans : ∀ {k k' k''}, eq k k' = true → eq k' k'' = true → eq k k'' = true
  hash_eq : ∀ {k k'}, eq k k' = true → hash k = hash k'

section Lookup

variable {hash eq} (h : Lawful hash eq)

include h

/-- A lookup sees all entries, whatever the buckets are. -/
theorem find_eq (t : HashTable κ ω) (k : κ) :
    t.find hash eq k = (t.entries.find? fun entry => eq entry.1 k).map Prod.snd := by
  have hbucket : ∀ entry : κ × ω,
      ((hash entry.1 % t.bucketCount == hash k % t.bucketCount) = true ∧
        eq entry.1 k = true) ↔ eq entry.1 k = true := by
    intro entry
    refine and_iff_right_of_imp fun hkey => ?_
    rw [h.hash_eq hkey, beq_self_eq_true]
  simp only [find, bucket, List.find?_filter, hbucket, Bool.decide_eq_true]

theorem find_empty (bucketCount : ℕ) (k : κ) :
    (empty bucketCount : HashTable κ ω).find hash eq k = none := by
  simp [find_eq h, empty]

theorem find_insert (grow : ℕ → ℕ → ℕ) (t : HashTable κ ω) (k k' : κ) (v : ω) :
    (t.insert hash eq grow k v).2.find hash eq k' =
      if t.find hash eq k = none ∧ eq k k' = true then some v
      else t.find hash eq k' := by
  rw [insert]
  cases hk : t.find hash eq k with
  | some v' => simp
  | none =>
      rw [find_eq h, find_eq h]
      by_cases hkey : eq k k' = true
      · simp [hkey]
      · simp [hkey]

/-- An overwritten value is found under its own key and no other. -/
theorem find_modify (t : HashTable κ ω) (k k' : κ) (f : ω → ω) :
    (t.modify hash eq k f).find hash eq k' =
      if eq k k' = true then (t.find hash eq k').map f else t.find hash eq k' := by
  have hentry : ∀ entry : κ × ω,
      (hash entry.1 % t.bucketCount = hash k % t.bucketCount ∧ eq entry.1 k = true) ↔
        eq entry.1 k = true := by
    intro entry
    refine and_iff_right_of_imp fun hkey => ?_
    rw [h.hash_eq hkey]
  rw [find_eq h, find_eq h, modify]
  simp only [hentry]
  induction t.entries with
  | nil => simp
  | cons entry entries ih =>
      by_cases hfound : eq entry.1 k' = true
      · by_cases hkey : eq k k' = true
        · have hentry : eq entry.1 k = true := h.trans hfound (h.symm hkey)
          simp [hfound, hkey, hentry]
        · have hentry : ¬eq entry.1 k = true := fun he => hkey (h.trans (h.symm he) hfound)
          simp [hfound, hkey, hentry]
      · have hkept : eq (if eq entry.1 k = true then (entry.1, f entry.2) else entry).1 k' =
            eq entry.1 k' := by
          split <;> rfl
        rw [List.map_cons, List.find?_cons, List.find?_cons, hkept]
        simpa [hfound] using ih

end Lookup

end HashTable
