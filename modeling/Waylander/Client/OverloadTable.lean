import Waylander.Client.MessageOverloadSet
import Waylander.Support.Buffer
import Waylander.Support.HashTable

/-!
# The hash table of overloads

`message_overload_set` over `std::unordered_map` with the key comparison and
the hash function of the source, and `message_visit` for overloads that change
their own state.  A type-erased overload is its stored state `ω`; what a call
does to it, and the exception it may end with, is a parameter.
-/

namespace Waylander

open LittleEndian Buffer

/-! ## Key comparison -/

/-- A value of an integral type. -/
structure Integral where
  signed : Bool
  value : ℤ
  nonneg : signed = false → 0 ≤ value

/-- `std::cmp_equal`: a negative number equals no value of an unsigned type. -/
def cmpEqual (t u : Integral) : Bool :=
  if t.signed = u.signed then
    t.value == u.value
  else if t.signed then
    if t.value < 0 then false else t.value == u.value
  else
    if u.value < 0 then false else t.value == u.value

/-- `get_integral_value` of a struct whose `value` is unsigned. -/
def getIntegralValue {w : ℕ} (x : BitVec w) : Integral where
  signed := false
  value := x.toNat
  nonneg := fun _ => Int.natCast_nonneg _

/-- `operator==` of the pairs, with the `operator==` of message arguments. -/
def keyEq (a b : OverloadKey) : Bool :=
  cmpEqual (getIntegralValue a.1) (getIntegralValue b.1) &&
    cmpEqual (getIntegralValue a.2) (getIntegralValue b.2)

/-- Integers of any two types compare by their values. -/
theorem cmpEqual_iff (t u : Integral) : cmpEqual t u = true ↔ t.value = u.value := by
  rw [cmpEqual]
  by_cases hsigned : t.signed = u.signed
  · simp [hsigned]
  · rw [if_neg hsigned]
    cases ht : t.signed with
    | true =>
        have hunsigned : u.signed = false :=
          Bool.eq_false_iff.mpr fun hu => hsigned (ht.trans hu.symm)
        have hu := u.nonneg hunsigned
        by_cases hneg : t.value < 0
        · have hne : t.value ≠ u.value := by omega
          simp [hneg, hne]
        · simp [hneg]
    | false =>
        have hnonneg := t.nonneg ht
        by_cases hneg : u.value < 0
        · have hne : t.value ≠ u.value := by omega
          simp [hneg, hne]
        · simp [hneg]

theorem keyEq_iff (a b : OverloadKey) : keyEq a b = true ↔ a = b := by
  simp only [keyEq, Bool.and_eq_true, cmpEqual_iff, getIntegralValue, Int.natCast_inj,
    BitVec.toNat_inj, Prod.ext_iff]

/-! ## Hash of a key -/

/-- What the standard library leaves open: `std::hash<std::size_t>`, the number
of buckets after an insertion, and the bytes of an uninitialised array. -/
structure Runtime where
  stdHash : BitVec 64 → BitVec 64
  grow : ℕ → ℕ → ℕ
  uninitialised : Vector Byte 8

/-- `key_t_hash` -/
def keyHash (rt : Runtime) (key : OverloadKey) : BitVec 64 :=
  let combined := overwrite rt.uninitialised.toList 0 (toBytes 4 key.1.toNat)
  let combined := overwrite combined 4 (toBytes 2 key.2.toNat)
  let combined := overwrite combined (4 + 2) (List.replicate (8 - 4 - 2) 0)
  rt.stdHash (BitVec.ofNat 64 (ofBytes combined))

/-- The bytes that are hashed are those of the key and two zeros. -/
theorem keyHash_eq (rt : Runtime) (key : OverloadKey) :
    keyHash rt key =
      rt.stdHash (BitVec.ofNat 64 (ofBytes
        (toBytes 4 key.1.toNat ++ (toBytes 2 key.2.toNat ++ List.replicate 2 0)))) := by
  have hfirst := toBytes_length 4 key.1.toNat
  have hsecond := toBytes_length 2 key.2.toNat
  have hlength : rt.uninitialised.toList.length = 8 := by simp
  rw [keyHash]
  generalize toBytes 4 key.1.toNat = first at hfirst
  generalize toBytes 2 key.2.toNat = second at hsecond
  generalize rt.uninitialised.toList = combined at hlength
  have hend : combined.drop 8 = [] := List.drop_of_length_le hlength.le
  have hcopied : overwrite combined 0 first = first ++ combined.drop 4 := by
    simp [overwrite, hfirst]
  have hbehind : overwrite (first ++ combined.drop 4) 4 second =
      first ++ (second ++ combined.drop 6) := by
    simpa [hfirst, hsecond] using overwrite_append first (combined.drop 4) second
  have hleftover : overwrite (first ++ (second ++ combined.drop 6)) (4 + 2)
      (List.replicate (8 - 4 - 2) 0) = first ++ (second ++ List.replicate 2 0) := by
    simpa [hfirst, hsecond, hend] using
      overwrite_append (first ++ second) (combined.drop 6) (List.replicate 2 0)
  rw [hcopied, hbehind, hleftover]

/-- Equal keys have equal hashes, whatever the two uninitialised arrays held. -/
theorem keyHash_eq_of_keyEq {rt rt' : Runtime} (hstd : rt.stdHash = rt'.stdHash)
    {a b : OverloadKey} (h : keyEq a b = true) : keyHash rt a = keyHash rt' b := by
  rw [keyHash_eq, keyHash_eq, hstd, (keyEq_iff a b).mp h]

/-- The hash as an index of buckets. -/
def Runtime.hash (rt : Runtime) (key : OverloadKey) : ℕ :=
  (keyHash rt key).toNat

theorem lawful_key (rt : Runtime) : HashTable.Lawful rt.hash keyEq where
  refl := fun k => (keyEq_iff k k).mpr rfl
  symm := fun h => (keyEq_iff _ _).mpr ((keyEq_iff _ _).mp h).symm
  trans := fun h h' => (keyEq_iff _ _).mpr (((keyEq_iff _ _).mp h).trans ((keyEq_iff _ _).mp h'))
  hash_eq := fun h => congrArg BitVec.toNat (keyHash_eq_of_keyEq rfl h)

/-! ## The table -/

/-- `overloads_` -/
abbrev OverloadTable (ω : Type) := HashTable OverloadKey ω

namespace OverloadTable

section Table

variable {ω : Type} (rt : Runtime)

def overloadResolution (t : OverloadTable ω) (objId : Wobject) (opcode : Wopcode) : Option ω :=
  t.find rt.hash keyEq (objId, opcode)

def addOverload (t : OverloadTable ω) (objId : Wobject) (opcode : Wopcode) (overload : ω) :
    Except Exception Unit × OverloadTable ω :=
  let (insertOk, t') := t.insert rt.hash keyEq rt.grow (objId, opcode) overload
  if insertOk then
    (.ok (), t')
  else
    (.error (.runtimeError "Overload for \x7bWobject<W>, Msg::opcode\x7d already present!"), t')

/-- A sequence of `add_overload` calls.  The caller goes on after an exception. -/
def addOverloads (adds : List (OverloadKey × ω)) : OverloadTable ω :=
  adds.foldl (fun t add => (t.addOverload rt add.1.1 add.1.2 add.2).2) (HashTable.empty 1)

/-- The table finds what the map from keys to overloads has. -/
def Represents (t : OverloadTable ω) (mos : MessageOverloadSet ω) : Prop :=
  ∀ objId opcode, t.overloadResolution rt objId opcode = mos.overloadResolution objId opcode

theorem represents_empty (bucketCount : ℕ) :
    Represents rt (HashTable.empty bucketCount) (.empty : MessageOverloadSet ω) := by
  intro objId opcode
  exact HashTable.find_empty (lawful_key rt) bucketCount (objId, opcode)

theorem addOverload_fst (t : OverloadTable ω) (objId : Wobject) (opcode : Wopcode)
    (overload : ω) :
    (t.addOverload rt objId opcode overload).1 =
      if t.overloadResolution rt objId opcode = none then .ok ()
      else .error (.runtimeError
        "Overload for \x7bWobject<W>, Msg::opcode\x7d already present!") := by
  have hinsert := HashTable.insert_fst rt.hash keyEq rt.grow t (objId, opcode) overload
  rw [overloadResolution, addOverload]
  generalize t.insert rt.hash keyEq rt.grow (objId, opcode) overload = inserted at hinsert
  obtain ⟨insertOk, t'⟩ := inserted
  cases insertOk with
  | true => simp [hinsert.mp rfl]
  | false =>
      have hpresent : t.find rt.hash keyEq (objId, opcode) ≠ none := fun hnone =>
        Bool.false_ne_true (hinsert.mpr hnone)
      simp [hpresent]

theorem overloadResolution_addOverload (t : OverloadTable ω) (objId : Wobject)
    (opcode : Wopcode) (overload : ω) (objId' : Wobject) (opcode' : Wopcode) :
    (t.addOverload rt objId opcode overload).2.overloadResolution rt objId' opcode' =
      if t.overloadResolution rt objId opcode = none ∧ (objId', opcode') = (objId, opcode) then
        some overload
      else t.overloadResolution rt objId' opcode' := by
  have hinserted : (t.addOverload rt objId opcode overload).2 =
      (t.insert rt.hash keyEq rt.grow (objId, opcode) overload).2 := by
    rw [addOverload]
    obtain ⟨insertOk, t'⟩ := t.insert rt.hash keyEq rt.grow (objId, opcode) overload
    cases insertOk <;> rfl
  have hkey : keyEq (objId, opcode) (objId', opcode') = true ↔
      (objId', opcode') = (objId, opcode) := (keyEq_iff _ _).trans eq_comm
  rw [hinserted, overloadResolution, HashTable.find_insert (lawful_key rt)]
  exact if_congr (and_congr_right fun _ => hkey) rfl rfl

theorem represents_addOverload {t : OverloadTable ω} {mos : MessageOverloadSet ω}
    (h : Represents rt t mos) (objId : Wobject) (opcode : Wopcode) (overload : ω) :
    (t.addOverload rt objId opcode overload).1 = (mos.addOverload objId opcode overload).1 ∧
      Represents rt (t.addOverload rt objId opcode overload).2
        (mos.addOverload objId opcode overload).2 := by
  have hfst : (t.addOverload rt objId opcode overload).1 =
      (mos.addOverload objId opcode overload).1 := by
    rw [addOverload_fst, MessageOverloadSet.addOverload]
    simp only [h objId opcode, mos.overloadResolution_eq_none_iff]
    by_cases hmem : (objId, opcode) ∈ mos.overloads.map Prod.fst
    · rw [dif_pos hmem, if_neg (not_not.mpr hmem)]
    · rw [dif_neg hmem, if_pos hmem]
  refine ⟨hfst, fun objId' opcode' => ?_⟩
  rw [overloadResolution_addOverload, MessageOverloadSet.overloadResolution_addOverload, ← hfst,
    addOverload_fst, h objId' opcode']
  by_cases hnone : t.overloadResolution rt objId opcode = none
  · simp only [hnone, if_true, true_and]
  · simp only [hnone, if_false, false_and, reduceCtorEq]

/-- The map that the same calls build. -/
def firstAdds (adds : List (OverloadKey × ω)) : MessageOverloadSet ω :=
  adds.foldl (fun mos add => (mos.addOverload add.1.1 add.1.2 add.2).2) .empty

theorem represents_addOverloads (adds : List (OverloadKey × ω)) :
    Represents rt (addOverloads rt adds) (firstAdds adds) := by
  have hfold : ∀ (t : OverloadTable ω) (mos : MessageOverloadSet ω), Represents rt t mos →
      Represents rt
        (adds.foldl (fun t add => (t.addOverload rt add.1.1 add.1.2 add.2).2) t)
        (adds.foldl (fun mos add => (mos.addOverload add.1.1 add.1.2 add.2).2) mos) := by
    induction adds with
    | nil => exact fun _ _ h => h
    | cons add adds ih =>
        intro t mos h
        exact ih _ _ (represents_addOverload rt h add.1.1 add.1.2 add.2).2
  exact hfold _ _ (represents_empty rt 1)

/-- The overload of a pair is the one of the first call for it. -/
theorem overloadResolution_addOverloads (adds : List (OverloadKey × ω)) (objId : Wobject)
    (opcode : Wopcode) :
    (addOverloads rt adds).overloadResolution rt objId opcode =
      adds.lookup (objId, opcode) := by
  have hfold : ∀ t : OverloadTable ω,
      (adds.foldl (fun t add => (t.addOverload rt add.1.1 add.1.2 add.2).2)
          t).overloadResolution rt objId opcode =
        (t.overloadResolution rt objId opcode).or (adds.lookup (objId, opcode)) := by
    induction adds with
    | nil => simp
    | cons add adds ih =>
        intro t
        obtain ⟨⟨objId', opcode'⟩, overload⟩ := add
        rw [List.foldl_cons, ih, overloadResolution_addOverload, List.lookup_cons]
        by_cases hkey : (objId, opcode) = (objId', opcode')
        · obtain ⟨rfl, rfl⟩ := Prod.mk.inj hkey
          cases hold : t.overloadResolution rt objId opcode with
          | none => simp
          | some overload' => simp
        · rw [if_neg fun hnew => hkey hnew.2, beq_false_of_ne hkey]
  have hempty : overloadResolution rt (HashTable.empty 1 : OverloadTable ω) objId opcode = none :=
    HashTable.find_empty (lawful_key rt) 1 (objId, opcode)
  rw [addOverloads, hfold, hempty, Option.none_or]

/-- A call for a new pair succeeds; one for an old pair throws and leaves every
lookup as it was. -/
theorem addOverload_addOverloads (adds : List (OverloadKey × ω)) (objId : Wobject)
    (opcode : Wopcode) (overload : ω) :
    let added := (addOverloads rt adds).addOverload rt objId opcode overload
    if adds.lookup (objId, opcode) = none then added.1 = .ok ()
    else
      added.1 = .error (.runtimeError
        "Overload for \x7bWobject<W>, Msg::opcode\x7d already present!") ∧
      ∀ objId' opcode', added.2.overloadResolution rt objId' opcode' =
        (addOverloads rt adds).overloadResolution rt objId' opcode' := by
  intro added
  have hfirst := overloadResolution_addOverloads rt adds objId opcode
  have hadded : added.1 = _ := addOverload_fst rt (addOverloads rt adds) objId opcode overload
  by_cases hnew : adds.lookup (objId, opcode) = none
  · rw [if_pos hnew, hadded, if_pos (hfirst.trans hnew)]
  · have hpresent := fun hnone => hnew (hfirst.symm.trans hnone)
    rw [if_neg hnew, hadded, if_neg hpresent]
    refine ⟨rfl, fun objId' opcode' => ?_⟩
    exact (overloadResolution_addOverload rt _ objId opcode overload objId' opcode').trans
      (if_neg fun hnone => hpresent hnone.1)

end Table

end OverloadTable

end Waylander
