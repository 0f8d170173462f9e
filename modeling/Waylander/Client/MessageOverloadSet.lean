import Waylander.Wire.MessageParser

/-!
# Message overload sets

A map from pairs of an object id and an opcode to type-erased function objects,
of which only the identity matters here.  The map of the source is unordered;
its keys are distinct, so the order of the entries below has no effect.
-/

namespace Waylander

variable {ω : Type}

/-- `key_t` -/
abbrev OverloadKey := Wobject × Wopcode

structure MessageOverloadSet (ω : Type) where
  overloads : List (OverloadKey × ω)
  nodup_keys : (overloads.map Prod.fst).Nodup

namespace MessageOverloadSet

def empty : MessageOverloadSet ω where
  overloads := []
  nodup_keys := List.nodup_nil

/-- Finds overload corresponding to {object id, opcode}-pair or returns empty
optional. -/
def overloadResolution (mos : MessageOverloadSet ω) (objId : Wobject) (opcode : Wopcode) :
    Option ω :=
  mos.overloads.lookup (objId, opcode)

/-- The set is left as it was if the insertion fails. -/
def addOverload (mos : MessageOverloadSet ω) (objId : Wobject) (opcode : Wopcode)
    (overload : ω) : Except Exception Unit × MessageOverloadSet ω :=
  if h : (objId, opcode) ∈ mos.overloads.map Prod.fst then
    (.error (.runtimeError "Overload for \x7bWobject<W>, Msg::opcode\x7d already present!"), mos)
  else
    (.ok (),
      { overloads := ((objId, opcode), overload) :: mos.overloads
        nodup_keys := by
          rw [List.map_cons, List.nodup_cons]
          exact ⟨h, mos.nodup_keys⟩ })

theorem overloadResolution_eq_none_iff (mos : MessageOverloadSet ω) (objId : Wobject)
    (opcode : Wopcode) :
    mos.overloadResolution objId opcode = none ↔
      (objId, opcode) ∉ mos.overloads.map Prod.fst := by
  simp only [overloadResolution, List.lookup_eq_none_iff, bne_iff_ne, List.mem_map,
    not_exists, not_and, ne_comm, ne_eq]

theorem overloadResolution_addOverload (mos : MessageOverloadSet ω) (objId : Wobject)
    (opcode : Wopcode) (overload : ω) (objId' : Wobject) (opcode' : Wopcode) :
    (mos.addOverload objId opcode overload).2.overloadResolution objId' opcode' =
      if (mos.addOverload objId opcode overload).1 = .ok () ∧
          (objId', opcode') = (objId, opcode) then some overload
      else mos.overloadResolution objId' opcode' := by
  by_cases h : (objId, opcode) ∈ mos.overloads.map Prod.fst
  · simp only [addOverload, dif_pos h]
    rw [if_neg (by rintro ⟨hok, -⟩; cases hok)]
  · simp only [addOverload, dif_neg h, overloadResolution, List.lookup_cons, true_and]
    by_cases hkey : (objId', opcode') = (objId, opcode)
    · rw [if_pos hkey, hkey, beq_self_eq_true]
    · rw [if_neg hkey, beq_false_of_ne hkey]

end MessageOverloadSet

end Waylander
