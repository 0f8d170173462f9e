import Waylander.Examples.Acceptance
import Waylander.Examples.WindowRules

/-!
# The window keeps the rules of the compositor

Whatever the server sends, the requests of the window are accepted one after
another, and those that are on the socket are the first of them.
-/

namespace Waylander

namespace StaticPicture

open Fallible LittleEndian Programs Std.Do
open ListRegistryGlobals (getRegistry sync globalOpcode doneOpcode)

variable {σ α : Type}

/-! ## The config stage up to the first wait -/

namespace Program

variable {build : Build} {host : Host σ} {sender : Sender σ} {picture : Picture}
variable {c : Compositor} {members : Members}

theorem setUp_meets (hpicture : picture.Drawable) (hroom : c.objects.length + 8 < 2 ^ 32)
    (hbound : Bound members c) :
    Meets (Stands c 0 members) (setUp build host sender picture)
      (fun _ v => ∃ n members' c', (Names.Assigned n members' ∧ Ready picture n c') ∧
        Stands c' 0 members' v) Safe := by
  obtain ⟨shm, hshm, hshm'⟩ := hbound.shm
  obtain ⟨compositor, hcompositor, hcompositor'⟩ := hbound.compositor
  obtain ⟨wmBase, hwmBase, hwmBase'⟩ := hbound.wmBase
  obtain ⟨c₁, c₂, c₃, haccepted₁, haccepted₂, haccepted₃, hobjects₁, hobjects₂, hobjects₃,
    hcontent, hunshown⟩ := buffer_accepted hpicture hshm' (toNat_ofNat_add (k := 0) (by omega))
      (toNat_ofNat_add (k := 0 + 1) (by omega))
  have hlength₃ : c₃.objects.length = c.objects.length + 2 := by
    rw [hobjects₃, List.length_append]
    rfl
  let n : Names :=
    { buffer := BitVec.ofNat 32 (c.objects.length + (0 + 1))
      surface := BitVec.ofNat 32 (c₃.objects.length + 0)
      wmBase := wmBase
      xdgSurface := BitVec.ofNat 32 (c₃.objects.length + (0 + 1))
      toplevel := BitVec.ofNat 32 (c₃.objects.length + (0 + 1 + 1)) }
  obtain ⟨c₄, c₅, c₆, haccepted₄, haccepted₅, haccepted₆, hcommit, hobjects₄, hobjects₅,
    hobjects₆, hready⟩ := surface_accepted (n := n)
      (hunshown.pending.trans hbound.pending) (hunshown.contents.trans hbound.contents)
      (hunshown.xdgSurfaces.trans hbound.xdgSurfaces)
      (hunshown.constructed.trans hbound.constructed)
      (Compositor.interfaceOf_of_append hcompositor' hobjects₃)
      (Compositor.interfaceOf_created (j := 1) (toNat_ofNat_add (by omega)) hobjects₃ rfl)
      hcontent (Compositor.interfaceOf_of_append hwmBase' hobjects₃)
      (toNat_ofNat_add (by omega)) (toNat_ofNat_add (by omega)) (toNat_ofNat_add (by omega))
  rw [setUp]
  refine bind_eq reserveObjectId_stands ?_
  refine bind_eq (reserveId_stands .buffer) ?_
  refine bind_eq (valueOf_stands (m := .shm) (by simpa using hshm)) ?_
  refine Programs.bind (registerRequest_stands 1 haccepted₁ (by simp [hobjects₁])) fun _ => ?_
  refine Programs.bind (registerRequest_stands 0 haccepted₂ (by simp [hobjects₁, hobjects₂]))
    fun _ => ?_
  refine Programs.bind (registerRequest_stands 0 haccepted₃ (by simp [hobjects₂, hobjects₃]))
    fun _ => ?_
  refine bind_eq (reserveId_stands .wlSurface) ?_
  refine bind_eq (reserveId_stands .xdgSurface) ?_
  refine bind_eq (valueOf_stands (m := .wlSurface) (i := n.surface) (by simp [n])) ?_
  refine bind_eq (reserveId_stands .toplevel) ?_
  refine bind_eq (valueOf_stands (m := .compositor) (by simpa using hcompositor)) ?_
  refine Programs.bind (registerRequest_stands 2 haccepted₄ (by simp [hobjects₄])) fun _ => ?_
  refine bind_eq (valueOf_stands (m := .wmBase) (by simpa using hwmBase)) ?_
  refine Programs.bind (registerRequest_stands 1 haccepted₅ (by simp [hobjects₄, hobjects₅]))
    fun _ => ?_
  refine bind_eq (valueOf_stands (m := .xdgSurface) (i := n.xdgSurface) (by simp [n])) ?_
  refine Programs.bind (registerRequest_stands 0 haccepted₆ (by simp [hobjects₅, hobjects₆]))
    fun _ => ?_
  refine bind_eq (valueOf_stands (m := .wlSurface) (i := n.surface) (by simp [n])) ?_
  refine Programs.bind (registerRequest_stands 0 hcommit rfl) fun _ => ?_
  refine consequence flush_stands (fun _ h => h) ?_ (fun _ h => h)
  rintro _ w ⟨hstands, -⟩
  refine ⟨n, _, c₆, ⟨⟨?_, ?_, ?_, ?_, ?_⟩, hready⟩, hstands⟩
  · simp [n]
  · simp [n]
  · simpa [n] using hwmBase
  · simp [n]
  · simp [n]

end Program

/-! ## The initial stage -/

/-- The globals found so far are bound. -/
structure Enumerated (registry : Wobject) (c : Compositor) (members : Members) : Prop where
  registry_eq : members.ids .registry = some registry
  registry : c.interfaceOf registry = some .wlRegistry
  found : ∀ m, members.isFound m = true →
    ∃ id, members.ids m = some id ∧ c.interfaceOf id = some (globalInterface m)
  xdgSurfaces : c.xdgSurfaces = []
  constructed : c.constructed = []
  pending : c.pending = []
  contents : c.contents = []

namespace Enumerated

variable {registry : Wobject} {c c' : Compositor} {members : Members}

theorem bound (h : Enumerated registry c members) (hshm : members.wlShmFound = true)
    (hcompositor : members.wlCompositorFound = true) (hwmBase : members.xdgWmBaseFound = true) :
    Bound members c :=
  ⟨h.found .shm hshm, h.found .compositor hcompositor, h.found .wmBase hwmBase, h.xdgSurfaces,
    h.constructed, h.pending, h.contents⟩

theorem heard (h : Enumerated registry c members) (name : BitVec 32) (interface : List Byte)
    (version : BitVec 32) : Enumerated registry (c.hear (.global name interface version)) members :=
  ⟨h.registry_eq, h.registry, h.found, h.xdgSurfaces, h.constructed, h.pending, h.contents⟩

/-- A further global is bound to the member `m`. -/
theorem bind (h : Enumerated registry c members) {m : Member} (hm : m ≠ .registry) {id : Wobject}
    (hid : id.toNat = c.objects.length) {members' : Members}
    (hids : members'.ids = members.ids)
    (hfound : ∀ m', members'.isFound m' = true → m' = m ∨ members.isFound m' = true) :
    Enumerated registry { c with objects := c.objects ++ [globalInterface m] }
      (members'.assign m id) := by
  refine ⟨?_, Compositor.interfaceOf_of_append h.registry rfl, ?_, h.xdgSurfaces, h.constructed,
    h.pending, h.contents⟩
  · rw [Members.ids_assign, if_neg hm.symm, hids, h.registry_eq]
  · intro m' hm'
    rw [Members.ids_assign]
    by_cases hsame : m' = m
    · subst hsame
      exact ⟨id, if_pos rfl, Compositor.interfaceOf_created (j := 0) hid rfl rfl⟩
    · obtain ⟨id', hid', hinterface⟩ := h.found m' ((hfound m' hm').resolve_left hsame)
      refine ⟨id', ?_, Compositor.interfaceOf_of_append hinterface rfl⟩
      rw [if_neg hsame, hids, hid']

end Enumerated

/-- The invariant of the initial stage, with the compositor `c`. -/
structure EnumeratingWith (registry : Wobject) (c : Compositor) (v : View) : Prop where
  stands : Stands c 0 v.vars.toMembers v
  enumerated : Enumerated registry c v.vars.toMembers

def Enumerating (registry : Wobject) (v : View) : Prop :=
  ∃ c, EnumeratingWith registry c v

/-- The wanted globals are bound. -/
def Equipped (v : View) : Prop :=
  ∃ members c, Bound members c ∧ Stands c 0 members v

namespace Program

variable {build : Build} {host : Host σ} {sender : Sender σ} {registry : Wobject}
variable {c : Compositor}

theorem onFatalError_meets {P E : View → Prop} {Q : Unit → View → Prop} (payload : List Byte)
    (hstop : ∀ v, P v → E v)
    (hprint : ∀ v lines, P v →
      E { v with vars := { v.vars with stdout := v.vars.stdout ++ lines } }) :
    Meets P (onFatalError build payload : Program σ Unit) Q E := by
  refine Programs.bind (interpert_meets hstop) fun args => ?_
  split
  · refine Programs.bind (print_meets (Q := fun _ => E) fun v hv => hprint v _ hv) fun _ => ?_
    exact stops fun _ hw => hw
  · exact stops fun _ hw => hstop _ hw

/-- The id for a global that was found. -/
structure Reserved (registry : Wobject) (c : Compositor) (m : Member) (id : Wobject) (v : View) :
    Prop where
  id_eq : id.toNat = c.objects.length
  stands : Stands c 1 v.vars.toMembers v
  registry_eq : v.vars.ids .registry = some registry
  isRegistry : c.interfaceOf registry = some .wlRegistry
  enumerated : Enumerated registry { c with objects := c.objects ++ [globalInterface m] }
    v.vars.toMembers

/-- A global was found, but the member `m` is not assigned yet. -/
structure Finding (registry : Wobject) (c : Compositor) (m : Member) (fresh : ℕ) (v : View) :
    Prop where
  stands : Stands c fresh v.vars.toMembers v
  before : ∃ members, Enumerated registry c members ∧ v.vars.ids = members.ids ∧
    ∀ m', v.vars.isFound m' = true → m' = m ∨ members.isFound m' = true

theorem reserveFound_meets {E : View → Prop} {found : Variables → Variables} {m : Member}
    (hfinds : Finds found m) (hroom : c.objects.length < 2 ^ 32) :
    Meets (EnumeratingWith registry c) (reserveFound found m : Program σ (Option Wobject))
      (fun r v => ∃ id, r = some id ∧ Reserved registry c m id v) E := by
  refine Programs.bind (modifyVariables_meets (Q := fun _ => Finding registry c m 0) ?_)
    fun _ => ?_
  · rintro v ⟨hv, henumerated⟩
    refine ⟨⟨?_, hv.nextNewId, ?_, rfl, ?_, ?_⟩, v.vars.toMembers, henumerated,
      hfinds.ids v.vars, hfinds.isFound v.vars⟩
    · dsimp only
      rw [hfinds.log]
      exact hv.accepts
    · dsimp only
      rw [hfinds.reserved]
      exact hv.reserved
    · rw [Booked]
      dsimp only
      rw [hfinds.log, hfinds.sent]
      exact hv.booked
    · exact (hfinds.readIndeterminate _).trans hv.determinate
  refine Programs.bind (Q := fun id w => Reserved registry c m id (view w)) ?_ fun id => ?_
  · refine Programs.bind (reserveObjectId_meets
      (Q := fun id v => id.toNat = c.objects.length ∧ Finding registry c m 1 v) ?_) fun id => ?_
    · rintro v ⟨hv, hbefore⟩
      refine ⟨?_, ⟨hv.accepts, ?_, ?_, rfl, hv.booked, hv.determinate⟩, hbefore⟩
      · rw [hv.nextNewId]
        exact toNat_ofNat_add hroom
      · dsimp only
        rw [hv.nextNewId]
        exact (BitVec.ofNat_add _ 1).symm
      · dsimp only
        have hreserved := hv.reserved
        rw [List.length_append, List.length_singleton]
        omega
    refine pure_pre fun hid => ?_
    refine Programs.bind (modifyVariables_meets (Q := fun _ v => Reserved registry c m id v) ?_)
      fun _ => returns fun _ hw => hw
    rintro v ⟨hv, before, henumerated, hids, hfound'⟩
    refine ⟨hid, ⟨hv.accepts, hv.nextNewId, hv.reserved, rfl, hv.booked, hv.determinate⟩, ?_,
      henumerated.registry, ?_⟩
    · dsimp only
      rw [Members.ids_assign, if_neg hfinds.ne_registry.symm, hids]
      exact henumerated.registry_eq
    · exact henumerated.bind hfinds.ne_registry hid hids hfound'
  · exact returns fun _ hw => ⟨id, rfl, hw⟩

/-- What is known when the name of a global was looked at. -/
def LookedAt (registry : Wobject) (c : Compositor) (interface : List Byte) :
    Option Wobject → View → Prop
  | none, v => EnumeratingWith registry c v
  | some id, v => ∃ m, Interface.ofName interface = some (globalInterface m) ∧
      Reserved registry c m id v

theorem idFor_meets {E : View → Prop} (hroom : c.objects.length < 2 ^ 32)
    (interface : List Byte) :
    Meets (EnumeratingWith registry c) (idFor interface : Program σ (Option Wobject))
      (LookedAt registry c interface) E := by
  have hfound : ∀ found m, Finds found m → Wanted interface m →
      Meets (EnumeratingWith registry c) (reserveFound found m : Program σ (Option Wobject))
        (LookedAt registry c interface) E := by
    intro found m hfinds hwanted
    refine consequence (reserveFound_meets hfinds hroom) (fun _ hw => hw) ?_ fun _ hw => hw
    rintro _ w ⟨id, rfl, hreserved⟩
    exact ⟨m, hwanted.interface, hreserved⟩
  obtain ⟨g, heq, hg⟩ := idFor_cases (R := fun x => Meets (EnumeratingWith registry c) x
    (LookedAt registry c interface) E) interface hfound (returns fun _ hw => hw)
  rw [heq]
  refine getVariables_meets fun v hv => ?_
  refine consequence (hg v.vars) ?_ (fun _ _ hw => hw) fun _ hw => hw
  intro w hw
  rw [hw]
  exact hv

/-- Every announced global that the window wants is bound to a new id. -/
theorem onGlobal_meets (payload : List Byte) :
    Meets (WhileLasts (Enumerating registry)) (onGlobal build host payload : Program σ Unit)
      (fun _ => WhileLasts (Enumerating registry)) (WhileLasts Safe) := by
  refine (Grows.onGlobal payload).while_lasts ?_
  have hone (c : Compositor) (hroom : c.objects.length < 2 ^ 32) :
      Meets (EnumeratingWith registry c) (onGlobal build host payload : Program σ Unit)
        (fun _ => Enumerating registry) Safe := by
    refine Programs.bind (interpert_meets fun _ hv => hv.stands.safe) fun args => ?_
    split
    · rename_i name interface version
      let c' := c.hear (.global name interface version)
      refine Programs.bind (hear_meets (Q := fun _ => EnumeratingWith registry c') ?_) fun _ => ?_
      · exact fun v hv =>
          ⟨hv.stands.heard _ rfl, hv.enumerated.heard name interface version⟩
      refine Programs.bind (idFor_meets (c := c') hroom interface) fun r => ?_
      cases r with
      | none => exact returns fun w hw => ⟨c', hw⟩
      | some id =>
          refine exists_pre fun m => ?_
          refine pure_pre fun hname => ?_
          refine bind_eq (valueOf_meets fun v hv => hv.registry_eq) ?_
          refine registerRequest_meets (fun v hv => hv.stands.safe) ?_
          rintro v ⟨hid, hstands, -, hregistry, henumerated⟩ request hrequest
          have haccepted := request_bind hregistry hid
            List.mem_cons_self hname
          exact ⟨_, hstands.queued hrequest haccepted (by simp), henumerated⟩
    · exact stops fun _ hw => hw.stands.safe
  have hall := exists_pre fun c => pure_pre fun hroom : c.objects.length < 2 ^ 32 => hone c hroom
  refine consequence hall ?_ (fun _ _ h => h) fun _ h => h
  rintro w ⟨hlasts, c, hw⟩
  have hreserved := hw.stands.reserved
  rw [Lasts] at hlasts
  exact ⟨c, by omega, hw⟩

/-- Only these overloads are in the set. -/
def Among (overloads : List Overload) (mos : MessageOverloadSet Overload) : Prop :=
  ∀ objId opcode ov, mos.overloadResolution objId opcode = some ov → ov ∈ overloads

theorem addOverload_meets {P E : View → Prop} {overloads : List Overload}
    {mos : MessageOverloadSet Overload} (hmos : Among overloads mos) (objId : Wobject)
    (opcode : Wopcode) (overload : Overload) (hstop : ∀ v, P v → E v) :
    Meets P (addOverload mos objId opcode overload : Program σ _)
      (fun mos' v => Among (overload :: overloads) mos' ∧ P v) E := by
  have hamong : Among (overload :: overloads) (mos.addOverload objId opcode overload).2 := by
    intro objId' opcode' ov hresolution
    rw [MessageOverloadSet.overloadResolution_addOverload] at hresolution
    split at hresolution
    · cases hresolution
      exact List.mem_cons_self
    · exact List.mem_cons_of_mem _ (hmos _ _ _ hresolution)
  rw [addOverload]
  split
  · exact stops fun _ hw => hstop _ hw
  · rename_i hadd
    rw [hadd] at hamong
    exact returns fun _ hw => ⟨hamong, hw⟩

theorem fatalErrorOverloads_meets {P E : View → Prop} (hstop : ∀ v, P v → E v) :
    Meets P (fatalErrorOverloads : Program σ _) (fun mos v => Among [.fatalError] mos ∧ P v) E :=
  addOverload_meets (fun _ _ _ hresolution => by cases hresolution) _ _ _ hstop

/-- Conformance, as long as there are ids. -/
theorem lasting {P : View → Prop} {x : Program σ α} {Q : α → View → Prop} (h : Meets P x Q Safe) :
    Meets P x Q (WhileLasts Safe) :=
  consequence h (fun _ hw => hw) (fun _ _ hw => hw) fun _ hw _ => hw

theorem initialStage_meets {fuel : ℕ} :
    Meets (Stands {} 0 {}) (initialStage build host sender fuel)
      (fun _ => WhileLasts Equipped) (WhileLasts Safe) := by
  let c₁ : Compositor := { objects := [.null, .wlDisplay, .wlRegistry] }
  let c₂ : Compositor := { objects := [.null, .wlDisplay, .wlRegistry, .wlCallback] }
  let members : Members := (Members.assign {} .registry 2).assign .sync 3
  have hsafe : ∀ v, WhileLasts (Enumerating 2) v → WhileLasts Safe v := by
    intro v hv hlasts
    obtain ⟨c, hc⟩ := hv hlasts
    exact hc.stands.safe
  rw [initialStage]
  refine bind_eq (reserveId_stands .registry) ?_
  refine bind_eq (reserveId_stands .sync) ?_
  have haccepted₁ : Compositor.request {} globalDisplayObject (getRegistry 2) = some c₁ :=
    request_getRegistry rfl rfl
  have haccepted₂ : c₁.request globalDisplayObject (sync 3) = some c₂ := request_sync rfl rfl
  refine Programs.bind (lasting (registerRequest_stands 1 haccepted₁ rfl)) fun _ => ?_
  refine Programs.bind (lasting (registerRequest_stands 0 haccepted₂ rfl)) fun _ => ?_
  refine Programs.bind (lasting flush_stands) fun _ => ?_
  refine Programs.bind (fatalErrorOverloads_meets fun _ hv _ => hv.stands.safe) fun mos => ?_
  refine pure_pre fun hmos => ?_
  refine bind_eq (valueOf_meets (m := .registry) (i := 2) ?_) ?_
  · rintro v ⟨hv, -⟩
    rw [hv.members]
    rfl
  refine Programs.bind (addOverload_meets hmos _ _ _ fun _ hv _ => hv.stands.safe) fun mos => ?_
  refine pure_pre fun hmos => ?_
  refine bind_eq (valueOf_meets (m := .sync) (i := 3) ?_) ?_
  · rintro v ⟨hv, -⟩
    rw [hv.members]
    rfl
  refine Programs.bind (P := fun w => Flushed c₂ 0 members (view w))
    (Q := fun _ w => WhileLasts (Enumerating 2) (view w)) ?_ fun _ => ?_
  · have hrecv : Meets (WhileLasts (Enumerating 2)) (recvUntil host fuel
        { mos := mos, untilObjId := 3, untilOpcode := doneOpcode, callback := false }
        (objects build host fun _ => return ())) (fun _ => WhileLasts (Enumerating 2))
        (WhileLasts Safe) := by
      refine recvUntil_meets ?_ (fun _ => returns fun _ hw => hw) (fun _ _ hv => hv) ?_ ?_
      · intro objId opcode ov payload hresolution
        cases ov with
        | fatalError =>
            exact onFatalError_meets payload hsafe fun v lines hv hlasts =>
              (hsafe v hv hlasts).printed lines
        | global => exact onGlobal_meets payload
        | ping => exact absurd (hmos _ _ _ hresolution) (by decide)
      · exact hsafe
      · exact hsafe
    refine consequence hrecv ?_ (fun _ _ hw => hw) fun _ hw => hw
    rintro w ⟨hw, -⟩ -
    have hmembers := hw.members
    refine ⟨c₂, hmembers ▸ hw, ?_⟩
    rw [hmembers]
    refine ⟨rfl, rfl, ?_, rfl, rfl, rfl, rfl⟩
    rintro (_ | _) hm <;> cases hm
  refine getVariables_meets fun v hv => ?_
  split
  · refine Programs.bind (print_meets (P := fun v' => v' = v) (Q := fun _ => WhileLasts Safe) ?_)
      fun _ => ?_
    · intro v' hv' hlasts
      rw [hv'] at hlasts ⊢
      exact (hsafe v hv hlasts).printed _
    · exact stops fun _ hw => hw
  · rename_i hfound
    obtain ⟨hshm, hcompositor, hwmBase⟩ := not_not.mp hfound
    have hflush : Meets (fun v => Lasts v ∧ Equipped v) (flush sender : Program σ Unit)
        (fun _ => Equipped) Safe := by
      have hone (members : Members) (c : Compositor) (hbound : Bound members c) :
          Meets (Stands c 0 members) (flush sender : Program σ Unit) (fun _ => Equipped) Safe :=
        consequence flush_stands (fun _ hw => hw)
          (fun _ _ hw => ⟨members, c, hbound, hw.stands⟩) fun _ hw => hw
      refine consequence (exists_pre fun members => exists_pre fun c => pure_pre (hone members c))
        ?_ (fun _ _ hw => hw) fun _ hw => hw
      exact fun _ hw => hw.2
    refine consequence (Grows.flush.while_lasts hflush) ?_ (fun _ _ hw => hw) fun _ hw => hw
    rintro w rfl hlasts
    obtain ⟨c, hc⟩ := hv hlasts
    exact ⟨_, c, hc.enumerated.bound hshm hcompositor hwmBase, hc.stands⟩

end Program

/-! ## The config stage -/

/-- The window is set up and waits. -/
def Waiting (picture : Picture) (n : Names) (members : Members) (v : View) : Prop :=
  ∃ c, Ready picture n c ∧ Stands c 0 members v

/-- A configure event was acked. -/
def Configured (picture : Picture) (n : Names) (members : Members) (v : View) : Prop :=
  ∃ c, (Ready picture n c ∧ n.surface ∈ c.configured) ∧ Stands c 0 members v

/-- Nothing but the picture is shown, on the surface of the window. -/
structure Shows (picture : Picture) (n : Names) (c : Compositor) : Prop where
  surface : c.interfaceOf n.surface = some .wlSurface
  buffer : c.interfaceOf n.buffer = some .wlBuffer
  content : c.buffers.lookup n.buffer = some picture.content
  contents : c.contents = [(n.surface, n.buffer)]

/-- The picture is shown, and all requests are on the socket. -/
structure Shown (picture : Picture) (n : Names) (members : Members) (c : Compositor) (v : View) :
    Prop where
  assigned : n.Assigned members
  flushed : Flushed c 0 members v
  wmBase : c.interfaceOf n.wmBase = some .xdgWmBase
  shows : Shows picture n c

def IsShown (picture : Picture) (v : View) : Prop :=
  ∃ n members c, Shown picture n members c v

namespace Program

variable {build : Build} {host : Host σ} {sender : Sender σ} {picture : Picture} {fuel : ℕ}
variable {n : Names} {members : Members} {c : Compositor}

theorem defaultOverloads_meets {P E : View → Prop} {wmBase : Wobject}
    (hwmBase : ∀ v, P v → v.vars.ids .wmBase = some wmBase) (hstop : ∀ v, P v → E v) :
    Meets P (defaultOverloads : Program σ _)
      (fun mos v => Among [.ping, .fatalError] mos ∧ P v) E := by
  refine Programs.bind (fatalErrorOverloads_meets hstop) fun mos => ?_
  refine pure_pre fun hmos => ?_
  refine bind_eq (valueOf_meets hwmBase) ?_
  exact addOverload_meets hmos _ _ _ hstop

/-- The rule of `until` with the default overloads. -/
theorem recvUntil_default {P Q : View → Prop} {call : UntilCall Overload}
    {untilCallback : List Byte → Program σ Unit} (hmos : Among [.ping, .fatalError] call.mos)
    (hcallback : call.callback = true)
    (hping : ∀ payload, Meets P (onPing build host payload) (fun _ => P) Safe)
    (huntil : ∀ payload, Meets P (untilCallback payload) (fun _ => Q) Safe)
    (hP : ∀ v, P v → Safe v) (hQ : ∀ v, Q v → Safe v) :
    Meets P (recvUntil host fuel call (objects build host untilCallback)) (fun _ => Q) Safe := by
  refine recvUntil_meets ?_ huntil (fun hnone => absurd (hnone.symm.trans hcallback) (by decide))
    hP hQ
  intro objId opcode ov payload hresolution
  cases ov with
  | fatalError => exact onFatalError_meets payload hP fun v lines hv => (hP v hv).printed lines
  | global => exact absurd (hmos _ _ _ hresolution) (by decide)
  | ping => exact hping payload

theorem waiting_safe (v : View) (h : Waiting picture n members v) : Safe v := by
  obtain ⟨c, -, hstands⟩ := h
  exact hstands.safe

theorem waiting_ids {m : Member} {i : Wobject} (h : members.ids m = some i) (v : View)
    (hv : Waiting picture n members v) : v.vars.ids m = some i := by
  obtain ⟨c, -, hstands⟩ := hv
  rw [hstands.members, h]

theorem onPing_waiting (hassigned : n.Assigned members) (payload : List Byte) :
    Meets (Waiting picture n members) (onPing build host payload)
      (fun _ => Waiting picture n members) Safe := by
  refine answer_meets (waiting_ids hassigned.wmBase) waiting_safe ?_ ?_
  · rintro v serial ⟨c, -, hstands⟩
    exact (hstands.heard (.ping n.wmBase serial) rfl).safe
  · rintro v serial request ⟨c, hready, hstands⟩ hrequest
    have haccepted := request_pong (c := c.hear (.ping n.wmBase serial)) hready.wmBase
      List.mem_cons_self
    refine ⟨_, ?_, (hstands.heard _ rfl).queued hrequest haccepted rfl⟩
    exact ⟨hready.buffer, hready.content, hready.surface, hready.wmBase, hready.xdgSurface,
      hready.xdgSurfaces, hready.constructed, hready.pending, hready.contents⟩

theorem onConfigure_waiting (hassigned : n.Assigned members) (payload : List Byte) :
    Meets (Waiting picture n members) (onConfigure build host payload)
      (fun _ => Configured picture n members) Safe := by
  refine answer_meets (waiting_ids hassigned.xdgSurface) waiting_safe ?_ ?_
  · rintro v serial ⟨c, -, hstands⟩
    exact (hstands.heard (.configure n.xdgSurface serial) rfl).safe
  · rintro v serial request ⟨c, hready, hstands⟩ hrequest
    have hlookup : c.xdgSurfaces.lookup n.xdgSurface = some n.surface := by
      rw [hready.xdgSurfaces, List.lookup_cons_self]
    have hconstructed : n.xdgSurface ∈ c.constructed := by
      rw [hready.constructed]
      exact List.mem_singleton_self _
    have haccepted := request_ackConfigure (c := c.hear (.configure n.xdgSurface serial))
      hready.xdgSurface hlookup hconstructed List.mem_cons_self
    refine ⟨_, ⟨?_, List.mem_cons_self⟩, (hstands.heard _ rfl).queued hrequest haccepted rfl⟩
    exact ⟨hready.buffer, hready.content, hready.surface, hready.wmBase, hready.xdgSurface,
      hready.xdgSurfaces, hready.constructed, hready.pending, hready.contents⟩

/-- Attaching and committing the buffer shows it. -/
theorem show_accepted (hready : Ready picture n c) (hconfigured : n.surface ∈ c.configured) :
    ∃ c₁ c₂, c.request n.surface (attach n.buffer 0 0) = some c₁ ∧
      c₁.request n.surface commit = some c₂ ∧ c₁.objects = c.objects ∧
      c₂.objects = c.objects ∧ Shows picture n c₂ := by
  let c₁ : Compositor := { c with pending := (n.surface, n.buffer) :: c.pending }
  have hcommit : c₁.commit n.surface =
      { c with
        pending := c₁.pending.filter fun attached => attached.1 ≠ n.surface
        contents := (n.surface, n.buffer) :: c.contents } := by
    simp [Compositor.commit, c₁]
  refine ⟨c₁, c₁.commit n.surface, request_attach hready.surface hready.buffer hconfigured,
    request_commit hready.surface, rfl, ?_, ?_⟩
  · rw [hcommit]
  · rw [hcommit]
    exact ⟨hready.surface, hready.buffer, hready.content, by rw [hready.contents]⟩

/-- The config stage from its first wait on. -/
theorem waitAndShow_meets (hassigned : n.Assigned members) :
    Meets (Waiting picture n members) (do
      let call : UntilCall Overload :=
        { mos := ← defaultOverloads
          untilObjId := ← valueOf .xdgSurface
          untilOpcode := configureOpcode
          callback := true }
      recvUntil host fuel call (objects build host (onConfigure build host))
      registerRequest build host (← valueOf .wlSurface) (attach (← valueOf .buffer) 0 0)
      registerRequest build host (← valueOf .wlSurface) commit
      flush sender) (fun _ => IsShown picture) Safe := by
  refine Programs.bind (defaultOverloads_meets (waiting_ids hassigned.wmBase) waiting_safe)
    fun mos => ?_
  refine pure_pre fun hmos => ?_
  refine bind_eq (valueOf_meets (waiting_ids hassigned.xdgSurface)) ?_
  refine Programs.bind (recvUntil_default (Q := Configured picture n members) hmos ?_
    (onPing_waiting hassigned) (onConfigure_waiting hassigned) waiting_safe ?_) fun _ => ?_
  · rfl
  · rintro v ⟨c, -, hstands⟩
    exact hstands.safe
  refine exists_pre fun c => ?_
  refine pure_pre fun hc => ?_
  obtain ⟨hready, hconfigured⟩ := hc
  obtain ⟨c₁, c₂, haccepted, hcommit, hobjects₁, hobjects₂, hshows⟩ :=
    show_accepted hready hconfigured
  refine bind_eq (valueOf_stands hassigned.wlSurface) ?_
  refine bind_eq (valueOf_stands hassigned.buffer) ?_
  refine Programs.bind (registerRequest_stands 0 haccepted (by rw [hobjects₁])) fun _ => ?_
  refine bind_eq (valueOf_stands hassigned.wlSurface) ?_
  refine Programs.bind (registerRequest_stands 0 hcommit (by rw [hobjects₁, hobjects₂])) fun _ => ?_
  refine consequence flush_stands (fun _ hw => hw) ?_ fun _ hw => hw
  intro _ w hw
  have hbehind : c₂.objects = c.objects ++ [] := by rw [hobjects₂, List.append_nil]
  exact ⟨n, members, c₂, hassigned, hw, Compositor.interfaceOf_of_append hready.wmBase hbehind,
    hshows⟩

theorem configStage_meets (hpicture : picture.Drawable) :
    Meets (WhileLasts Equipped) (configStage build host sender fuel picture)
      (fun _ => WhileLasts (IsShown picture)) (WhileLasts Safe) := by
  refine Grows.configStage.while_lasts ?_
  have hone (members : Members) (c : Compositor) (hroom : c.objects.length + 8 < 2 ^ 32)
      (hbound : Bound members c) :
      Meets (Stands c 0 members) (configStage build host sender fuel picture)
        (fun _ => IsShown picture) Safe := by
    rw [configStage]
    refine Programs.bind (setUp_meets hpicture hroom hbound) fun _ => ?_
    refine consequence
      (P := fun w => ∃ n members, n.Assigned members ∧ Waiting picture n members (view w))
      (exists_pre fun n => exists_pre fun members => pure_pre fun hassigned => ?_) ?_
      (fun _ _ hw => hw) fun _ hw => hw
    · exact waitAndShow_meets hassigned
    · rintro w ⟨n, members, c, ⟨hassigned, hready⟩, hstands⟩
      exact ⟨n, members, hassigned, c, hready, hstands⟩
  have hall := exists_pre fun members => exists_pre fun c =>
    pure_pre fun hroom : c.objects.length + 8 < 2 ^ 32 => pure_pre (hone members c hroom)
  refine consequence hall ?_ (fun _ _ hw => hw) fun _ hw => hw
  rintro w ⟨hlasts, members, c, hbound, hstands⟩
  have hreserved := hstands.reserved
  rw [Lasts] at hlasts
  exact ⟨members, c, by omega, hbound, hstands⟩

end Program

/-! ## Until the window is closed -/

/-- Pings that were received on `xdg_wm_base`, each with its answer behind it. -/
inductive Answered (wmBase : Wobject) : List Exchange → Prop
  | nil : Answered wmBase []
  | ping {log : List Exchange} (h : Answered wmBase log) {serial : BitVec 32} {request : Request}
      (hrequest : request.pair = (wmBase, pong serial)) :
      Answered wmBase (log ++ [.heard (.ping wmBase serial), .asked request])

/-- The requests of `shown` have shown the picture and are what is on the socket.  What was
registered after them answers pings. -/
structure ClosedAfter (picture : Picture) (n : Names) (shown rest : List Exchange) (v : View) :
    Prop where
  log : v.vars.log = shown ++ rest
  showed : ∃ c, Compositor.Accepts shown c ∧ Shows picture n c
  bytes : sentBytes v.vars.sent = Request.bytes (asked shown)
  fds : sentFds v.vars.sent = Request.fds (asked shown)
  answered : Answered n.wmBase rest

/-- The invariant while the window waits to be closed. -/
def Closing (picture : Picture) (n : Names) (members : Members) (v : View) : Prop :=
  ∃ c shown rest, (Stands c 0 members v ∧ c.interfaceOf n.wmBase = some .xdgWmBase) ∧
    ClosedAfter picture n shown rest v

/-- What is known when the window was closed. -/
structure Closed (picture : Picture) (v : View) : Prop where
  safe : Safe v
  closed : ∃ n shown rest, n.Assigned v.vars.toMembers ∧ ClosedAfter picture n shown rest v

section Closing

variable {picture : Picture} {n : Names} {members : Members} {c : Compositor} {v : View}

theorem Shown.closing (h : Shown picture n members c v) : Closing picture n members v := by
  obtain ⟨flushed, queue, hasked, hbuff, hbytes, hfds⟩ := h.flushed.stands.booked
  rw [h.flushed.queue] at hbuff
  obtain ⟨hnobytes, hnofds⟩ := MessageBuffer.mk.inj hbuff
  refine ⟨c, v.vars.log, [], ⟨h.flushed.stands, h.wmBase⟩, (List.append_nil _).symm,
    ⟨c, h.flushed.stands.accepts, h.shows⟩, ?_, ?_, .nil⟩
  · rw [hasked, Request.bytes_append, ← hnobytes, List.append_nil, hbytes]
  · rw [hasked, Request.fds_append, ← hnofds, List.append_nil, hfds]

theorem Closing.safe (h : Closing picture n members v) : Safe v := by
  obtain ⟨c, shown, rest, ⟨hstands, -⟩, -⟩ := h
  exact hstands.safe

theorem Closing.closed (h : Closing picture n members v) (hassigned : n.Assigned members) :
    Closed picture v := by
  obtain ⟨c, shown, rest, ⟨hstands, -⟩, hclosed⟩ := h
  exact ⟨hstands.safe, n, shown, rest, hstands.members ▸ hassigned, hclosed⟩

/-- A ping is answered. -/
theorem Closing.answered (h : Closing picture n members v) {serial : BitVec 32}
    {request : Request} (hrequest : request.pair = (n.wmBase, pong serial)) :
    Closing picture n members ((v.heard (.ping n.wmBase serial)).queued request) := by
  obtain ⟨c, shown, rest, ⟨hstands, hwmBase⟩, hclosed⟩ := h
  have haccepted := request_pong (c := c.hear (.ping n.wmBase serial)) hwmBase List.mem_cons_self
  refine ⟨_, shown, rest ++ [.heard (.ping n.wmBase serial), .asked request],
    ⟨(hstands.heard _ rfl).queued hrequest haccepted rfl, hwmBase⟩, ?_, hclosed.showed,
    hclosed.bytes, hclosed.fds, hclosed.answered.ping hrequest⟩
  rw [View.queued, View.heard, hclosed.log]
  simp

end Closing

namespace Program

variable {build : Build} {host : Host σ} {sender : Sender σ} {picture : Picture} {fuel : ℕ}
variable {n : Names} {members : Members}

theorem closing_ids {m : Member} {i : Wobject} (h : members.ids m = some i) (v : View)
    (hv : Closing picture n members v) : v.vars.ids m = some i := by
  obtain ⟨c, shown, rest, ⟨hstands, -⟩, -⟩ := hv
  rw [hstands.members, h]

theorem onPing_closing (hassigned : n.Assigned members) (payload : List Byte) :
    Meets (Closing picture n members) (onPing build host payload)
      (fun _ => Closing picture n members) Safe := by
  refine answer_meets (closing_ids hassigned.wmBase) (fun _ hv => hv.safe) ?_ ?_
  · rintro v serial ⟨c, shown, rest, ⟨hstands, -⟩, -⟩
    exact (hstands.heard (.ping n.wmBase serial) rfl).safe
  · exact fun v serial request hv hrequest => hv.answered hrequest

theorem onClose_meets {P E : View → Prop} (payload : List Byte) (hstop : ∀ v, P v → E v) :
    Meets P (onClose build payload : Program σ Unit) (fun _ => P) E := by
  refine Programs.bind (interpert_meets hstop) fun args => ?_
  split
  · exact returns fun _ hw => hw
  · exact stops fun _ hw => hstop _ hw

theorem waitForCloseEvent_meets :
    Meets (IsShown picture) (waitForCloseEvent build host fuel) (fun _ => Closed picture) Safe := by
  have hone (n : Names) (members : Members) (hassigned : n.Assigned members) :
      Meets (Closing picture n members) (waitForCloseEvent build host fuel)
        (fun _ => Closed picture) Safe := by
    rw [waitForCloseEvent]
    refine Programs.bind (defaultOverloads_meets (closing_ids hassigned.wmBase)
      fun _ hv => hv.safe) fun mos => ?_
    refine pure_pre fun hmos => ?_
    refine bind_eq (valueOf_meets (closing_ids hassigned.toplevel)) ?_
    refine consequence (recvUntil_default (P := Closing picture n members)
      (Q := Closing picture n members) hmos ?_
      (onPing_closing hassigned) (fun payload => onClose_meets payload fun _ hv => hv.safe)
      (fun _ hv => hv.safe) fun _ hv => hv.safe) ?_ ?_ fun _ hw => hw
    · rfl
    · exact fun _ hw => hw
    · exact fun _ _ hw => hw.closed hassigned
  refine consequence (exists_pre fun n => exists_pre fun members => pure_pre (hone n members)) ?_
    (fun _ _ hw => hw) fun _ hw => hw
  rintro w ⟨n, members, c, hshown⟩
  exact ⟨n, members, hshown.assigned, hshown.closing⟩

theorem main_meets (hpicture : picture.Drawable) :
    Meets (Stands {} 0 {}) (main build host sender fuel picture)
      (fun _ => WhileLasts (Closed picture)) (WhileLasts Safe) := by
  have hclose : Meets (WhileLasts (IsShown picture)) (waitForCloseEvent build host fuel)
      (fun _ => WhileLasts (Closed picture)) (WhileLasts Safe) :=
    Grows.waitForCloseEvent.while_lasts
      (consequence waitForCloseEvent_meets (fun _ hw => hw.2) (fun _ _ hw => hw) fun _ hw => hw)
  refine Programs.bind (Q := fun _ w => WhileLasts (IsShown picture) (view w)) ?_ fun _ => hclose
  exact Programs.bind initialStage_meets fun _ => configStage_meets hpicture

end Program

theorem stands_start (server : σ) :
    Stands {} 0 {} (view (.start (server, {}) : Window σ)) :=
  ⟨rfl, rfl, rfl, rfl, ⟨[], [], rfl, rfl, rfl, rfl⟩, rfl⟩

/-! ## A run -/

def event (obj opcode : ℕ) (payload : List Byte) : List Byte :=
  toBytes 4 obj ++ toBytes 2 opcode ++ toBytes 2 (8 + payload.length) ++ payload

/-- `wl_registry::event::global`, with `padding` bytes behind the name. -/
def announcement (name : ℕ) (interface : List Byte) (padding : ℕ) : List Byte :=
  event 2 0 (toBytes 4 name ++ toBytes 4 (interface.length + 1) ++ interface ++
    List.replicate (padding + 1) 0 ++ toBytes 4 1)

/-- Three globals, the answer to `sync`, a configure event, a ping, and the close event. -/
def closingServer : List Byte :=
  announcement 1 shmName 1 ++ announcement 2 compositorName 2 ++ announcement 3 wmBaseName 0 ++
    event 3 0 (toBytes 4 0) ++ event 10 0 (toBytes 4 5) ++ event 6 0 (toBytes 4 9) ++
    event 11 1 []

def pixel : Picture where
  width := 1
  height := 1
  buff := ⟨7⟩

theorem pixel_drawable : pixel.Drawable where
  width_pos := by decide
  height_pos := by decide
  size_lt := by decide

theorem pixel_closes :
    ∃ w, (Program.main .unchecked (boundedServer 99).toHost takingSender 50 pixel).run.run
        (.start (closingServer, {})) = some (.ok (), w) ∧ Lasts (view w) := by
  have hrun : ((Program.main .unchecked (boundedServer 99).toHost takingSender 50 pixel).run.run
      (.start (closingServer, {}))).any (fun r => r.1.toBool && decide
        (r.2.client.serverSock.server.2.reserved.length + 10 < 2 ^ 32)) = true := by
    decide +kernel
  obtain ⟨⟨r, w⟩, hmain, hends⟩ := (Option.any_eq_true _ _).mp hrun
  obtain ⟨hok, hlasts⟩ := Bool.and_eq_true_iff.mp hends
  cases r with
  | ok a =>
      have hroom := of_decide_eq_true hlasts
      exact ⟨w, hmain, hroom⟩
  | error e => cases hok

/-! ## The main results -/

/-- Whatever the server sends and however the run ends, the requests of the window are
accepted, and those on the socket are the first of them. -/
theorem main_safe (build : Build) (host : Host σ) (sender : Sender σ) (fuel : ℕ)
    {picture : Picture} (hpicture : picture.Drawable) (server : σ) {r : Except Stop Unit}
    {w : Window σ}
    (h : (Program.main build host sender fuel picture).run.run (.start (server, {})) = some (r, w))
    (hlasts : Lasts (view w)) : Safe (view w) := by
  have hends := triple_iff.mp (Program.main_meets hpicture) _ r w (stands_start server) h
  cases r with
  | ok a => exact (hends hlasts).safe
  | error e => exact hends hlasts

theorem main_safe_pixel :
    ∃ w, (Program.main .unchecked (boundedServer 99).toHost takingSender 50 pixel).run.run
        (.start (closingServer, {})) = some (.ok (), w) ∧ Safe (view w) := by
  obtain ⟨w, hrun, hlasts⟩ := pixel_closes
  exact ⟨w, hrun, main_safe _ _ _ _ pixel_drawable _ hrun hlasts⟩

/-- When the window was closed, the requests on the socket had shown the picture, and only
answers to pings were not sent. -/
theorem main_shows (build : Build) (host : Host σ) (sender : Sender σ) (fuel : ℕ)
    {picture : Picture} (hpicture : picture.Drawable) (server : σ) {w : Window σ}
    (h : (Program.main build host sender fuel picture).run.run (.start (server, {})) =
      some (.ok (), w))
    (hlasts : Lasts (view w)) :
    ∃ n shown rest, n.Assigned (view w).vars.toMembers ∧
      ClosedAfter picture n shown rest (view w) :=
  (triple_iff.mp (Program.main_meets hpicture) _ _ w (stands_start server) h hlasts).closed

theorem main_shows_pixel :
    ∃ w, (Program.main .unchecked (boundedServer 99).toHost takingSender 50 pixel).run.run
        (.start (closingServer, {})) = some (.ok (), w) ∧
      ∃ n shown rest, n.Assigned (view w).vars.toMembers ∧
        ClosedAfter pixel n shown rest (view w) := by
  obtain ⟨w, hrun, hlasts⟩ := pixel_closes
  exact ⟨w, hrun, main_shows _ _ _ _ pixel_drawable _ hrun hlasts⟩

end StaticPicture

end Waylander
