import Waylander.Client.Conversation

/-!
# A compositor

What the protocols ask of the requests of a client that shows a picture, as far as
their descriptions say when an error is raised.  Ids are chosen in order and never
again, a request belongs to the interface of its object, and so on.  A request that
breaks a rule is not accepted.
-/

namespace Waylander

inductive Interface
  /-- Object 0, and objects that were destroyed. -/
  | null
  | wlDisplay
  | wlRegistry
  | wlCallback
  | wlCompositor
  | wlShm
  | wlShmPool
  | wlBuffer
  | wlSurface
  | xdgWmBase
  | xdgSurface
  | xdgToplevel
  deriving DecidableEq

/-- A `u8` string literal of ASCII characters. -/
def u8 (s : List Char) : List Byte :=
  s.map fun c => BitVec.ofNat 8 c.toNat

@[irreducible] def shmName : List Byte :=
  u8 ['w', 'l', '_', 's', 'h', 'm']

@[irreducible] def compositorName : List Byte :=
  u8 ['w', 'l', '_', 'c', 'o', 'm', 'p', 'o', 's', 'i', 't', 'o', 'r']

@[irreducible] def wmBaseName : List Byte :=
  u8 ['x', 'd', 'g', '_', 'w', 'm', '_', 'b', 'a', 's', 'e']

/-- The globals that can be bound. -/
def Interface.ofName (name : List Byte) : Option Interface :=
  if name = shmName then some .wlShm
  else if name = compositorName then some .wlCompositor
  else if name = wmBaseName then some .xdgWmBase
  else none

inductive ServerEvent
  /-- `wl_registry::event::global` -/
  | global (name : BitVec 32) (interface : List Byte) (version : BitVec 32)
  /-- `xdg_wm_base::event::ping` -/
  | ping (wmBase : Wobject) (serial : BitVec 32)
  /-- `xdg_surface::event::configure` -/
  | configure (xdgSurface : Wobject) (serial : BitVec 32)

/-- What a client hears and asks, in its own order. -/
inductive Exchange
  | heard (event : ServerEvent)
  | asked (request : Request)

/-- The requests of a log. -/
def asked (log : List Exchange) : List Request :=
  log.filterMap fun
    | .heard _ => none
    | .asked request => some request

@[simp] theorem asked_append (log log' : List Exchange) :
    asked (log ++ log') = asked log ++ asked log' :=
  List.filterMap_append

structure Pool where
  fd : Wfd
  size : ℤ

/-- The pixels that a buffer consists of, in the memory of its pool. -/
structure Content where
  fd : Wfd
  offset : ℤ
  width : ℤ
  height : ℤ
  stride : ℤ
  format : BitVec 32
  deriving DecidableEq

structure Compositor where
  /-- The interfaces of the objects 0, 1, 2, ... -/
  objects : List Interface := [.null, .wlDisplay]
  globals : List (BitVec 32 × List Byte × BitVec 32) := []
  pools : List (Wobject × Pool) := []
  buffers : List (Wobject × Content) := []
  /-- The `xdg_surface`s and their surfaces. -/
  xdgSurfaces : List (Wobject × Wobject) := []
  /-- The `xdg_surface`s that have a role. -/
  constructed : List Wobject := []
  /-- Configure events that were not acked. -/
  configures : List (Wobject × BitVec 32) := []
  /-- The surfaces for which a configure event was acked. -/
  configured : List Wobject := []
  /-- Pings that were not answered. -/
  pings : List (Wobject × BitVec 32) := []
  /-- The surfaces and the buffers attached to them. -/
  pending : List (Wobject × Wobject) := []
  /-- The surfaces and the buffers that they show. -/
  contents : List (Wobject × Wobject) := []

namespace Compositor

def interfaceOf (c : Compositor) (id : Wobject) : Option Interface :=
  c.objects[id.toNat]?

/-- The new id is the next one. -/
def create (id : Wobject) (interface : Interface) (c : Compositor) : Option Compositor :=
  if id.toNat = c.objects.length then
    some { c with objects := c.objects ++ [interface] }
  else
    none

def destroy (id : Wobject) (c : Compositor) : Compositor :=
  { c with objects := c.objects.set id.toNat .null }

/-- Whether a buffer lies within its pool, and its rows do not overlap. -/
def BufferFits (size offset width height stride : ℤ) : Prop :=
  0 ≤ offset ∧ 0 < width ∧ 0 < height ∧ 4 * width ≤ stride ∧ offset + stride * height ≤ size

instance (size offset width height stride : ℤ) :
    Decidable (BufferFits size offset width height stride) :=
  inferInstanceAs (Decidable (_ ∧ _ ∧ _ ∧ _ ∧ _))

/-- The surface is that of no `xdg_surface`, or of one for which a configure event was
acked. -/
def MayAttach (c : Compositor) (surface : Wobject) : Prop :=
  surface ∈ c.xdgSurfaces.map Prod.snd → surface ∈ c.configured

instance (c : Compositor) (surface : Wobject) : Decidable (c.MayAttach surface) :=
  inferInstanceAs (Decidable (_ → _))

def displayRequest (c : Compositor) : ℕ → List Argument → Option Compositor
  | 0, [.static (.wnewId callback)] => c.create callback .wlCallback
  | 1, [.static (.wnewId registry)] => c.create registry .wlRegistry
  | _, _ => none

/-- A global is bound as it was announced. -/
def registryRequest (c : Compositor) : ℕ → List Argument → Option Compositor
  | 0, [.static (.wuint name), .wstring interface, .static (.wuint version),
      .static (.wnewId id)] =>
      if (name, interface, version) ∈ c.globals then
        (Interface.ofName interface).bind fun i => c.create id i
      else
        none
  | _, _ => none

def compositorRequest (c : Compositor) : ℕ → List Argument → Option Compositor
  | 0, [.static (.wnewId id)] => c.create id .wlSurface
  | _, _ => none

def shmRequest (c : Compositor) : ℕ → List Argument → Option Compositor
  | 0, [.static (.wnewId id), .wfd fd, .static (.wint size)] =>
      if 0 < size.toInt then
        { c with pools := (id, { fd := fd, size := size.toInt }) :: c.pools }.create id .wlShmPool
      else
        none
  | _, _ => none

def shmPoolRequest (c : Compositor) (pool : Wobject) : ℕ → List Argument → Option Compositor
  | 0, [.static (.wnewId id), .static (.wint offset), .static (.wint width),
      .static (.wint height), .static (.wint stride), .static (.enumInt format)] =>
      (c.pools.lookup pool).bind fun memory =>
        if BufferFits memory.size offset.toInt width.toInt height.toInt stride.toInt then
          let content : Content :=
            { fd := memory.fd
              offset := offset.toInt
              width := width.toInt
              height := height.toInt
              stride := stride.toInt
              format := format }
          { c with buffers := (id, content) :: c.buffers }.create id .wlBuffer
        else
          none
  | 1, [] => some (c.destroy pool)
  | _, _ => none

/-- The pending buffer becomes the contents, if there is one. -/
def commit (c : Compositor) (surface : Wobject) : Compositor :=
  match c.pending.lookup surface with
  | some buffer =>
      { c with
        contents := (surface, buffer) :: c.contents
        pending := c.pending.filter fun attached => attached.1 ≠ surface }
  | none => c

def surfaceRequest (c : Compositor) (surface : Wobject) : ℕ → List Argument → Option Compositor
  | 1, [.static (.wobject buffer), .static (.wint x), .static (.wint y)] =>
      if c.interfaceOf buffer = some .wlBuffer ∧ x = 0 ∧ y = 0 ∧ c.MayAttach surface then
        some { c with pending := (surface, buffer) :: c.pending }
      else
        none
  | 6, [] => some (c.commit surface)
  | _, _ => none

def wmBaseRequest (c : Compositor) (wmBase : Wobject) : ℕ → List Argument → Option Compositor
  | 2, [.static (.wnewId id), .static (.wobject surface)] =>
      if c.interfaceOf surface = some .wlSurface ∧ surface ∉ c.xdgSurfaces.map Prod.snd ∧
          surface ∉ (c.pending ++ c.contents).map Prod.fst then
        { c with xdgSurfaces := (id, surface) :: c.xdgSurfaces }.create id .xdgSurface
      else
        none
  | 3, [.static (.wuint serial)] =>
      if (wmBase, serial) ∈ c.pings then
        some { c with pings := c.pings.erase (wmBase, serial) }
      else
        none
  | _, _ => none

def xdgSurfaceRequest (c : Compositor) (xdgSurface : Wobject) :
    ℕ → List Argument → Option Compositor
  | 1, [.static (.wnewId id)] =>
      if xdgSurface ∉ c.constructed then
        { c with constructed := xdgSurface :: c.constructed }.create id .xdgToplevel
      else
        none
  | 4, [.static (.wuint serial)] =>
      (c.xdgSurfaces.lookup xdgSurface).bind fun surface =>
        if xdgSurface ∈ c.constructed ∧ (xdgSurface, serial) ∈ c.configures then
          some { c with
            configures := c.configures.erase (xdgSurface, serial)
            configured := surface :: c.configured }
        else
          none
  | _, _ => none

/-- A request to an object of the interface, with the opcode and the arguments. -/
def requestTo (c : Compositor) (obj : Wobject) :
    Interface → ℕ → List Argument → Option Compositor
  | .wlDisplay => c.displayRequest
  | .wlRegistry => c.registryRequest
  | .wlCompositor => c.compositorRequest
  | .wlShm => c.shmRequest
  | .wlShmPool => c.shmPoolRequest obj
  | .wlSurface => c.surfaceRequest obj
  | .xdgWmBase => c.wmBaseRequest obj
  | .xdgSurface => c.xdgSurfaceRequest obj
  | _ => fun _ _ => none

def request (c : Compositor) (obj : Wobject) (msg : Message) : Option Compositor :=
  (c.interfaceOf obj).bind fun interface =>
    c.requestTo obj interface msg.opcode.toNat msg.arguments

def hear (c : Compositor) : ServerEvent → Compositor
  | .global name interface version =>
      { c with globals := (name, interface, version) :: c.globals }
  | .ping wmBase serial => { c with pings := (wmBase, serial) :: c.pings }
  | .configure xdgSurface serial => { c with configures := (xdgSurface, serial) :: c.configures }

def step (c : Compositor) : Exchange → Option Compositor
  | .heard event => some (c.hear event)
  | .asked r => c.request r.obj r.msg

/-- Every request of the log is accepted, and in the end the compositor is `c`. -/
def Accepts (log : List Exchange) (c : Compositor) : Prop :=
  log.foldlM step {} = some c

theorem Accepts.concat {log : List Exchange} {c c' : Compositor} {e : Exchange}
    (h : Accepts log c) (hstep : c.step e = some c') : Accepts (log ++ [e]) c' := by
  rw [Accepts] at h ⊢
  rw [List.foldlM_append, h]
  simpa using hstep

theorem request_eq {c : Compositor} {obj : Wobject} {interface : Interface}
    (h : c.interfaceOf obj = some interface) (msg : Message) :
    c.request obj msg = c.requestTo obj interface msg.opcode.toNat msg.arguments := by
  rw [request, h, Option.bind_some]

variable {c c' : Compositor} {id : Wobject} {interface : Interface} {behind : List Interface}

theorem create_eq (hid : id.toNat = c.objects.length) :
    c.create id interface = some { c with objects := c.objects ++ [interface] } := by
  rw [create, if_pos hid]

/-- Objects stay when others are created behind them. -/
theorem interfaceOf_of_append (h : c.interfaceOf id = some interface)
    (hobjects : c'.objects = c.objects ++ behind) : c'.interfaceOf id = some interface := by
  rw [interfaceOf] at h ⊢
  obtain ⟨hlt, -⟩ := List.getElem?_eq_some_iff.mp h
  rw [hobjects, List.getElem?_append_left hlt, h]

theorem interfaceOf_created {j : ℕ} (hid : id.toNat = c.objects.length + j)
    (hobjects : c'.objects = c.objects ++ behind) (hj : behind[j]? = some interface) :
    c'.interfaceOf id = some interface := by
  rw [interfaceOf, hobjects, hid, List.getElem?_append_right (Nat.le_add_right _ _),
    Nat.add_sub_cancel_left, hj]

end Compositor

end Waylander
