import Waylander.Examples.StaticPicture

/-!
# The requests of the window are accepted

For each request of the window, what the compositor must have for it to be accepted,
and how the compositor changes.  The requests of the config stage come in two groups,
those that make the buffer and those that make the surface.
-/

namespace Waylander

namespace StaticPicture

open ListRegistryGlobals (getRegistry sync)

/-! ## Requests that are accepted -/

section Requests

variable {c : Compositor} {obj id : Wobject}

theorem request_getRegistry (hobj : c.interfaceOf obj = some .wlDisplay)
    (hid : id.toNat = c.objects.length) :
    c.request obj (getRegistry id) = some { c with objects := c.objects ++ [.wlRegistry] } := by
  rw [Compositor.request_eq hobj]
  exact Compositor.create_eq hid

theorem request_sync (hobj : c.interfaceOf obj = some .wlDisplay)
    (hid : id.toNat = c.objects.length) :
    c.request obj (sync id) = some { c with objects := c.objects ++ [.wlCallback] } := by
  rw [Compositor.request_eq hobj]
  exact Compositor.create_eq hid

theorem request_bind {name version : BitVec 32} {name' : List Byte} {interface : Interface}
    (hobj : c.interfaceOf obj = some .wlRegistry) (hid : id.toNat = c.objects.length)
    (hglobal : (name, name', version) ∈ c.globals)
    (hname : Interface.ofName name' = some interface) :
    c.request obj (bind name name' version id) =
      some { c with objects := c.objects ++ [interface] } := by
  rw [Compositor.request_eq hobj]
  change (if (name, name', version) ∈ c.globals then
    (Interface.ofName name').bind fun i => c.create id i else none) = _
  rw [if_pos hglobal, hname]
  exact Compositor.create_eq hid

theorem request_createPool {fd : Wfd} {size : BitVec 32}
    (hobj : c.interfaceOf obj = some .wlShm) (hid : id.toNat = c.objects.length)
    (hsize : 0 < size.toInt) :
    c.request obj (createPool id fd size) =
      some { c with
        pools := (id, { fd := fd, size := size.toInt }) :: c.pools
        objects := c.objects ++ [.wlShmPool] } := by
  rw [Compositor.request_eq hobj]
  exact (if_pos hsize).trans (Compositor.create_eq hid)

theorem request_createBuffer {offset width height stride format : BitVec 32} {memory : Pool}
    (hobj : c.interfaceOf obj = some .wlShmPool) (hid : id.toNat = c.objects.length)
    (hpool : c.pools.lookup obj = some memory)
    (hfits : Compositor.BufferFits memory.size offset.toInt width.toInt height.toInt
      stride.toInt) :
    c.request obj (createBuffer id offset width height stride format) =
      some { c with
        buffers := (id, ⟨memory.fd, offset.toInt, width.toInt, height.toInt, stride.toInt,
          format⟩) :: c.buffers
        objects := c.objects ++ [.wlBuffer] } := by
  rw [Compositor.request_eq hobj]
  change ((c.pools.lookup obj).bind fun memory =>
    if Compositor.BufferFits memory.size offset.toInt width.toInt height.toInt stride.toInt then _
    else none) = _
  rw [hpool, Option.bind_some, if_pos hfits]
  exact Compositor.create_eq hid

theorem request_poolDestroy (hobj : c.interfaceOf obj = some .wlShmPool) :
    c.request obj poolDestroy = some (c.destroy obj) := by
  rw [Compositor.request_eq hobj]
  rfl

theorem request_createSurface (hobj : c.interfaceOf obj = some .wlCompositor)
    (hid : id.toNat = c.objects.length) :
    c.request obj (createSurface id) = some { c with objects := c.objects ++ [.wlSurface] } := by
  rw [Compositor.request_eq hobj]
  exact Compositor.create_eq hid

theorem request_attach {buffer : Wobject} (hobj : c.interfaceOf obj = some .wlSurface)
    (hbuffer : c.interfaceOf buffer = some .wlBuffer) (hconfigured : obj ∈ c.configured) :
    c.request obj (attach buffer 0 0) = some { c with pending := (obj, buffer) :: c.pending } := by
  rw [Compositor.request_eq hobj]
  exact if_pos ⟨hbuffer, rfl, rfl, fun _ => hconfigured⟩

theorem request_commit (hobj : c.interfaceOf obj = some .wlSurface) :
    c.request obj commit = some (c.commit obj) := by
  rw [Compositor.request_eq hobj]
  rfl

theorem request_getXdgSurface {surface : Wobject} (hobj : c.interfaceOf obj = some .xdgWmBase)
    (hid : id.toNat = c.objects.length) (hsurface : c.interfaceOf surface = some .wlSurface)
    (hrole : c.xdgSurfaces = []) (hempty : c.pending ++ c.contents = []) :
    c.request obj (getXdgSurface id surface) =
      some { c with
        xdgSurfaces := [(id, surface)]
        objects := c.objects ++ [.xdgSurface] } := by
  rw [Compositor.request_eq hobj]
  have hnorole : surface ∉ c.xdgSurfaces.map Prod.snd := by simp [hrole]
  have hnobuffer : surface ∉ (c.pending ++ c.contents).map Prod.fst := by simp [hempty]
  refine (if_pos ⟨hsurface, hnorole, hnobuffer⟩).trans ?_
  rw [hrole]
  exact Compositor.create_eq hid

theorem request_pong {serial : BitVec 32} (hobj : c.interfaceOf obj = some .xdgWmBase)
    (hping : (obj, serial) ∈ c.pings) :
    c.request obj (pong serial) = some { c with pings := c.pings.erase (obj, serial) } := by
  rw [Compositor.request_eq hobj]
  exact if_pos hping

theorem request_getToplevel (hobj : c.interfaceOf obj = some .xdgSurface)
    (hid : id.toNat = c.objects.length) (hnone : c.constructed = []) :
    c.request obj (getToplevel id) =
      some { c with
        constructed := [obj]
        objects := c.objects ++ [.xdgToplevel] } := by
  rw [Compositor.request_eq hobj]
  have hnorole : obj ∉ c.constructed := by simp [hnone]
  refine (if_pos hnorole).trans ?_
  rw [hnone]
  exact Compositor.create_eq hid

theorem request_ackConfigure {serial : BitVec 32} {surface : Wobject}
    (hobj : c.interfaceOf obj = some .xdgSurface)
    (hsurface : c.xdgSurfaces.lookup obj = some surface) (hconstructed : obj ∈ c.constructed)
    (hconfigure : (obj, serial) ∈ c.configures) :
    c.request obj (ackConfigure serial) =
      some { c with
        configures := c.configures.erase (obj, serial)
        configured := surface :: c.configured } := by
  rw [Compositor.request_eq hobj]
  change ((c.xdgSurfaces.lookup obj).bind fun surface =>
    if obj ∈ c.constructed ∧ (obj, serial) ∈ c.configures then _ else none) = _
  rw [hsurface, Option.bind_some, if_pos ⟨hconstructed, hconfigure⟩]

end Requests

/-- The picture is not empty, and its size is an `int`. -/
structure Picture.Drawable (picture : Picture) : Prop where
  width_pos : 0 < picture.width.toInt
  height_pos : 0 < picture.height.toInt
  size_lt : picture.width.toInt * picture.height.toInt * 4 < 2 ^ 31

namespace Picture.Drawable

variable {picture : Picture}

theorem toInt_eq {x : BitVec 32} (h : 0 < x.toInt) : x.toInt = x.toNat ∧ 0 < x.toNat := by
  rw [BitVec.toInt_eq_toNat_cond] at h ⊢
  have hlt := x.isLt
  split at h
  · rename_i hsmall
    rw [if_pos hsmall]
    omega
  · omega

theorem toInt_of_toNat {x : BitVec 32} {n : ℕ} (h : x.toNat = n) (hn : n < 2 ^ 31) :
    x.toInt = n := by
  rw [BitVec.toInt_eq_toNat_cond, if_pos (by omega), h]

/-- The buffer that is made fits the pool. -/
theorem fits (h : picture.Drawable) :
    0 < picture.bytesRequired.toInt ∧
      Compositor.BufferFits picture.bytesRequired.toInt (0 : BitVec 32).toInt
        picture.width.toInt picture.height.toInt (picture.width * pixelSize).toInt := by
  obtain ⟨hwidth, hwpos⟩ := toInt_eq h.width_pos
  obtain ⟨hheight, hhpos⟩ := toInt_eq h.height_pos
  have hsize := h.size_lt
  rw [hwidth, hheight] at hsize ⊢
  generalize hw : picture.width.toNat = w at *
  generalize hh : picture.height.toNat = k at *
  have hsize' : w * k * 4 < 2 ^ 31 := by exact_mod_cast hsize
  have hrow : w * 4 ≤ w * k * 4 := by
    have := Nat.le_mul_of_pos_right w hhpos
    omega
  have harea : w * k < 2 ^ 32 := by omega
  have hstride : (picture.width * pixelSize).toInt = ((w * 4 : ℕ) : ℤ) := by
    apply toInt_of_toNat _ (by omega)
    rw [BitVec.toNat_mul, hw, show pixelSize.toNat = 4 from rfl]
    omega
  have hbytes : picture.bytesRequired.toInt = ((w * k * 4 : ℕ) : ℤ) := by
    apply toInt_of_toNat _ hsize'
    rw [bytesRequired, BitVec.toNat_mul, BitVec.toNat_mul, hw, hh,
      show pixelSize.toNat = 4 from rfl, Nat.mod_eq_of_lt harea]
    omega
  rw [hbytes, hstride]
  refine ⟨by positivity, le_refl _, by exact_mod_cast hwpos, by exact_mod_cast hhpos, ?_, ?_⟩
  · push_cast
    omega
  · push_cast
    linarith [mul_right_comm (w : ℤ) 4 k]

end Picture.Drawable

/-- What is to be shown: all rows of the picture, from the beginning of its memory. -/
def Picture.content (picture : Picture) : Content where
  fd := picture.buff
  offset := 0
  width := picture.width.toInt
  height := picture.height.toInt
  stride := (picture.width * pixelSize).toInt
  format := colorFormat

/-! ## The requests of the config stage -/

/-- The ids that the window has assigned. -/
structure Names where
  buffer : Wobject
  surface : Wobject
  wmBase : Wobject
  xdgSurface : Wobject
  toplevel : Wobject

structure Names.Assigned (n : Names) (members : Members) : Prop where
  buffer : members.ids .buffer = some n.buffer
  wlSurface : members.ids .wlSurface = some n.surface
  wmBase : members.ids .wmBase = some n.wmBase
  xdgSurface : members.ids .xdgSurface = some n.xdgSurface
  toplevel : members.ids .toplevel = some n.toplevel

/-- The compositor, when the window is set up to show the picture. -/
structure Ready (picture : Picture) (n : Names) (c : Compositor) : Prop where
  buffer : c.interfaceOf n.buffer = some .wlBuffer
  content : c.buffers.lookup n.buffer = some picture.content
  surface : c.interfaceOf n.surface = some .wlSurface
  wmBase : c.interfaceOf n.wmBase = some .xdgWmBase
  xdgSurface : c.interfaceOf n.xdgSurface = some .xdgSurface
  xdgSurfaces : c.xdgSurfaces = [(n.xdgSurface, n.surface)]
  constructed : c.constructed = [n.xdgSurface]
  pending : c.pending = []
  contents : c.contents = []

/-- The compositor, when the globals are bound. -/
structure Bound (members : Members) (c : Compositor) : Prop where
  shm : ∃ id, members.ids .shm = some id ∧ c.interfaceOf id = some .wlShm
  compositor : ∃ id, members.ids .compositor = some id ∧
    c.interfaceOf id = some .wlCompositor
  wmBase : ∃ id, members.ids .wmBase = some id ∧ c.interfaceOf id = some .xdgWmBase
  xdgSurfaces : c.xdgSurfaces = []
  constructed : c.constructed = []
  pending : c.pending = []
  contents : c.contents = []

theorem toNat_ofNat_add {n k : ℕ} (h : n + k < 2 ^ 32) :
    (BitVec.ofNat 32 (n + k)).toNat = n + k := by
  rw [BitVec.toNat_ofNat, Nat.mod_eq_of_lt h]

section SetUp

variable {c : Compositor} {picture : Picture}

/-- What is as it was before the pool was made. -/
structure Unshown (c c' : Compositor) : Prop where
  xdgSurfaces : c'.xdgSurfaces = c.xdgSurfaces
  constructed : c'.constructed = c.constructed
  pending : c'.pending = c.pending
  contents : c'.contents = c.contents

/-- The requests that make the buffer are accepted. -/
theorem buffer_accepted (hpicture : picture.Drawable) {shm pool buffer : Wobject}
    (hshm : c.interfaceOf shm = some .wlShm) (hpool : pool.toNat = c.objects.length)
    (hbuffer : buffer.toNat = c.objects.length + 1) :
    ∃ c₁ c₂ c₃ : Compositor,
      c.request shm (createPool pool picture.buff picture.bytesRequired) = some c₁ ∧
      c₁.request pool (createBuffer buffer 0 picture.width picture.height
        (picture.width * pixelSize) colorFormat) = some c₂ ∧
      c₂.request pool poolDestroy = some c₃ ∧
      c₁.objects = c.objects ++ [Interface.wlShmPool] ∧
      c₂.objects = c.objects ++ [Interface.wlShmPool, Interface.wlBuffer] ∧
      c₃.objects = c.objects ++ [Interface.null, Interface.wlBuffer] ∧
      c₃.buffers.lookup buffer = some picture.content ∧ Unshown c c₃ := by
  obtain ⟨hsize, hfits⟩ := hpicture.fits
  let c₁ : Compositor :=
    { c with
      pools := (pool, { fd := picture.buff, size := picture.bytesRequired.toInt }) :: c.pools
      objects := c.objects ++ [.wlShmPool] }
  let c₂ : Compositor :=
    { c₁ with
      buffers := (buffer, picture.content) :: c.buffers
      objects := c.objects ++ [.wlShmPool, .wlBuffer] }
  have haccepted₂ : c₁.request pool (createBuffer buffer 0 picture.width picture.height
      (picture.width * pixelSize) colorFormat) = some c₂ := by
    rw [request_createBuffer (Compositor.interfaceOf_created (j := 0) hpool rfl rfl)
      (by rw [hbuffer, List.length_append, List.length_singleton]) List.lookup_cons_self hfits,
      List.append_assoc]
    rfl
  refine ⟨c₁, c₂, c₂.destroy pool, request_createPool hshm hpool hsize, haccepted₂,
    request_poolDestroy (Compositor.interfaceOf_created (j := 0) hpool rfl rfl), rfl, rfl, ?_,
    List.lookup_cons_self, ⟨rfl, rfl, rfl, rfl⟩⟩
  simp [Compositor.destroy, c₂, hpool]

/-- The requests that make the surface are accepted. -/
theorem surface_accepted (hpending : c.pending = []) (hcontents : c.contents = [])
    (hxdgSurfaces : c.xdgSurfaces = []) (hconstructed : c.constructed = []) {n : Names}
    {compositor : Wobject} (hcompositor : c.interfaceOf compositor = some .wlCompositor)
    (hbuffer : c.interfaceOf n.buffer = some .wlBuffer)
    (hcontent : c.buffers.lookup n.buffer = some picture.content)
    (hwmBase : c.interfaceOf n.wmBase = some .xdgWmBase)
    (hsurface : n.surface.toNat = c.objects.length)
    (hxdgSurface : n.xdgSurface.toNat = c.objects.length + 1)
    (htoplevel : n.toplevel.toNat = c.objects.length + 2) :
    ∃ c₁ c₂ c₃ : Compositor,
      c.request compositor (createSurface n.surface) = some c₁ ∧
      c₁.request n.wmBase (getXdgSurface n.xdgSurface n.surface) = some c₂ ∧
      c₂.request n.xdgSurface (getToplevel n.toplevel) = some c₃ ∧
      c₃.request n.surface commit = some c₃ ∧
      c₁.objects = c.objects ++ [Interface.wlSurface] ∧
      c₂.objects = c.objects ++ [Interface.wlSurface, Interface.xdgSurface] ∧
      c₃.objects = c.objects ++ [Interface.wlSurface, Interface.xdgSurface,
        Interface.xdgToplevel] ∧ Ready picture n c₃ := by
  let c₁ : Compositor := { c with objects := c.objects ++ [.wlSurface] }
  let c₂ : Compositor :=
    { c with
      xdgSurfaces := [(n.xdgSurface, n.surface)]
      objects := c.objects ++ [.wlSurface, .xdgSurface] }
  let c₃ : Compositor :=
    { c₂ with
      constructed := [n.xdgSurface]
      objects := c.objects ++ [.wlSurface, .xdgSurface, .xdgToplevel] }
  have hsurface₃ : c₃.interfaceOf n.surface = some .wlSurface :=
    Compositor.interfaceOf_created (j := 0) hsurface rfl rfl
  have haccepted₂ : c₁.request n.wmBase (getXdgSurface n.xdgSurface n.surface) = some c₂ := by
    rw [request_getXdgSurface (c := c₁) (Compositor.interfaceOf_of_append hwmBase rfl)
      (by rw [hxdgSurface, List.length_append, List.length_singleton])
      (Compositor.interfaceOf_created (j := 0) hsurface rfl rfl) hxdgSurfaces
      (by rw [hpending, hcontents, List.append_nil]), List.append_assoc]
    rfl
  have haccepted₃ : c₂.request n.xdgSurface (getToplevel n.toplevel) = some c₃ := by
    rw [request_getToplevel (c := c₂) (Compositor.interfaceOf_created (j := 1) hxdgSurface rfl rfl)
      (by rw [htoplevel, List.length_append, List.length_cons, List.length_singleton])
      hconstructed, List.append_assoc]
    rfl
  have hcommit : c₃.request n.surface commit = some c₃ := by
    rw [request_commit hsurface₃, Compositor.commit, show c₃.pending = [] from hpending]
    rfl
  refine ⟨c₁, c₂, c₃, request_createSurface hcompositor hsurface, haccepted₂, haccepted₃, hcommit,
    rfl, rfl, rfl, ?_⟩
  exact ⟨Compositor.interfaceOf_of_append hbuffer rfl, hcontent, hsurface₃,
    Compositor.interfaceOf_of_append hwmBase rfl,
    Compositor.interfaceOf_created (j := 1) hxdgSurface rfl rfl, rfl, rfl, hpending, hcontents⟩

end SetUp

end StaticPicture

end Waylander
