import Waylander.Client.FunctionObjects
import Waylander.Examples.Compositor
import Waylander.Examples.ListRegistryGlobals
import Waylander.Support.Programs

/-!
# The program `display_static_picture`

The window of the program: it enumerates the globals and binds three of them, makes
a surface with a buffer from a pool of shared memory, waits until the surface is
configured, shows the buffer, and waits until the window is closed.  The function
objects that `until` invokes register requests of their own.

What is drawn is not modelled, only the size of the picture and the descriptor of
its memory.  The requests and events of a run are recorded as an exchange with the
compositor; no branch depends on the records.
-/

namespace Waylander

namespace StaticPicture

open Goto
open ListRegistryGlobals (Line getRegistry sync globalOpcode globalTypes errorOpcode errorTypes
  doneOpcode errorLines)

variable {σ : Type}

/-! ## The program -/

/-- `StaticPicture` -/
structure Picture where
  width : BitVec 32
  height : BitVec 32
  buff : Wfd

/-- `sizeof(Pixel)` -/
def pixelSize : BitVec 32 := 4

def Picture.bytesRequired (picture : Picture) : BitVec 32 :=
  picture.width * picture.height * pixelSize

/-- The function objects in the overload sets. -/
inductive Overload
  | fatalError
  | global
  | ping
  deriving DecidableEq

/-- The object ids that are members of `static_picture_window`. -/
inductive Member
  | registry
  | sync
  | compositor
  | shm
  | buffer
  | wlSurface
  | wmBase
  | xdgSurface
  | toplevel
  deriving DecidableEq

/-- The members of the window, and the locals that the overload for globals captures. -/
structure Members where
  /-- Indeterminate until they are assigned. -/
  ids : Member → Option Wobject := fun _ => none
  wlShmFound : Bool := false
  wlCompositorFound : Bool := false
  xdgWmBaseFound : Bool := false

namespace Members

def assign (members : Members) (m : Member) (id : Wobject) : Members :=
  { members with ids := Function.update members.ids m (some id) }

@[simp] theorem ids_assign (members : Members) (m m' : Member) (id : Wobject) :
    (members.assign m id).ids m' = if m' = m then some id else members.ids m' :=
  Function.update_apply members.ids m (some id) m'

end Members

/-- The variables of the program, and the records. -/
structure Variables extends Members where
  log : List Exchange := []
  reserved : List Wobject := []
  sent : List Packet := []
  stdout : List Line := []
  /-- An indeterminate id was read. -/
  readIndeterminate : Bool := false

/-- What ends the program early. -/
inductive Stop
  /-- `std::exit` -/
  | exited (code : ℕ)
  | terminated (e : Exception)
  | fault
  deriving DecidableEq

abbrev Window (σ : Type) := Session (σ × Variables) Overload

/-- A part of the program. -/
abbrev Program (σ : Type) := Programs.Stoppable Stop (Window σ)

/-! ### Requests and events -/

/-- `wl_registry::request::bind` -/
def bind (name : BitVec 32) (interface : List Byte) (version : BitVec 32) (id : Wobject) :
    Message where
  opcode := 0
  arguments := [.static (.wuint name), .wstring interface, .static (.wuint version),
    .static (.wnewId id)]

/-- `wl_shm::request::create_pool` -/
def createPool (id : Wobject) (fd : Wfd) (size : BitVec 32) : Message where
  opcode := 0
  arguments := [.static (.wnewId id), .wfd fd, .static (.wint size)]

/-- `wl_shm::format::Eargb8888` -/
def colorFormat : BitVec 32 := 0

/-- `wl_shm_pool::request::create_buffer` -/
def createBuffer (id : Wobject) (offset width height stride format : BitVec 32) : Message where
  opcode := 0
  arguments := [.static (.wnewId id), .static (.wint offset), .static (.wint width),
    .static (.wint height), .static (.wint stride), .static (.enumInt format)]

/-- `wl_shm_pool::request::destroy` -/
def poolDestroy : Message where
  opcode := 1
  arguments := []

/-- `wl_compositor::request::create_surface` -/
def createSurface (id : Wobject) : Message where
  opcode := 0
  arguments := [.static (.wnewId id)]

/-- `wl_surface::request::attach` -/
def attach (buffer : Wobject) (x y : BitVec 32) : Message where
  opcode := 1
  arguments := [.static (.wobject buffer), .static (.wint x), .static (.wint y)]

/-- `wl_surface::request::commit` -/
def commit : Message where
  opcode := 6
  arguments := []

/-- `xdg_wm_base::request::get_xdg_surface` -/
def getXdgSurface (id surface : Wobject) : Message where
  opcode := 2
  arguments := [.static (.wnewId id), .static (.wobject surface)]

/-- `xdg_wm_base::request::pong` -/
def pong (serial : BitVec 32) : Message where
  opcode := 3
  arguments := [.static (.wuint serial)]

/-- `xdg_surface::request::get_toplevel` -/
def getToplevel (id : Wobject) : Message where
  opcode := 1
  arguments := [.static (.wnewId id)]

/-- `xdg_surface::request::ack_configure` -/
def ackConfigure (serial : BitVec 32) : Message where
  opcode := 4
  arguments := [.static (.wuint serial)]

def pingOpcode : Wopcode := 0

def pingTypes : List ArgumentType := [.static .wuint]

def configureOpcode : Wopcode := 0

def configureTypes : List ArgumentType := [.static .wuint]

def closeOpcode : Wopcode := 1

def closeTypes : List ArgumentType := []

/-! ### Calls on the client -/

namespace Program

def getVariables : Program σ Variables := do
  return (← get).client.serverSock.server.2

def setClient (client : ConnectedClient (σ × Variables)) : Program σ Unit :=
  modify fun w => { w with client := client }

def modifyVariables (f : Variables → Variables) : Program σ Unit :=
  modify fun w =>
    { w with
      client :=
        { w.client with
          serverSock :=
            { w.client.serverSock with
              server := (w.client.serverSock.server.1, f w.client.serverSock.server.2) } } }

def print (lines : List Line) : Program σ Unit :=
  modifyVariables fun v => { v with stdout := v.stdout ++ lines }

def hear (event : ServerEvent) : Program σ Unit :=
  modifyVariables fun v => { v with log := v.log ++ [.heard event] }

/-- `client_.reserve_object_id()` -/
def reserveObjectId : Program σ Wobject := do
  let (id, client) := Waylander.reserveObjectId (← get).client
  setClient client
  modifyVariables fun v => { v with reserved := v.reserved ++ [id] }
  return id

/-- `reserve_id` of a member. -/
def reserveId (member : Member) : Program σ Wobject := do
  let id ← reserveObjectId
  modifyVariables fun v => { v with toMembers := v.assign member id }
  return id

/-- The value of a member. -/
def valueOf (member : Member) : Program σ Wobject := do
  match (← getVariables).ids member with
  | some id => return id
  | none => do
      modifyVariables fun v => { v with readIndeterminate := true }
      throw .fault

/-- `client_.register_request(obj, msg)` -/
def registerRequest (build : Build) (host : Host σ) (obj : Wobject) (msg : Message) :
    Program σ Unit := do
  let client := (← get).client
  let stale := host.storage client.serverSock.server.1
  match Waylander.registerRequest build stale obj msg client with
  | .error _ => throw .fault
  | .ok client' => do
      setClient client'
      let request := Request.written stale client.requestBuff.buff.length obj msg
      modifyVariables fun v => { v with log := v.log ++ [.asked request] }

/-- `client_.flush_registered_requests()` -/
def flush (sender : Sender σ) : Program σ Unit := do
  let client := (← get).client
  let (exit, o) := flushRegisteredRequests (sender.beside Variables)
    { client := client, sent := client.serverSock.server.2.sent }
  setClient o.client
  modifyVariables fun v => { v with sent := o.sent }
  match exit with
  | .returned => return ()
  | .threw e => throw (.terminated e)
  | .fault _ => throw .fault

def addOverload (mos : MessageOverloadSet Overload) (objId : Wobject) (opcode : Wopcode)
    (overload : Overload) : Program σ (MessageOverloadSet Overload) :=
  match mos.addOverload objId opcode overload with
  | (.error e, _) => throw (.terminated e)
  | (.ok _, mos) => return mos

def interpert (build : Build) (payload : List Byte) (types : List ArgumentType) :
    Program σ (List Argument) :=
  match interpertMessagePayload build payload types with
  | .error _ => throw .fault
  | .ok args => return args

/-- How a function object ends.  Those of this program throw nothing and exit with 1. -/
def leave : Except Stop Unit × Window σ → Exit × Window σ
  | (.ok _, w) => (.normal, w)
  | (.error .fault, w) => (.undefined, w)
  | (.error _, w) => (.threw .callbackError, w)

/-- How the program goes on when `until` is left. -/
def left : Exit × Window σ → Except Stop Unit × Window σ
  | (.normal, w) => (.ok (), w)
  | (.threw .callbackError, w) => (.error (.exited 1), w)
  | (.threw e, w) => (.error (.terminated e), w)
  | (.undefined, w) => (.error .fault, w)

/-- `client_.recv_and_visit_events(mos).until(...)` -/
def recvUntil (host : Host σ) (fuel : ℕ) (call : UntilCall Overload)
    (objects : Invocation Overload → Program σ Unit) : Program σ Unit :=
  ExceptT.mk fun w =>
    (untilWith (fun invocation w => ((objects invocation).run.run w).map leave)
      (host.beside Variables) fuel call w).map left

/-! ### The window -/

section Window

variable (build : Build) (host : Host σ) (sender : Sender σ) (fuel : ℕ) (picture : Picture)

/-- The overload for `wl_display::event::error`. -/
def onFatalError (payload : List Byte) : Program σ Unit := do
  match ← interpert build payload errorTypes with
  | [.static (.wobject objectId), .static (.wuint code), .wstring message] => do
      print (errorLines objectId code message)
      throw (.exited 1)
  | _ => throw .fault

/-- A global was found that is to be bound to the member. -/
def reserveFound (found : Variables → Variables) (member : Member) :
    Program σ (Option Wobject) := do
  modifyVariables found
  return some (← reserveId member)

/-- The id to which a global is to be bound. -/
def idFor (interface : List Byte) : Program σ (Option Wobject) := do
  let xdgWmBaseFound := (← getVariables).xdgWmBaseFound
  if interface = shmName then
    -- `wl_shm` is a singleton so it is expected to find only one.
    reserveFound (fun v => { v with wlShmFound := true }) .shm
  else if interface = compositorName then
    -- `wl_compositor` is a singleton so it is expected to find only one.
    reserveFound (fun v => { v with wlCompositorFound := true }) .compositor
  else if ¬xdgWmBaseFound ∧ interface = wmBaseName then
    -- `xdg_wm_base` is not specified as singleton so bind just to the first one.
    reserveFound (fun v => { v with xdgWmBaseFound := true }) .wmBase
  else
    return none

/-- The overload for `wl_registry::event::global`. -/
def onGlobal (payload : List Byte) : Program σ Unit := do
  match ← interpert build payload globalTypes with
  | [.static (.wuint name), .wstring interface, .static (.wuint version)] => do
      hear (.global name interface version)
      match ← idFor interface with
      | some id => do
          registerRequest build host (← valueOf .registry) (bind name interface version id)
      | none => return ()
  | _ => throw .fault

/-- An event with a serial is answered on the object that it is about. -/
def answer (member : Member) (types : List ArgumentType)
    (event : Wobject → BitVec 32 → ServerEvent) (reply : BitVec 32 → Message)
    (payload : List Byte) : Program σ Unit := do
  match ← interpert build payload types with
  | [.static (.wuint serial)] => do
      let obj ← valueOf member
      hear (event obj serial)
      registerRequest build host obj (reply serial)
  | _ => throw .fault

/-- The overload for `xdg_wm_base::event::ping`. -/
def onPing (payload : List Byte) : Program σ Unit :=
  answer build host .wmBase pingTypes .ping pong payload

/-- The until callback for `xdg_surface::event::configure`. -/
def onConfigure (payload : List Byte) : Program σ Unit :=
  answer build host .xdgSurface configureTypes .configure ackConfigure payload

/-- The until callback for `xdg_toplevel::event::close`. -/
def onClose (payload : List Byte) : Program σ Unit := do
  match ← interpert build payload closeTypes with
  | [] => return ()
  | _ => throw .fault

/-- What is invoked, where `untilCallback` is the until callback of the call. -/
def objects (untilCallback : List Byte → Program σ Unit) :
    Invocation Overload → Program σ Unit
  | .overload .fatalError payload => onFatalError build payload
  | .overload .global payload => onGlobal build host payload
  | .overload .ping payload => onPing build host payload
  | .untilCallback payload => untilCallback payload

/-- `fatal_error_overloads_` -/
def fatalErrorOverloads : Program σ (MessageOverloadSet Overload) :=
  addOverload .empty globalDisplayObject errorOpcode .fatalError

/-- `default_overloads_` -/
def defaultOverloads : Program σ (MessageOverloadSet Overload) := do
  let mos ← fatalErrorOverloads
  addOverload mos (← valueOf .wmBase) pingOpcode .ping

def notFoundLines (v : Variables) : List Line :=
  [.text "fatal error: not all wanted globals found!",
    .text ("found (wl_shm, wl_compositor, xdg_wm_base): (" ++ toString v.wlShmFound ++ ", " ++
      toString v.wlCompositorFound ++ ", " ++ toString v.xdgWmBaseFound ++ ")")]

/-- The constructor up to the end of its initial stage. -/
def initialStage : Program σ Unit := do
  let getReg := getRegistry (← reserveId .registry)
  let sync := sync (← reserveId .sync)
  registerRequest build host globalDisplayObject getReg
  registerRequest build host globalDisplayObject sync
  flush sender
  let globalsBinder ← fatalErrorOverloads
  let globalsBinder ← addOverload globalsBinder (← valueOf .registry) globalOpcode .global
  let call : UntilCall Overload :=
    { mos := globalsBinder
      untilObjId := ← valueOf .sync
      untilOpcode := doneOpcode
      callback := false }
  recvUntil host fuel call (objects build host fun _ => return ())
  let v ← getVariables
  if ¬(v.wlShmFound ∧ v.wlCompositorFound ∧ v.xdgWmBaseFound) then do
    print (notFoundLines v)
    throw (.exited 1)
  flush sender

/-- The requests of the config stage before the first wait. -/
def setUp : Program σ Unit := do
  let shmPool ← reserveObjectId
  let createPool := createPool shmPool picture.buff picture.bytesRequired
  let createBuffer := createBuffer (← reserveId .buffer) 0 picture.width picture.height
    (picture.width * pixelSize) colorFormat
  -- This will trigger format events from the `wl_shm` object, which are ignored.
  registerRequest build host (← valueOf .shm) createPool
  registerRequest build host shmPool createBuffer
  -- As the buffers store reference to reference counted pool, it can be immediately destroyed.
  registerRequest build host shmPool poolDestroy
  let createSurface := createSurface (← reserveId .wlSurface)
  let getXdgSurface := getXdgSurface (← reserveId .xdgSurface) (← valueOf .wlSurface)
  let getToplevel := getToplevel (← reserveId .toplevel)
  registerRequest build host (← valueOf .compositor) createSurface
  registerRequest build host (← valueOf .wmBase) getXdgSurface
  registerRequest build host (← valueOf .xdgSurface) getToplevel
  registerRequest build host (← valueOf .wlSurface) commit
  flush sender

def configStage : Program σ Unit := do
  setUp build host sender picture
  -- `xdg_surface::configure` marks the end of a configure sequence.
  let call : UntilCall Overload :=
    { mos := ← defaultOverloads
      untilObjId := ← valueOf .xdgSurface
      untilOpcode := configureOpcode
      callback := true }
  recvUntil host fuel call (objects build host (onConfigure build host))
  registerRequest build host (← valueOf .wlSurface) (attach (← valueOf .buffer) 0 0)
  registerRequest build host (← valueOf .wlSurface) commit
  flush sender

/-- The constructor of `static_picture_window`. -/
def construct : Program σ Unit := do
  initialStage build host sender fuel
  configStage build host sender fuel picture

def waitForCloseEvent : Program σ Unit := do
  let call : UntilCall Overload :=
    { mos := ← defaultOverloads
      untilObjId := ← valueOf .toplevel
      untilOpcode := closeOpcode
      callback := true }
  recvUntil host fuel call (objects build host (onClose build))

/-- What `main` does with the window. -/
def main : Program σ Unit := do
  construct build host sender fuel picture
  waitForCloseEvent build host fuel

end Window

end Program

end StaticPicture

end Waylander
