import Waylander.Client.Progress
import Waylander.Examples.FirstRequests

/-!
# The window does not hang

Against a server that sends whole messages and closes the connection at some time,
every run of the window ends.  No function object of the window receives or sends,
so every `until` ends, and the rest of the program has no loops.
-/

namespace Waylander

namespace StaticPicture

open Goto
open ListRegistryGlobals (Line)

variable {σ α β : Type} {S : ServerStream σ}

/-- A part of the program that ends and leaves the stream alone. -/
def Quiet (S : ServerStream σ) (x : Program σ α) : Prop :=
  ∀ w, ∃ r w', x.run.run w = some (r, w') ∧ SameStream (S.beside Variables) w w'

/-- A part of the program that ends with enough fuel, and leaves whole messages. -/
def Finishes (S : ServerStream σ) (x : ℕ → Program σ α) : Prop :=
  ∀ w, OnTrack (S.beside Variables) w.client →
    ∃ r w', Yields (fun fuel => (x fuel).run.run w) (r, w') ∧
      ∀ a, r = .ok a → OnTrack (S.beside Variables) w'.client

/-- The rest of the program after the result of its first part. -/
def andThen (f : α → Program σ β) :
    Except Stop α × Window σ → Option (Except Stop β × Window σ)
  | (.ok a, w) => (f a).run.run w
  | (.error e, w) => some (.error e, w)

theorem run_bind (x : Program σ α) (f : α → Program σ β) (w : Window σ) :
    (x >>= f).run.run w = (x.run.run w).bind (andThen f) := by
  change (x.run.run w).bind _ = _
  congr 1
  funext r
  obtain ⟨r, w'⟩ := r
  cases r with
  | ok a => rfl
  | error e => rfl

theorem run_get_bind (f : Window σ → Program σ α) (w : Window σ) :
    (get >>= f).run.run w = (f w).run.run w := rfl

theorem run_setClient_bind (client : ConnectedClient (σ × Variables)) (f : Unit → Program σ α)
    (w : Window σ) :
    (Program.setClient client >>= f).run.run w = (f ()).run.run { w with client := client } := rfl

namespace Quiet

protected theorem bind {x : Program σ α} {f : α → Program σ β} (hx : Quiet S x)
    (hf : ∀ a, Quiet S (f a)) : Quiet S (x >>= f) := by
  intro w
  obtain ⟨r, w₁, hrun, hsame⟩ := hx w
  rw [run_bind, hrun]
  cases r with
  | ok a =>
      obtain ⟨r', w₂, hrun', hsame'⟩ := hf a w₁
      exact ⟨r', w₂, hrun', hsame.trans hsame'⟩
  | error e => exact ⟨.error e, w₁, rfl, hsame⟩

protected theorem pure (a : α) : Quiet S (pure a : Program σ α) :=
  fun w => ⟨.ok a, w, rfl, .refl w⟩

protected theorem throw (e : Stop) : Quiet S (throw e : Program σ α) :=
  fun w => ⟨.error e, w, rfl, .refl w⟩

theorem getVariables : Quiet S (Program.getVariables : Program σ Variables) :=
  fun w => ⟨_, w, rfl, .refl w⟩

theorem modifyVariables (f : Variables → Variables) :
    Quiet S (Program.modifyVariables f : Program σ Unit) :=
  fun _ => ⟨_, _, rfl, ⟨rfl, rfl, rfl⟩⟩

theorem reserveObjectId : Quiet S (Program.reserveObjectId : Program σ Wobject) :=
  fun _ => ⟨_, _, rfl, ⟨rfl, rfl, rfl⟩⟩

theorem reserveId (m : Member) : Quiet S (Program.reserveId m : Program σ Wobject) :=
  reserveObjectId.bind fun _ => (modifyVariables _).bind fun _ => .pure _

theorem valueOf (m : Member) : Quiet S (Program.valueOf m : Program σ Wobject) := by
  refine getVariables.bind fun v => ?_
  split
  · exact .pure _
  · exact (modifyVariables _).bind fun _ => .throw _

theorem registerRequest (build : Build) (host : Host σ) (obj : Wobject) (msg : Message) :
    Quiet S (Program.registerRequest build host obj msg) := by
  intro w
  rw [Program.registerRequest, run_get_bind]
  dsimp only
  split
  · exact ⟨_, _, rfl, .refl w⟩
  · rename_i client hcall
    obtain ⟨buff, -, hclient⟩ := Fallible.bind_eq_ok_iff.mp hcall
    obtain rfl := Fallible.pure_eq_ok_iff.mp hclient
    rw [run_setClient_bind]
    obtain ⟨r, w', hrun, hsame⟩ := modifyVariables (S := S) _ _
    exact ⟨r, w', hrun, hsame.recvBuff, hsame.pending, hsame.resizes⟩

theorem interpert (build : Build) (payload : List Byte) (types : List ArgumentType) :
    Quiet S (Program.interpert build payload types : Program σ (List Argument)) := by
  rw [Program.interpert]
  split
  · exact .throw _
  · exact .pure _

theorem addOverload (mos : MessageOverloadSet Overload) (objId : Wobject) (opcode : Wopcode)
    (overload : Overload) :
    Quiet S (Program.addOverload mos objId opcode overload : Program σ _) := by
  rw [Program.addOverload]
  split
  · exact .throw _
  · exact .pure _

variable {build : Build} {host : Host σ}

theorem onFatalError (payload : List Byte) :
    Quiet S (Program.onFatalError build payload : Program σ Unit) := by
  refine (interpert _ _ _).bind fun args => ?_
  split
  · exact (modifyVariables _).bind fun _ => .throw _
  · exact .throw _

theorem reserveFound (found : Variables → Variables) (m : Member) :
    Quiet S (Program.reserveFound found m : Program σ (Option Wobject)) :=
  (modifyVariables _).bind fun _ => (reserveId m).bind fun _ => .pure _

theorem idFor (interface : List Byte) :
    Quiet S (Program.idFor interface : Program σ (Option Wobject)) := by
  obtain ⟨g, heq, hg⟩ := Program.idFor_cases (R := Quiet S) interface
    (fun found m _ _ => reserveFound found m) (.pure _)
  rw [heq]
  exact getVariables.bind hg

theorem onGlobal (payload : List Byte) :
    Quiet S (Program.onGlobal build host payload : Program σ Unit) := by
  refine (interpert _ _ _).bind fun args => ?_
  split
  · refine (modifyVariables _).bind fun _ => (idFor _).bind fun id => ?_
    split
    · exact (valueOf _).bind fun _ => registerRequest _ _ _ _
    · exact .pure _
  · exact .throw _

theorem answer {member : Member} {types : List ArgumentType}
    {event : Wobject → BitVec 32 → ServerEvent} {reply : BitVec 32 → Message}
    (payload : List Byte) :
    Quiet S (Program.answer build host member types event reply payload : Program σ Unit) := by
  refine (interpert _ _ _).bind fun args => ?_
  split
  · exact (valueOf _).bind fun _ => (modifyVariables _).bind fun _ => registerRequest _ _ _ _
  · exact .throw _

theorem onClose (payload : List Byte) :
    Quiet S (Program.onClose build payload : Program σ Unit) := by
  refine (interpert _ _ _).bind fun args => ?_
  split
  · exact .pure _
  · exact .throw _

theorem objects {untilCallback : List Byte → Program σ Unit}
    (h : ∀ payload, Quiet S (untilCallback payload)) (invocation : Invocation Overload) :
    Quiet S (Program.objects build host untilCallback invocation) := by
  cases invocation with
  | overload ov payload =>
      cases ov with
      | fatalError => exact onFatalError payload
      | global => exact onGlobal payload
      | ping => exact answer payload
  | untilCallback payload => exact h payload

theorem defaultOverloads : Quiet S (Program.defaultOverloads : Program σ _) :=
  (addOverload _ _ _ _).bind fun _ => (valueOf _).bind fun _ => addOverload _ _ _ _

/-- What does not loop needs no fuel. -/
theorem finishes {x : Program σ α} (h : Quiet S x) : Finishes S fun _ => x := by
  intro w hw
  obtain ⟨r, w', hrun, hsame⟩ := h w
  refine ⟨r, w', ?_, fun _ _ => ?_⟩
  · simp only [hrun]
    exact yields_some _
  · have hnone : ∀ g ∈ ([] : List (List Byte)), wire.IsFrame g := by simp
    exact hw.replied hsame.recvBuff hnone (by simp [hsame.pending])

end Quiet

namespace Finishes

variable {build : Build} {sender : Sender σ} {picture : Picture}

protected theorem bind {x : ℕ → Program σ α} {f : ℕ → α → Program σ β} (hx : Finishes S x)
    (hf : ∀ a, Finishes S fun fuel => f fuel a) : Finishes S fun fuel => x fuel >>= f fuel := by
  intro w hw
  obtain ⟨r, w₁, hyields, htrack⟩ := hx w hw
  simp only [run_bind]
  cases r with
  | ok a =>
      obtain ⟨r', w₂, hyields', htrack'⟩ := hf a w₁ (htrack a rfl)
      exact ⟨r', w₂, hyields.bind hyields', htrack'⟩
  | error e =>
      refine ⟨.error e, w₁, hyields.bind (g := fun r fuel => andThen (f fuel) r) ?_,
        fun a ha => by cases ha⟩
      exact yields_some _

theorem flush (hreplies : Replies S sender) :
    Finishes S fun _ => (Program.flush sender : Program σ Unit) := by
  intro w hw
  have hflushed := OnTrack.flush (hreplies.beside Variables)
    (o := { client := w.client, sent := w.client.serverSock.server.2.sent }) hw
  simp only [Program.flush, run_get_bind]
  cases hflush : flushRegisteredRequests (sender.beside Variables)
      { client := w.client, sent := w.client.serverSock.server.2.sent } with
  | mk exit o =>
      rw [hflush] at hflushed
      cases exit with
      | returned => exact ⟨_, _, yields_some _, fun _ _ => hflushed⟩
      | threw e => exact ⟨_, _, yields_some _, fun a ha => by cases ha⟩
      | fault f => exact ⟨_, _, yields_some _, fun a ha => by cases ha⟩

theorem recvUntil {call : UntilCall Overload} {objects : Invocation Overload → Program σ Unit}
    (h : ∀ invocation, Quiet S (objects invocation)) :
    Finishes S fun fuel => Program.recvUntil S.toHost fuel call objects := by
  intro w hw
  have hanswers : Answers (fun invocation w => ((objects invocation).run.run w).map Program.leave)
      (S.beside Variables) := by
    intro invocation w
    obtain ⟨r, w', hrun, hsame⟩ := h invocation w
    refine ⟨(Program.leave (r, w')).1, (Program.leave (r, w')).2, ?_, ?_⟩
    · simp only [hrun]
      rfl
    · cases r with
      | ok a => exact hsame
      | error e => cases e <;> exact hsame
  obtain ⟨exit, w', hyields, htrack⟩ := untilWith_yields hanswers call hw
  have hleft : Yields (fun fuel => (Program.recvUntil S.toHost fuel call objects).run.run w)
      (Program.left (exit, w')) := yields_map hyields Program.left
  refine ⟨(Program.left (exit, w')).1, (Program.left (exit, w')).2, hleft, fun a ha => ?_⟩
  cases exit with
  | normal => exact htrack rfl
  | threw e => cases e <;> cases ha
  | undefined => cases ha

theorem initialStage (build : Build) (hreplies : Replies S sender) :
    Finishes S fun fuel => Program.initialStage build S.toHost sender fuel := by
  refine (Quiet.reserveId _).finishes.bind fun _ => ?_
  refine (Quiet.reserveId _).finishes.bind fun _ => ?_
  refine (Quiet.registerRequest _ _ _ _).finishes.bind fun _ => ?_
  refine (Quiet.registerRequest _ _ _ _).finishes.bind fun _ => ?_
  refine (flush hreplies).bind fun _ => ?_
  refine (Quiet.addOverload _ _ _ _).finishes.bind fun _ => ?_
  refine (Quiet.valueOf _).finishes.bind fun _ => ?_
  refine (Quiet.addOverload _ _ _ _).finishes.bind fun _ => ?_
  refine (Quiet.valueOf _).finishes.bind fun _ => ?_
  refine (recvUntil (Quiet.objects fun _ => .pure _)).bind fun _ => ?_
  refine Quiet.getVariables.finishes.bind fun v => ?_
  by_cases hfound : v.wlShmFound ∧ v.wlCompositorFound ∧ v.xdgWmBaseFound
  · simp only [if_neg (not_not.mpr hfound)]
    exact flush hreplies
  · simp only [if_pos hfound]
    exact ((Quiet.modifyVariables _).bind fun _ => .throw _).finishes

theorem setUp (build : Build) (picture : Picture) (hreplies : Replies S sender) :
    Finishes S fun _ => Program.setUp build S.toHost sender picture := by
  refine Quiet.reserveObjectId.finishes.bind fun _ => ?_
  refine (Quiet.reserveId _).finishes.bind fun _ => ?_
  refine (Quiet.valueOf _).finishes.bind fun _ => ?_
  refine (Quiet.registerRequest _ _ _ _).finishes.bind fun _ => ?_
  refine (Quiet.registerRequest _ _ _ _).finishes.bind fun _ => ?_
  refine (Quiet.registerRequest _ _ _ _).finishes.bind fun _ => ?_
  refine (Quiet.reserveId _).finishes.bind fun _ => ?_
  refine (Quiet.reserveId _).finishes.bind fun _ => ?_
  refine (Quiet.valueOf _).finishes.bind fun _ => ?_
  refine (Quiet.reserveId _).finishes.bind fun _ => ?_
  refine (Quiet.valueOf _).finishes.bind fun _ => ?_
  refine (Quiet.registerRequest _ _ _ _).finishes.bind fun _ => ?_
  refine (Quiet.valueOf _).finishes.bind fun _ => ?_
  refine (Quiet.registerRequest _ _ _ _).finishes.bind fun _ => ?_
  refine (Quiet.valueOf _).finishes.bind fun _ => ?_
  refine (Quiet.registerRequest _ _ _ _).finishes.bind fun _ => ?_
  refine (Quiet.valueOf _).finishes.bind fun _ => ?_
  refine (Quiet.registerRequest _ _ _ _).finishes.bind fun _ => ?_
  exact flush hreplies

theorem configStage (build : Build) (picture : Picture) (hreplies : Replies S sender) :
    Finishes S fun fuel => Program.configStage build S.toHost sender fuel picture := by
  refine (setUp build picture hreplies).bind fun _ => ?_
  refine Quiet.defaultOverloads.finishes.bind fun _ => ?_
  refine (Quiet.valueOf _).finishes.bind fun _ => ?_
  refine (recvUntil (Quiet.objects fun _ => Quiet.answer _)).bind fun _ => ?_
  refine (Quiet.valueOf _).finishes.bind fun _ => ?_
  refine (Quiet.valueOf _).finishes.bind fun _ => ?_
  refine (Quiet.registerRequest _ _ _ _).finishes.bind fun _ => ?_
  refine (Quiet.valueOf _).finishes.bind fun _ => ?_
  refine (Quiet.registerRequest _ _ _ _).finishes.bind fun _ => ?_
  exact flush hreplies

theorem waitForCloseEvent (build : Build) :
    Finishes S fun fuel => Program.waitForCloseEvent build S.toHost fuel := by
  refine Quiet.defaultOverloads.finishes.bind fun _ => ?_
  refine (Quiet.valueOf _).finishes.bind fun _ => ?_
  exact recvUntil (Quiet.objects fun _ => Quiet.onClose _)

theorem main (build : Build) (picture : Picture) (hreplies : Replies S sender) :
    Finishes S fun fuel => Program.main build S.toHost sender fuel picture :=
  ((initialStage build hreplies).bind fun _ => configStage build picture hreplies).bind
    fun _ => waitForCloseEvent build

end Finishes

/-- Against a server that sends whole messages and then the end of the stream, and whole
messages in reply, every run ends.  Until then the requests of a window that can draw its
picture were accepted. -/
theorem main_ends (build : Build) {sender : Sender σ} (hreplies : Replies S sender)
    (picture : Picture) (server : σ) {fs : List (List Byte)} (hfs : ∀ f ∈ fs, wire.IsFrame f)
    (hserver : S.pending server = fs.flatten) :
    ∃ r w, Yields (fun fuel => (Program.main build S.toHost sender fuel picture).run.run
        (.start (server, {}))) (r, w) ∧
      (picture.Drawable → Lasts (view w) → Safe (view w)) := by
  have hstart : OnTrack (S.beside Variables)
      (Session.start (server, {}) : Window σ).client := ⟨fs, hfs, hserver⟩
  obtain ⟨r, w, hyields, -⟩ := Finishes.main build picture hreplies _ hstart
  refine ⟨r, w, hyields, fun hpicture hlasts => ?_⟩
  obtain ⟨fuel, hrun⟩ := hyields.exists_fuel
  have hends :=
    Programs.triple_iff.mp (Program.main_meets hpicture) _ r w (stands_start server) hrun
  cases r with
  | ok a => exact (hends hlasts).safe
  | error e => exact hends hlasts

/-- The messages of `closingServer`. -/
def closingFrames : List (List Byte) :=
  [announcement 1 shmName 1, announcement 2 compositorName 2, announcement 3 wmBaseName 0,
    event 3 0 (LittleEndian.toBytes 4 0), event 10 0 (LittleEndian.toBytes 4 5),
    event 6 0 (LittleEndian.toBytes 4 9), event 11 1 []]

theorem main_ends_pixel :
    ∃ r w, Yields (fun fuel => (Program.main .unchecked (boundedServer 99).toHost takingSender fuel
        pixel).run.run (.start (closingServer, {}))) (r, w) ∧
      (pixel.Drawable → Lasts (view w) → Safe (view w)) := by
  have hreplies : Replies (boundedServer 99) takingSender :=
    ⟨fun _ _ _ => ⟨[], by simp, by simp [takingSender]⟩,
      fun _ _ => ⟨[], by simp, by simp [takingSender]⟩⟩
  have hfs : ∀ f ∈ closingFrames, wire.IsFrame f := by decide +kernel
  have hserver : (boundedServer 99).pending closingServer = closingFrames.flatten := by
    simp [boundedServer, closingServer, closingFrames]
  exact main_ends .unchecked hreplies pixel closingServer hfs hserver

end StaticPicture

end Waylander
