import Waylander.Examples.Conformance

/-!
# What the window sends before it knows the globals

As long as the server has not announced all the globals that the window wants, the
socket carries nothing but its first two requests, or a part of them, and no
descriptor.  What is asked for while the globals are enumerated waits in the queue.
-/

namespace Waylander

namespace StaticPicture

open LittleEndian Programs Std.Do
open ListRegistryGlobals (Line getRegistry sync)

variable {σ α : Type}

/-- The requests that are flushed first. -/
def firstRequests : List (Wobject × Message) :=
  [(globalDisplayObject, getRegistry 2), (globalDisplayObject, sync 3)]

/-- The server announced a global with this interface. -/
def HeardOf (interface : List Byte) (log : List Exchange) : Prop :=
  ∃ name version, Exchange.heard (.global name interface version) ∈ log

theorem HeardOf.later {interface : List Byte} {log log' : List Exchange}
    (h : HeardOf interface log) (hlog : log <+: log') : HeardOf interface log' := by
  obtain ⟨name, version, hmem⟩ := h
  exact ⟨name, version, hlog.subset hmem⟩

/-- The server announced the wanted globals. -/
def AllAnnounced (v : View) : Prop :=
  ∀ m ∈ [Member.shm, .compositor, .wmBase], HeardOf (globalName m) v.vars.log

theorem announced_later (v v' : View) (h : Extends v.vars v'.vars) (hv : AllAnnounced v) :
    AllAnnounced v' :=
  fun m hm => (hv m hm).later h.log

/-- Nothing but a part of the first requests is on the socket. -/
structure OnlyFirst (v : View) : Prop where
  bytes : ∃ requests : List Request, requests.map Request.pair = firstRequests ∧
    sentBytes v.vars.sent <+: Request.bytes requests
  fds : sentFds v.vars.sent = []

def Withheld (v : View) : Prop :=
  OnlyFirst v ∨ AllAnnounced v

theorem onlyFirst_of_nothing {v : View} (h : v.vars.sent = []) : OnlyFirst v := by
  refine ⟨⟨firstRequests.map fun first => .written (fun _ => 0) 0 first.1 first.2, rfl, ?_⟩, ?_⟩
  · rw [h]
    exact List.nil_prefix
  · rw [h]
    rfl

/-- What was sent of a batch with the first requests. -/
theorem onlyFirst_of_sent {v : View} {requests : List Request} {exit : FlushExit}
    {packets : List Packet} (hpairs : requests.map Request.pair = firstRequests)
    (hsent : Batch.Sent ⟨requests, exit, packets⟩) (h : v.vars.sent = packets) : OnlyFirst v := by
  refine ⟨⟨requests, hpairs, ?_⟩, ?_⟩
  · rw [h]
    exact hsent.inOrder.bytes
  · have hfds : Request.fds requests = [] := by
      rw [Request.fds, hpairs]
      rfl
    have hprefix := hsent.inOrder.fds
    rw [h]
    exact List.prefix_nil.mp (hfds ▸ hprefix)

/-- Before the first flush. -/
structure Starting (n : ℕ) (pairs : List (Wobject × Message)) (v : View) : Prop where
  nextNewId : v.nextNewId = BitVec.ofNat 32 n
  queue : ∃ requests : List Request, requests.map Request.pair = pairs ∧
    v.requestBuff = ⟨Request.bytes requests, Request.fds requests⟩
  sent : v.vars.sent = []
  found : ∀ m, v.vars.isFound m = false

/-- While the globals are enumerated. -/
structure Enumerates (v : View) : Prop where
  onlyFirst : OnlyFirst v
  found : ∀ m, v.vars.isFound m = true → HeardOf (globalName m) v.vars.log

/-- A global with this interface was announced just now. -/
structure Hears (interface : List Byte) (v : View) : Prop where
  enumerates : Enumerates v
  heard : HeardOf interface v.vars.log

theorem Enumerates.withheld {v : View} (h : Enumerates v) : Withheld v :=
  .inl h.onlyFirst

/-- Nothing was sent, and what was found was announced. -/
theorem Enumerates.later {v v' : View} (h : Enumerates v) (hsent : v'.vars.sent = v.vars.sent)
    (hlog : v.vars.log <+: v'.vars.log)
    (hfound : ∀ m, v'.vars.isFound m = true →
      v.vars.isFound m = true ∨ HeardOf (globalName m) v'.vars.log) : Enumerates v' := by
  refine ⟨⟨?_, ?_⟩, fun m hm => ?_⟩
  · rw [hsent]
    exact h.onlyFirst.bytes
  · rw [hsent]
    exact h.onlyFirst.fds
  · rcases hfound m hm with hbefore | hnow
    · exact (h.found m hbefore).later hlog
    · exact hnow

/-- The sent requests, the flags and the log are as they were. -/
theorem Enumerates.same {v v' : View} (h : Enumerates v) (hsent : v'.vars.sent = v.vars.sent)
    (hlog : v'.vars.log = v.vars.log) (hfound : v'.vars.isFound = v.vars.isFound) :
    Enumerates v' :=
  h.later hsent (by rw [hlog]) fun m hm => .inl (by rw [← hfound, hm])

theorem Enumerates.printed {v : View} (h : Enumerates v) (lines : List Line) :
    Withheld { v with vars := { v.vars with stdout := v.vars.stdout ++ lines } } := by
  have hprinted : Enumerates { v with
      vars := { v.vars with stdout := v.vars.stdout ++ lines } } := h.same rfl rfl rfl
  exact hprinted.withheld

theorem Enumerates.indeterminate {v : View} (h : Enumerates v) :
    Withheld { v with vars := { v.vars with readIndeterminate := true } } := by
  have hread : Enumerates { v with vars := { v.vars with readIndeterminate := true } } :=
    h.same rfl rfl rfl
  exact hread.withheld

theorem isFound_assign (members : Members) (m : Member) (id : Wobject) :
    (members.assign m id).isFound = members.isFound := by
  funext m'
  cases m' <;> rfl

namespace Program

variable {build : Build} {host : Host σ} {sender : Sender σ} {fuel : ℕ}
variable {n : ℕ} {pairs : List (Wobject × Message)} {E : View → Prop}

/-! ## The first flush -/

theorem reserveId_starting (m : Member) :
    Meets (Starting n pairs) (reserveId m : Program σ Wobject)
      (fun id v => id = BitVec.ofNat 32 n ∧ Starting (n + 1) pairs v) E := by
  have hreserve : Meets (Starting n pairs) (reserveObjectId : Program σ Wobject)
      (fun id v => id = BitVec.ofNat 32 n ∧ Starting (n + 1) pairs v) E := by
    refine reserveObjectId_meets fun v hv => ?_
    refine ⟨hv.nextNewId, ?_, hv.queue, hv.sent, hv.found⟩
    dsimp only
    rw [hv.nextNewId]
    exact (BitVec.ofNat_add _ 1).symm
  refine bind_eq hreserve ?_
  refine Programs.bind (modifyVariables_meets (P := Starting (n + 1) pairs)
    (Q := fun _ => Starting (n + 1) pairs) ?_) fun _ => returns fun _ hw => ⟨rfl, hw⟩
  intro v hv
  refine ⟨hv.nextNewId, hv.queue, hv.sent, fun m' => ?_⟩
  dsimp only
  rw [isFound_assign, hv.found]

theorem registerRequest_starting (obj : Wobject) (msg : Message) :
    Meets (Starting n pairs) (registerRequest build host obj msg)
      (fun _ => Starting n (pairs ++ [(obj, msg)])) Withheld := by
  refine registerRequest_meets (fun v hv => .inl (onlyFirst_of_nothing hv.sent)) ?_
  rintro v hv request hrequest
  obtain ⟨requests, hpairs, hbuff⟩ := hv.queue
  refine ⟨hv.nextNewId, ⟨requests ++ [request], ?_, ?_⟩, hv.sent, hv.found⟩
  · rw [List.map_append, hpairs, List.map_singleton, hrequest]
  · rw [View.queued, hbuff]
    simp

theorem flush_starting :
    Meets (Starting n firstRequests) (flush sender : Program σ Unit) (fun _ => Enumerates)
      Withheld := by
  refine flush_meets fun v hv => ?_
  obtain ⟨requests, hpairs, hbuff⟩ := hv.queue
  refine ⟨requests, hbuff, fun exit packets hsent => ?_⟩
  have honly : OnlyFirst (v.released packets) := by
    refine onlyFirst_of_sent hpairs hsent ?_
    rw [View.released, hv.sent, List.nil_append]
  by_cases hreturned : exit = .returned
  · rw [if_pos hreturned]
    refine ⟨honly, fun m hm => ?_⟩
    exact absurd hm (by rw [View.released, hv.found]; decide)
  · rw [if_neg hreturned]
    exact .inl honly

/-! ## While the globals are enumerated -/

theorem valueOf_keeps {P : View → Prop} (m : Member) (hstop : ∀ v, P v →
      E { v with vars := { v.vars with readIndeterminate := true } }) :
    Meets P (valueOf m : Program σ Wobject) (fun _ => P) E := by
  refine getVariables_meets fun v hv => ?_
  cases hid : v.vars.ids m with
  | some id =>
      refine returns fun w hw => ?_
      rw [hw]
      exact hv
  | none =>
      refine Programs.bind (modifyVariables_meets (P := fun v' => v' = v) (Q := fun _ => E) ?_)
        fun _ => stops fun _ hw => hw
      intro v' hv'
      rw [hv']
      exact hstop v hv

theorem reserveFound_enumerates {found : Variables → Variables} {m : Member} {interface : List Byte}
    (hfinds : Finds found m) (hname : globalName m = interface) :
    Meets (Hears interface)
      (reserveFound found m : Program σ (Option Wobject)) (fun _ => Enumerates) E := by
  refine Programs.bind (modifyVariables_meets
    (P := Hears interface) (Q := fun _ => Enumerates) ?_)
    fun _ => ?_
  · rintro v ⟨hv, hheard⟩
    refine hv.later (hfinds.sent _) (by rw [hfinds.log]) fun m' hm' => ?_
    rcases hfinds.isFound v.vars m' hm' with rfl | hbefore
    · refine .inr ?_
      dsimp only
      rw [hname, hfinds.log]
      exact hheard
    · exact .inl hbefore
  refine Programs.bind (Q := fun _ w => Enumerates (view w)) ?_ fun _ => returns fun _ hw => hw
  refine Programs.bind (reserveObjectId_meets (P := Enumerates) (Q := fun _ => Enumerates) ?_)
    fun id => ?_
  · exact fun v hv => hv.same rfl rfl rfl
  refine Programs.bind (modifyVariables_meets (P := Enumerates) (Q := fun _ => Enumerates) ?_)
    fun _ => returns fun _ hw => hw
  exact fun v hv => hv.same rfl rfl (isFound_assign _ _ _)

theorem idFor_enumerates (interface : List Byte) :
    Meets (Hears interface) (idFor interface : Program σ (Option Wobject))
      (fun _ => Enumerates) E := by
  obtain ⟨g, heq, hg⟩ := idFor_cases (R := fun x => Meets (Hears interface) x
    (fun _ => Enumerates) E) interface
    (fun _ _ hfinds hwanted => reserveFound_enumerates hfinds hwanted.name)
    (returns fun _ hw => hw.enumerates)
  rw [heq]
  refine getVariables_meets fun v hv => ?_
  refine consequence (hg v.vars) ?_ (fun _ _ hw => hw) fun _ hw => hw
  intro w hw
  rw [hw]
  exact hv

theorem onGlobal_enumerates (payload : List Byte) :
    Meets Enumerates (onGlobal build host payload : Program σ Unit) (fun _ => Enumerates)
      Withheld := by
  refine Programs.bind (interpert_meets fun _ hv => hv.withheld) fun args => ?_
  split
  · rename_i name interface version
    refine Programs.bind (hear_meets (P := Enumerates) (Q := fun _ => Hears interface) ?_)
      fun _ => ?_
    · intro v hv
      refine ⟨hv.later rfl (List.prefix_append _ _) fun m hm => .inl hm, name, version, ?_⟩
      exact List.mem_append_right _ (List.mem_singleton_self _)
    refine Programs.bind (idFor_enumerates interface) fun r => ?_
    cases r with
    | none => exact returns fun _ hw => hw
    | some id =>
        refine Programs.bind (valueOf_keeps .registry fun _ hv => hv.indeterminate)
          fun registry => ?_
        refine registerRequest_meets (fun v hv => hv.withheld) fun v hv request _ => ?_
        exact hv.later rfl (List.prefix_append _ _) fun m hm => .inl hm
  · exact stops fun _ hw => hw.withheld

theorem initialStage_withholds :
    Meets (Starting 2 []) (initialStage build host sender fuel) (fun _ => AllAnnounced)
      Withheld := by
  rw [initialStage]
  refine bind_eq (reserveId_starting .registry) ?_
  refine bind_eq (reserveId_starting .sync) ?_
  refine Programs.bind (registerRequest_starting _ _) fun _ => ?_
  refine Programs.bind (registerRequest_starting _ _) fun _ => ?_
  refine Programs.bind flush_starting fun _ => ?_
  refine Programs.bind (fatalErrorOverloads_meets fun _ hv => hv.withheld) fun mos => ?_
  refine pure_pre fun hmos => ?_
  refine Programs.bind (valueOf_keeps .registry fun _ hv => hv.indeterminate) fun registry => ?_
  refine Programs.bind (addOverload_meets hmos _ _ _ fun _ hv => hv.withheld) fun mos => ?_
  refine pure_pre fun hmos => ?_
  refine Programs.bind (valueOf_keeps .sync fun _ hv => hv.indeterminate) fun sync => ?_
  refine Programs.bind (recvUntil_meets (P := Enumerates) (Q := Enumerates) ?_
    (fun _ => returns fun _ hw => hw) (fun _ _ hv => hv) (fun _ hv => hv.withheld)
    fun _ hv => hv.withheld) fun _ => ?_
  · intro objId opcode ov payload hresolution
    cases ov with
    | fatalError =>
        exact onFatalError_meets payload (fun _ hv => hv.withheld) fun _ lines hv =>
          hv.printed lines
    | global => exact onGlobal_enumerates payload
    | ping => exact absurd (hmos _ _ _ hresolution) (by decide)
  refine getVariables_meets fun v hv => ?_
  split
  · refine Programs.bind (print_meets (P := fun v' => v' = v) (Q := fun _ => Withheld) ?_)
      fun _ => stops fun _ hw => hw
    intro v' hv'
    rw [hv']
    exact hv.printed _
  · rename_i hfound
    obtain ⟨hshm, hcompositor, hwmBase⟩ := not_not.mp hfound
    refine consequence (Grows.flush.keeps announced_later) ?_ (fun _ _ hw => hw)
      fun _ hw => .inr hw
    intro w hw m hm
    rw [hw]
    simp only [List.mem_cons, List.not_mem_nil, or_false] at hm
    rcases hm with rfl | rfl | rfl
    · exact hv.found .shm hshm
    · exact hv.found .compositor hcompositor
    · exact hv.found .wmBase hwmBase

/-- Nothing else is sent before the globals were announced. -/
theorem main_withholds_meets (picture : Picture) :
    Meets (Starting 2 []) (main build host sender fuel picture) (fun _ => AllAnnounced)
      Withheld := by
  have hkeeps {α : Type} {x : Program σ α} (hx : Grows x) :
      Meets AllAnnounced x (fun _ => AllAnnounced) Withheld :=
    consequence (hx.keeps announced_later) (fun _ hw => hw) (fun _ _ hw => hw) fun _ hw => .inr hw
  refine Programs.bind (Q := fun _ w => AllAnnounced (view w)) ?_
    fun _ => hkeeps Grows.waitForCloseEvent
  exact Programs.bind initialStage_withholds fun _ => hkeeps Grows.configStage

end Program

/-- Unless all wanted globals were announced, the socket carries a part of the first two requests
and no descriptor, whatever happens and however the run ends. -/
theorem main_withholds (build : Build) (host : Host σ) (sender : Sender σ) (fuel : ℕ)
    (picture : Picture) (server : σ) {r : Except Stop Unit} {w : Window σ}
    (h : (Program.main build host sender fuel picture).run.run (.start (server, {})) =
      some (r, w)) : OnlyFirst (view w) ∨ AllAnnounced (view w) := by
  have hstart : Starting 2 [] (view (.start (server, {}) : Window σ)) :=
    ⟨rfl, ⟨[], rfl, rfl⟩, rfl, fun m => by cases m <;> rfl⟩
  have hends := triple_iff.mp (Program.main_withholds_meets picture) _ r w hstart h
  cases r with
  | ok a => exact .inr hends
  | error e => exact hends

/-- One global, and the answer to `sync`. -/
def incompleteServer : List Byte :=
  announcement 1 shmName 1 ++ event 3 0 (toBytes 4 0)

def isExit (code : ℕ) : Except Stop Unit → Bool
  | .error (.exited code') => code' = code
  | _ => false

theorem pixel_exits :
    ∃ r w, (Program.main .unchecked (boundedServer 99).toHost takingSender 50 pixel).run.run
        (.start (incompleteServer, {})) = some (r, w) ∧ isExit 1 r = true := by
  have hrun : ((Program.main .unchecked (boundedServer 99).toHost takingSender 50 pixel).run.run
      (.start (incompleteServer, {}))).any (fun r => isExit 1 r.1) = true := by
    decide +kernel
  obtain ⟨⟨r, w⟩, hmain, hexit⟩ := (Option.any_eq_true _ _).mp hrun
  exact ⟨r, w, hmain, hexit⟩

theorem main_withholds_incomplete :
    ∃ r w, (Program.main .unchecked (boundedServer 99).toHost takingSender 50 pixel).run.run
        (.start (incompleteServer, {})) = some (r, w) ∧ isExit 1 r = true ∧
      (OnlyFirst (view w) ∨ AllAnnounced (view w)) := by
  obtain ⟨r, w, hmain, hexit⟩ := pixel_exits
  exact ⟨r, w, hmain, hexit, main_withholds _ _ _ _ _ _ hmain⟩

end StaticPicture

end Waylander
