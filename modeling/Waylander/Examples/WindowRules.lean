import Waylander.Examples.StaticPicture

/-!
# Rules for the parts of the window

Partial correctness of what the window is composed of, in terms of what receiving
leaves alone: the next id, the queue of requests and the variables.  The invariant
of all runs is that the requests registered so far are accepted by the compositor,
in the state `c`, and that the first of them are on the socket.
-/

namespace Waylander

namespace StaticPicture

open Fallible Programs Std.Do
open ListRegistryGlobals (Line)

variable {σ α : Type}

/-! ## What a part of the program depends on -/

/-- What receiving leaves alone. -/
@[ext]
structure View where
  nextNewId : BitVec 32
  requestBuff : MessageBuffer
  vars : Variables

def view (w : Window σ) : View where
  nextNewId := w.client.nextNewId
  requestBuff := w.client.requestBuff
  vars := w.client.serverSock.server.2

theorem view_eq {w w' : Window σ} (h : SameQueues w.client w'.client) : view w' = view w := by
  ext1
  · exact h.nextNewId
  · exact h.requestBuff
  · exact h.captures

/-- A registered request is queued behind the others. -/
def View.queued (v : View) (request : Request) : View where
  nextNewId := v.nextNewId
  requestBuff :=
    { buff := v.requestBuff.buff ++ request.frame
      fdBuff := v.requestBuff.fdBuff ++ request.msg.arguments.flatMap Argument.fds }
  vars := { v.vars with log := v.vars.log ++ [.asked request] }

def View.heard (v : View) (event : ServerEvent) : View :=
  { v with vars := { v.vars with log := v.vars.log ++ [.heard event] } }

/-- The queues are empty. -/
def View.released (v : View) (packets : List Packet) : View where
  nextNewId := v.nextNewId
  requestBuff := {}
  vars := { v.vars with sent := v.vars.sent ++ packets }

/-- Partial correctness of a part of the program. -/
abbrev Meets (P : View → Prop) (x : Program σ α) (Q : α → View → Prop) (E : View → Prop) : Prop :=
  ⦃fun w => ⌜P (view w)⌝⦄ x ⦃ends (fun a w => Q a (view w)) (fun w => E (view w))⦄

namespace Program

variable {P E : View → Prop} {build : Build} {host : Host σ}

theorem modifyVariables_meets {f : Variables → Variables} {Q : Unit → View → Prop}
    (h : ∀ v, P v → Q () { v with vars := f v.vars }) :
    Meets P (modifyVariables f : Program σ Unit) Q E :=
  modifies fun w hw => h (view w) hw

theorem getVariables_meets {f : Variables → Program σ α} {Q : α → View → Prop}
    (h : ∀ v, P v → Meets (fun v' => v' = v) (f v.vars) Q E) :
    Meets P (getVariables >>= f) Q E := by
  rw [Meets, triple_iff]
  intro w r w' hw hrun
  exact triple_iff.mp (h (view w) hw) w r w' rfl hrun

theorem print_meets {lines : List Line} {Q : Unit → View → Prop}
    (h : ∀ v, P v → Q () { v with vars := { v.vars with stdout := v.vars.stdout ++ lines } }) :
    Meets P (print lines : Program σ Unit) Q E :=
  modifyVariables_meets h

theorem hear_meets {event : ServerEvent} {Q : Unit → View → Prop}
    (h : ∀ v, P v → Q () (v.heard event)) : Meets P (hear event : Program σ Unit) Q E :=
  modifyVariables_meets h

theorem setClient_meets {w : Window σ} {client : ConnectedClient (σ × Variables)}
    {E : Window σ → Prop} :
    ⦃fun w' => ⌜w' = w⌝⦄ (setClient client : Program σ Unit)
      ⦃ends (fun _ w' => w' = { w with client := client }) E⦄ := by
  refine modifies ?_
  rintro w' rfl
  rfl

theorem interpert_meets {payload : List Byte} {types : List ArgumentType}
    (h : ∀ v, P v → E v) :
    Meets P (interpert build payload types : Program σ (List Argument)) (fun _ => P) E := by
  rw [interpert]
  split
  · exact stops fun _ hw => h _ hw
  · exact returns fun _ hw => hw

theorem reserveObjectId_meets {Q : Wobject → View → Prop}
    (h : ∀ v, P v → Q v.nextNewId
      { v with
        nextNewId := v.nextNewId + 1
        vars :=
          { v.vars with reserved := v.vars.reserved ++ [v.nextNewId] } }) :
    Meets P (reserveObjectId : Program σ Wobject) Q E := by
  rw [Meets, triple_iff]
  intro w r w' hw hrun
  cases hrun
  exact h (view w) hw

theorem valueOf_meets {m : Member} {i : Wobject} (h : ∀ v, P v → v.vars.ids m = some i) :
    Meets P (valueOf m : Program σ Wobject) (fun a v => a = i ∧ P v) E := by
  refine getVariables_meets fun v hv => ?_
  rw [h v hv]
  refine returns fun w hw => ?_
  rw [hw]
  exact ⟨rfl, hv⟩

theorem registerRequest_meets {obj : Wobject} {msg : Message} {Q : Unit → View → Prop}
    (hstop : ∀ v, P v → E v)
    (h : ∀ v, P v → ∀ request : Request, request.pair = (obj, msg) → Q () (View.queued v request)) :
    Meets P (registerRequest build host obj msg) Q E := by
  refine reads fun w hw => ?_
  cases hcall : Waylander.registerRequest build (host.storage w.client.serverSock.server.1) obj msg
      w.client with
  | error f =>
      simp only [hcall]
      refine stops fun w' hw' => ?_
      rw [hw']
      exact hstop _ hw
  | ok client =>
      simp only [hcall]
      obtain ⟨buff, happend, hclient⟩ := bind_eq_ok_iff.mp hcall
      obtain rfl := pure_eq_ok_iff.mp hclient
      obtain ⟨-, rfl⟩ := append_ok _ _ happend
      refine Programs.bind setClient_meets fun _ => ?_
      refine modifies fun w' hw' => ?_
      rw [hw']
      exact h (view w) hw (.written (host.storage w.client.serverSock.server.1)
        w.client.requestBuff.buff.length obj msg) rfl

theorem answer_meets {member : Member} {types : List ArgumentType}
    {event : Wobject → BitVec 32 → ServerEvent} {reply : BitVec 32 → Message}
    {payload : List Byte} {obj : Wobject} {Q : View → Prop}
    (hobj : ∀ v, P v → v.vars.ids member = some obj) (hstop : ∀ v, P v → E v)
    (hheard : ∀ v serial, P v → E (v.heard (event obj serial)))
    (h : ∀ v serial (request : Request), P v → request.pair = (obj, reply serial) →
      Q ((v.heard (event obj serial)).queued request)) :
    Meets P (answer build host member types event reply payload) (fun _ => Q) E := by
  refine Programs.bind (interpert_meets hstop) fun args => ?_
  split
  · rename_i serial
    refine bind_eq (valueOf_meets hobj) ?_
    refine Programs.bind (hear_meets (P := P)
      (Q := fun _ v' => ∃ v, v' = v.heard (event obj serial) ∧ P v) ?_) fun _ => ?_
    · exact fun v hv => ⟨v, rfl, hv⟩
    refine registerRequest_meets (P := fun v' => ∃ v, v' = v.heard (event obj serial) ∧ P v) ?_ ?_
    · rintro _ ⟨v, rfl, hv⟩
      exact hheard v serial hv
    · rintro _ ⟨v, rfl, hv⟩ request hrequest
      exact h v serial request hv hrequest
  · exact stops fun _ hw => hstop _ hw

/-- What a flush does to the requests in the queue. -/
theorem flush_meets {sender : Sender σ} {Q : Unit → View → Prop}
    (hqueue : ∀ v, P v → ∃ queue : List Request,
      v.requestBuff = ⟨Request.bytes queue, Request.fds queue⟩ ∧
      ∀ (exit : FlushExit) (packets : List Packet), Batch.Sent ⟨queue, exit, packets⟩ →
        if exit = .returned then Q () (View.released v packets)
        else E (View.released v packets)) :
    Meets P (flush sender : Program σ Unit) Q E := by
  refine reads fun w hw => ?_
  obtain ⟨queue, hbuff, hends⟩ := hqueue (view w) hw
  obtain ⟨packets, hsent, hreleased, hbatch⟩ := flushRegisteredRequests_sent
    (sender.beside Variables)
    (o := { client := w.client, sent := w.client.serverSock.server.2.sent })
    hbuff
  have hcaptures := flushRegisteredRequests_beside sender
    { client := w.client, sent := w.client.serverSock.server.2.sent }
  have hids := flushRegisteredRequests_nextNewId (sender.beside Variables)
    { client := w.client, sent := w.client.serverSock.server.2.sent }
  cases hflush : flushRegisteredRequests (sender.beside Variables)
      { client := w.client, sent := w.client.serverSock.server.2.sent } with
  | mk exit o =>
      simp only [hflush] at hsent hreleased hbatch hcaptures hids ⊢
      have hend := hends _ packets hbatch
      have hview : ∀ w' : Window σ, w' = { w with client := o.client } →
          view { w' with
            client :=
              { w'.client with
                serverSock :=
                  { w'.client.serverSock with
                    server := (w'.client.serverSock.server.1,
                      { w'.client.serverSock.server.2 with sent := o.sent }) } } } =
            View.released (view w) packets := by
        rintro w' rfl
        ext1
        · exact hids
        · exact hreleased
        · dsimp only [view, View.released]
          rw [hcaptures, hsent]
      refine Programs.bind setClient_meets fun _ => ?_
      refine Programs.bind (modifies (Q := fun _ w' => view w' = View.released (view w) packets)
        hview) fun _ => ?_
      cases exit with
      | returned =>
          rw [if_pos rfl] at hend
          refine returns fun w' hw' => ?_
          rw [hw']
          exact hend
      | threw e =>
          rw [if_neg (by simp)] at hend
          refine stops fun w' hw' => ?_
          rw [hw']
          exact hend
      | fault f =>
          rw [if_neg (by simp)] at hend
          refine stops fun w' hw' => ?_
          rw [hw']
          exact hend

/-- The rule of `until`: the overloads keep the invariant `P`. -/
theorem recvUntil_meets {fuel : ℕ} {call : UntilCall Overload}
    {objects : Invocation Overload → Program σ Unit} {Q : View → Prop}
    (hoverload : ∀ objId opcode ov payload,
      call.mos.overloadResolution objId opcode = some ov →
        Meets P (objects (.overload ov payload)) (fun _ => P) E)
    (huntil : ∀ payload, Meets P (objects (.untilCallback payload)) (fun _ => Q) E)
    (hnone : call.callback = false → ∀ v, P v → Q v) (hP : ∀ v, P v → E v)
    (hQ : ∀ v, Q v → E v) : Meets P (recvUntil host fuel call objects) (fun _ => Q) E := by
  have hleave : ∀ (invocation : Invocation Overload) (R : View → Prop),
      Meets P (objects invocation) (fun _ => R) E → ∀ (w w' : Window σ) (exit : Exit),
        P (view w) → ((objects invocation).run.run w).map leave = some (exit, w') →
          if exit = .normal then R (view w') else E (view w') := by
    intro invocation R hmeets w w' exit hw hrun
    obtain ⟨⟨r, w₁⟩, hobject, hr⟩ := Option.map_eq_some_iff.mp hrun
    have hends := triple_iff.mp hmeets w r w₁ hw hobject
    cases r with
    | ok a =>
        cases hr
        exact hends
    | error e =>
        cases e with
        | exited code =>
            cases hr
            exact hends
        | terminated e =>
            cases hr
            exact hends
        | fault =>
            cases hr
            exact hends
  let Post : Exit → Window σ → Prop := fun exit w =>
    if exit = .normal then Q (view w) else E (view w)
  have hserves : Serves (fun invocation w => ((objects invocation).run.run w).map leave) call
      (fun w => P (view w)) Post := by
    refine ⟨?_, ?_, ?_, ?_, ?_⟩
    · intro msg ov w w' exit hw hresolution hrun
      have hends := hleave _ P (hoverload _ _ _ _ hresolution) w w' exit hw hrun
      by_cases hnormal : exit = .normal
      · rw [if_pos hnormal] at hends ⊢
        exact hends
      · rw [if_neg hnormal] at hends ⊢
        dsimp only [Post]
        rw [if_neg (Serves.outOfObject_eq_normal_iff.not.mpr hnormal)]
        exact hends
    · intro msg w w' exit hw hmatch hcallback hrun
      have hends := hleave _ Q (huntil _) w w' exit hw hrun
      dsimp only [Post]
      by_cases hnormal : exit = .normal
      · rw [if_pos hnormal] at hends
        rw [if_pos (Serves.outOfObject_eq_normal_iff.mpr hnormal)]
        exact hends
      · rw [if_neg hnormal] at hends
        rw [if_neg (Serves.outOfObject_eq_normal_iff.not.mpr hnormal)]
        exact hends
    · intro w hw hcallback
      exact hnone hcallback _ hw
    · intro w exit hw hexit
      dsimp only [Post]
      rw [if_neg hexit]
      exact hP _ hw
    · intro w hw
      exact hQ _ hw
  have hkeptP : Kept (host.beside Variables) fun w : Window σ => P (view w) :=
    kept_of_sameQueues host fun w w' hw hsame => by
      rw [view_eq hsame]
      exact hw
  have hkeptPost : ∀ exit, Kept (host.beside Variables) (Post exit) := fun exit =>
    kept_of_sameQueues host fun w w' hw hsame => by
      dsimp only [Post]
      rw [view_eq hsame]
      exact hw
  rw [Meets, triple_iff]
  intro w r w' hw hrun
  obtain ⟨⟨exit, w₁⟩, hcall, hr⟩ := Option.map_eq_some_iff.mp hrun
  have hpost := hserves.untilWith hkeptP hkeptPost hw hcall
  cases exit with
  | normal =>
      cases hr
      exact hpost
  | threw e =>
      have hstopped : E (view w₁) := hpost
      cases e <;> cases hr <;> exact hstopped
  | undefined =>
      cases hr
      exact hpost

end Program

/-! ## The globals that are bound -/

def Members.isFound (members : Members) : Member → Bool
  | .shm => members.wlShmFound
  | .compositor => members.wlCompositorFound
  | .wmBase => members.xdgWmBaseFound
  | _ => false

/-- The interfaces of the globals that are bound to members. -/
def globalInterface : Member → Interface
  | .shm => .wlShm
  | .compositor => .wlCompositor
  | .wmBase => .xdgWmBase
  | _ => .null

/-- The names of the globals that are bound to members. -/
def globalName : Member → List Byte
  | .shm => shmName
  | .compositor => compositorName
  | .wmBase => wmBaseName
  | _ => []

/-- A flag is set for the member `m`, and nothing else is changed. -/
structure Finds (found : Variables → Variables) (m : Member) : Prop where
  ne_registry : m ≠ .registry
  ids : ∀ v, (found v).ids = v.ids
  log : ∀ v, (found v).log = v.log
  reserved : ∀ v, (found v).reserved = v.reserved
  sent : ∀ v, (found v).sent = v.sent
  readIndeterminate : ∀ v, (found v).readIndeterminate = v.readIndeterminate
  isFound : ∀ v m', (found v).isFound m' = true → m' = m ∨ v.isFound m' = true

theorem finds_shm : Finds (fun v => { v with wlShmFound := true }) .shm := by
  refine ⟨by decide, fun _ => rfl, fun _ => rfl, fun _ => rfl, fun _ => rfl, fun _ => rfl, ?_⟩
  rintro v (_ | _) hm
  all_goals first | exact .inl rfl | exact .inr hm

theorem finds_compositor : Finds (fun v => { v with wlCompositorFound := true }) .compositor := by
  refine ⟨by decide, fun _ => rfl, fun _ => rfl, fun _ => rfl, fun _ => rfl, fun _ => rfl, ?_⟩
  rintro v (_ | _) hm
  all_goals first | exact .inl rfl | exact .inr hm

theorem finds_wmBase : Finds (fun v => { v with xdgWmBaseFound := true }) .wmBase := by
  refine ⟨by decide, fun _ => rfl, fun _ => rfl, fun _ => rfl, fun _ => rfl, fun _ => rfl, ?_⟩
  rintro v (_ | _) hm
  all_goals first | exact .inl rfl | exact .inr hm

/-- The interface is that of the globals that are bound to the member `m`. -/
structure Wanted (interface : List Byte) (m : Member) : Prop where
  name : globalName m = interface
  interface : Interface.ofName interface = some (globalInterface m)

/-- What `idFor` does is to reserve an id for a member, or nothing. -/
theorem Program.idFor_cases (interface : List Byte) {R : Program σ (Option Wobject) → Prop}
    (hfound : ∀ found m, Finds found m → Wanted interface m → R (reserveFound found m))
    (hnone : R (return none)) :
    ∃ g, Program.idFor interface = Program.getVariables >>= g ∧ ∀ v, R (g v) := by
  refine ⟨_, rfl, fun v => ?_⟩
  dsimp only
  by_cases hshm : interface = shmName
  · rw [if_pos hshm]
    exact hfound _ .shm finds_shm ⟨hshm.symm, if_pos hshm⟩
  rw [if_neg hshm]
  by_cases hcompositor : interface = compositorName
  · rw [if_pos hcompositor]
    exact hfound _ .compositor finds_compositor
      ⟨hcompositor.symm, (if_neg hshm).trans (if_pos hcompositor)⟩
  rw [if_neg hcompositor]
  split
  · rename_i hwmBase
    exact hfound _ .wmBase finds_wmBase
      ⟨hwmBase.2.symm, (if_neg hshm).trans ((if_neg hcompositor).trans (if_pos hwmBase.2))⟩
  · exact hnone

/-! ## What stands in a run -/

/-- Each request is on the socket or in the queue. -/
def Booked (v : View) : Prop :=
  ∃ flushed queue : List Request, asked v.vars.log = flushed ++ queue ∧
    v.requestBuff = ⟨Request.bytes queue, Request.fds queue⟩ ∧
    sentBytes v.vars.sent = Request.bytes flushed ∧ sentFds v.vars.sent = Request.fds flushed

/-- All requests are accepted, the first of them are on the socket, and only assigned ids were
used. -/
structure Safe (v : View) : Prop where
  accepted : ∃ c, Compositor.Accepts v.vars.log c
  bytes : sentBytes v.vars.sent <+: Request.bytes (asked v.vars.log)
  fds : sentFds v.vars.sent <+: Request.fds (asked v.vars.log)
  determinate : v.vars.readIndeterminate = false

theorem Safe.printed {v : View} (h : Safe v) (lines : List Line) :
    Safe { v with vars := { v.vars with stdout := v.vars.stdout ++ lines } } :=
  ⟨h.accepted, h.bytes, h.fds, h.determinate⟩

/-- The compositor is `c`, and the last `fresh` ids reserved were not used yet. -/
structure Stands (c : Compositor) (fresh : ℕ) (members : Members) (v : View) : Prop where
  accepts : Compositor.Accepts v.vars.log c
  nextNewId : v.nextNewId = BitVec.ofNat 32 (c.objects.length + fresh)
  reserved : v.vars.reserved.length + 2 = c.objects.length + fresh
  members : v.vars.toMembers = members
  booked : Booked v
  determinate : v.vars.readIndeterminate = false

/-- All requests are on the socket. -/
structure Flushed (c : Compositor) (fresh : ℕ) (members : Members) (v : View) : Prop where
  stands : Stands c fresh members v
  queue : v.requestBuff = {}

namespace Stands

variable {c c' : Compositor} {fresh fresh' : ℕ} {members : Members} {v : View}

theorem safe (h : Stands c fresh members v) : Safe v := by
  obtain ⟨flushed, queue, hasked, -, hbytes, hfds⟩ := h.booked
  refine ⟨⟨c, h.accepts⟩, ?_, ?_, h.determinate⟩
  · rw [hasked, hbytes, Request.bytes_append]
    exact List.prefix_append _ _
  · rw [hasked, hfds, Request.fds_append]
    exact List.prefix_append _ _

theorem queued (h : Stands c fresh members v) {request : Request} {obj : Wobject} {msg : Message}
    (hrequest : request.pair = (obj, msg)) (haccepted : c.request obj msg = some c')
    (hfresh : c'.objects.length + fresh' = c.objects.length + fresh) :
    Stands c' fresh' members (v.queued request) := by
  obtain ⟨flushed, queue, hasked, hbuff, hbytes, hfds⟩ := h.booked
  refine ⟨h.accepts.concat ?_, ?_, ?_, h.members,
    ⟨flushed, queue ++ [request], ?_, ?_, hbytes, hfds⟩, h.determinate⟩
  · obtain ⟨hobj, hmsg⟩ := Prod.mk.inj hrequest
    change c.request request.obj request.msg = some c'
    rw [hobj, hmsg, haccepted]
  · rw [hfresh]
    exact h.nextNewId
  · rw [hfresh]
    exact h.reserved
  · rw [View.queued, asked_append, hasked, List.append_assoc]
    rfl
  · rw [View.queued, hbuff]
    simp

theorem heard (h : Stands c fresh members v) (event : ServerEvent)
    (hobjects : (c.hear event).objects = c.objects) :
    Stands (c.hear event) fresh members (v.heard event) := by
  obtain ⟨flushed, queue, hasked, hbuff, hsent⟩ := h.booked
  refine ⟨h.accepts.concat rfl, ?_, ?_, h.members, ⟨flushed, queue, ?_, hbuff, hsent⟩,
    h.determinate⟩
  · rw [hobjects]
    exact h.nextNewId
  · rw [hobjects]
    exact h.reserved
  · rw [View.heard, asked_append, hasked]
    exact List.append_nil _

theorem released (h : Stands c fresh members v) :
    ∃ queue : List Request, v.requestBuff = ⟨Request.bytes queue, Request.fds queue⟩ ∧
      ∀ (exit : FlushExit) (packets : List Packet), Batch.Sent ⟨queue, exit, packets⟩ →
        if exit = .returned then
          Flushed c fresh members (v.released packets)
        else
          Safe (v.released packets) := by
  obtain ⟨flushed, queue, hasked, hbuff, hbytes, hfds⟩ := h.booked
  refine ⟨queue, hbuff, fun exit packets hsent => ?_⟩
  by_cases hreturned : exit = .returned
  · rw [if_pos hreturned]
    have hdelivered := hsent.delivered hreturned
    refine ⟨⟨h.accepts, h.nextNewId, h.reserved, h.members, ⟨flushed ++ queue, [], ?_, rfl, ?_, ?_⟩,
      h.determinate⟩, rfl⟩
    · rw [List.append_nil]
      exact hasked
    · rw [View.released, sentBytes_append, hbytes, hdelivered.bytes, Request.bytes_append]
    · rw [View.released, sentFds_append, hfds, hdelivered.fds, Request.fds_append]
  · rw [if_neg hreturned]
    refine ⟨⟨c, h.accepts⟩, ?_, ?_, h.determinate⟩
    · rw [View.released, sentBytes_append, hbytes, hasked, Request.bytes_append]
      exact (List.prefix_append_right_inj _).mpr hsent.inOrder.bytes
    · rw [View.released, sentFds_append, hfds, hasked, Request.fds_append]
      exact (List.prefix_append_right_inj _).mpr hsent.inOrder.fds

end Stands

namespace Program

variable {build : Build} {host : Host σ} {sender : Sender σ} {E : View → Prop}
variable {c c' : Compositor} {fresh : ℕ} {members : Members}

theorem reserveObjectId_stands :
    Meets (Stands c fresh members) (reserveObjectId : Program σ Wobject)
      (fun id v => id = BitVec.ofNat 32 (c.objects.length + fresh) ∧ Stands c (fresh + 1) members v)
      E := by
  refine reserveObjectId_meets fun v hv => ⟨hv.nextNewId, hv.accepts, ?_, ?_, hv.members, hv.booked,
    hv.determinate⟩
  · dsimp only
    rw [hv.nextNewId, ← Nat.add_assoc]
    exact (BitVec.ofNat_add _ 1).symm
  · dsimp only
    rw [List.length_append, List.length_singleton]
    have hreserved := hv.reserved
    omega

theorem reserveId_stands (m : Member) :
    Meets (Stands c fresh members) (reserveId m : Program σ Wobject)
      (fun id v => id = BitVec.ofNat 32 (c.objects.length + fresh) ∧
        Stands c (fresh + 1)
          (members.assign m (BitVec.ofNat 32 (c.objects.length + fresh))) v) E := by
  refine Programs.bind_eq reserveObjectId_stands ?_
  refine Programs.bind (modifyVariables_meets (Q := fun _ => Stands c (fresh + 1)
    (members.assign m (BitVec.ofNat 32 (c.objects.length + fresh)))) ?_) fun _ => ?_
  · intro v hv
    refine ⟨hv.accepts, hv.nextNewId, hv.reserved, ?_, hv.booked, hv.determinate⟩
    dsimp only
    rw [hv.members]
  · exact returns fun w hw => ⟨rfl, hw⟩

theorem valueOf_stands {m : Member} {i : Wobject} (h : members.ids m = some i) :
    Meets (Stands c fresh members) (valueOf m : Program σ Wobject)
      (fun a v => a = i ∧ Stands c fresh members v) E := by
  refine valueOf_meets fun v hv => ?_
  rw [hv.members, h]

theorem registerRequest_stands (fresh' : ℕ) {obj : Wobject} {msg : Message}
    (haccepted : c.request obj msg = some c')
    (hfresh : c'.objects.length + fresh' = c.objects.length + fresh) :
    Meets (Stands c fresh members) (registerRequest build host obj msg)
      (fun _ => Stands c' fresh' members) Safe :=
  registerRequest_meets (fun _ hv => hv.safe)
    fun _ hv _ hrequest => hv.queued hrequest haccepted hfresh

theorem flush_stands :
    Meets (Stands c fresh members) (flush sender : Program σ Unit)
      (fun _ => Flushed c fresh members) Safe :=
  flush_meets fun _ hv => hv.released

end Program

/-! ## What only grows -/

/-- Reserved ids are never given back, and nothing is erased from the log. -/
structure Extends (v v' : Variables) : Prop where
  reserved : v.reserved.length ≤ v'.reserved.length
  log : v.log <+: v'.log

theorem Extends.refl (v : Variables) : Extends v v :=
  ⟨le_refl _, List.prefix_refl _⟩

theorem Extends.unchanged {v v' : Variables} (hreserved : v'.reserved = v.reserved)
    (hlog : v'.log = v.log) : Extends v v' :=
  ⟨by rw [hreserved], by rw [hlog]⟩

theorem Extends.trans {v₁ v₂ v₃ : Variables} (h : Extends v₁ v₂) (h' : Extends v₂ v₃) :
    Extends v₁ v₃ :=
  ⟨h.reserved.trans h'.reserved, h.log.trans h'.log⟩

def Grows (x : Program σ α) : Prop :=
  ∀ v, Meets (fun v' => Extends v v'.vars) x (fun _ v' => Extends v v'.vars)
    (fun v' => Extends v v'.vars)

/-- There is room for the ids of the config stage. -/
def Lasts (v : View) : Prop :=
  v.vars.reserved.length + 10 < 2 ^ 32

/-- What holds as long as there is room. -/
def WhileLasts (P : View → Prop) (v : View) : Prop :=
  Lasts v → P v

namespace Grows

open Program

variable {β : Type} {build : Build} {host : Host σ} {sender : Sender σ} {picture : Picture}

protected theorem bind {x : Program σ α} {f : α → Program σ β} (hx : Grows x)
    (hf : ∀ a, Grows (f a)) : Grows (x >>= f) :=
  fun n => Programs.bind (hx n) fun a => hf a n

protected theorem pure (a : α) : Grows (pure a : Program σ α) :=
  fun _ => returns fun _ h => h

protected theorem throw (e : Stop) : Grows (throw e : Program σ α) :=
  fun _ => stops fun _ h => h

theorem modifyVariables {f : Variables → Variables}
    (hf : ∀ v, Extends v (f v)) :
    Grows (Program.modifyVariables f : Program σ Unit) :=
  fun _ => modifyVariables_meets fun v hv => hv.trans (hf v.vars)

theorem getVariables : Grows (Program.getVariables : Program σ Variables) :=
  fun _ => getVariables_meets fun _ hv => returns fun w hw => by
    rw [hw]
    exact hv

theorem reserveObjectId : Grows (Program.reserveObjectId : Program σ Wobject) :=
  fun _ => reserveObjectId_meets fun v hv => hv.trans ⟨by simp, List.prefix_refl _⟩

theorem reserveId (m : Member) : Grows (Program.reserveId m : Program σ Wobject) := by
  refine reserveObjectId.bind fun id => ?_
  refine Grows.bind (modifyVariables ?_) fun _ => .pure _
  exact fun _ => .unchanged rfl rfl

theorem valueOf (m : Member) : Grows (Program.valueOf m : Program σ Wobject) := by
  refine getVariables.bind fun v => ?_
  split
  · exact .pure _
  · refine Grows.bind (modifyVariables ?_) fun _ => .throw _
    exact fun _ => .unchanged rfl rfl

theorem registerRequest (obj : Wobject) (msg : Message) :
    Grows (Program.registerRequest build host obj msg) :=
  fun _ => registerRequest_meets (fun _ h => h) fun _ h _ _ =>
    h.trans ⟨le_refl _, List.prefix_append _ _⟩

theorem interpert (payload : List Byte) (types : List ArgumentType) :
    Grows (Program.interpert build payload types : Program σ (List Argument)) := by
  rw [Program.interpert]
  split
  · exact .throw _
  · exact .pure _

theorem addOverload (mos : MessageOverloadSet Overload) (objId : Wobject) (opcode : Wopcode)
    (overload : Overload) :
    Grows (Program.addOverload mos objId opcode overload : Program σ _) := by
  rw [Program.addOverload]
  split
  · exact .throw _
  · exact .pure _

theorem flush : Grows (Program.flush sender : Program σ Unit) := by
  intro v
  refine reads fun w hw => ?_
  have hcaptures := flushRegisteredRequests_beside sender
    { client := w.client, sent := w.client.serverSock.server.2.sent }
  cases hflush : flushRegisteredRequests (sender.beside Variables)
      { client := w.client, sent := w.client.serverSock.server.2.sent } with
  | mk exit o =>
      simp only [hflush] at hcaptures ⊢
      refine Programs.bind setClient_meets fun _ => ?_
      refine Programs.bind (modifies (Q := fun _ w' => Extends v (view w').vars) ?_)
        fun _ => ?_
      · rintro w' rfl
        dsimp only [view]
        rw [hcaptures]
        exact ⟨hw.reserved, hw.log⟩
      · cases exit with
        | returned => exact returns fun _ h => h
        | threw e => exact stops fun _ h => h
        | fault f => exact stops fun _ h => h

theorem recvUntil {fuel : ℕ} {call : UntilCall Overload}
    {objects : Invocation Overload → Program σ Unit}
    (h : ∀ invocation, Grows (objects invocation)) :
    Grows (Program.recvUntil host fuel call objects) :=
  fun v => recvUntil_meets (fun _ _ _ _ _ => h _ v) (fun _ => h _ v) (fun _ _ hv => hv)
    (fun _ hv => hv) fun _ hv => hv

/-- What holds as long as nothing but growth happens is kept. -/
theorem keeps {x : Program σ α} (hx : Grows x) {R : View → Prop}
    (hR : ∀ v v', Extends v.vars v'.vars → R v → R v') : Meets R x (fun _ => R) R := by
  rw [Meets, triple_iff]
  intro w r w' hw hrun
  have hgrown := triple_iff.mp (hx (view w).vars) w r w' (.refl _) hrun
  cases r with
  | ok a => exact hR _ _ hgrown hw
  | error e => exact hR _ _ hgrown hw

theorem while_lasts {x : Program σ α} (hx : Grows x) {P E : View → Prop} {Q : α → View → Prop}
    (h : Meets (fun v => Lasts v ∧ P v) x Q E) :
    Meets (WhileLasts P) x (fun a => WhileLasts (Q a)) (WhileLasts E) := by
  refine Programs.while_lasts (L := fun w => Lasts (view w)) ?_ h
  refine hx.keeps (R := fun v => ¬Lasts v) fun v v' hgrown hlasts hlasts' => hlasts ?_
  have hreserved := hgrown.reserved
  rw [Lasts] at hlasts' ⊢
  omega

theorem onFatalError (payload : List Byte) :
    Grows (Program.onFatalError build payload : Program σ Unit) := by
  refine (interpert _ _).bind fun args => ?_
  split
  · refine Grows.bind (modifyVariables ?_) fun _ => .throw _
    exact fun _ => .unchanged rfl rfl
  · exact .throw _

theorem reserveFound {found : Variables → Variables} {m : Member} (h : Finds found m) :
    Grows (Program.reserveFound found m : Program σ (Option Wobject)) :=
  (modifyVariables fun v => .unchanged (h.reserved v) (h.log v)).bind fun _ =>
    (reserveId m).bind fun _ => .pure _

theorem idFor (interface : List Byte) :
    Grows (Program.idFor interface : Program σ (Option Wobject)) := by
  obtain ⟨g, heq, hg⟩ := Program.idFor_cases (R := Grows) interface
    (fun found m hfinds _ => reserveFound hfinds) (.pure _)
  rw [heq]
  exact getVariables.bind hg

theorem onGlobal (payload : List Byte) :
    Grows (Program.onGlobal build host payload : Program σ Unit) := by
  refine (interpert _ _).bind fun args => ?_
  split
  · refine Grows.bind (modifyVariables ?_) fun _ => (idFor _).bind fun id => ?_
    · exact fun _ => ⟨le_refl _, List.prefix_append _ _⟩
    · split
      · exact (valueOf _).bind fun _ => registerRequest _ _
      · exact .pure _
  · exact .throw _

theorem answer {member : Member} {types : List ArgumentType}
    {event : Wobject → BitVec 32 → ServerEvent} {reply : BitVec 32 → Message}
    (payload : List Byte) :
    Grows (Program.answer build host member types event reply payload : Program σ Unit) := by
  refine (interpert _ _).bind fun args => ?_
  split
  · refine (valueOf _).bind fun _ => Grows.bind (modifyVariables ?_) fun _ => registerRequest _ _
    exact fun _ => ⟨le_refl _, List.prefix_append _ _⟩
  · exact .throw _

theorem onClose (payload : List Byte) :
    Grows (Program.onClose build payload : Program σ Unit) := by
  refine (interpert _ _).bind fun args => ?_
  split
  · exact .pure _
  · exact .throw _

theorem objects {untilCallback : List Byte → Program σ Unit}
    (h : ∀ payload, Grows (untilCallback payload)) (invocation : Invocation Overload) :
    Grows (Program.objects build host untilCallback invocation) := by
  cases invocation with
  | overload ov payload =>
      cases ov with
      | fatalError => exact onFatalError payload
      | global => exact onGlobal payload
      | ping => exact answer payload
  | untilCallback payload => exact h payload

theorem defaultOverloads : Grows (Program.defaultOverloads : Program σ _) :=
  (addOverload _ _ _ _).bind fun _ => (valueOf _).bind fun _ => addOverload _ _ _ _

theorem setUp : Grows (Program.setUp build host sender picture : Program σ Unit) :=
  reserveObjectId.bind fun _ => (reserveId _).bind fun _ =>
    (valueOf _).bind fun _ => (registerRequest _ _).bind fun _ =>
    (registerRequest _ _).bind fun _ => (registerRequest _ _).bind fun _ =>
    (reserveId _).bind fun _ => (reserveId _).bind fun _ => (valueOf _).bind fun _ =>
    (reserveId _).bind fun _ =>
    (valueOf _).bind fun _ => (registerRequest _ _).bind fun _ =>
    (valueOf _).bind fun _ => (registerRequest _ _).bind fun _ =>
    (valueOf _).bind fun _ => (registerRequest _ _).bind fun _ =>
    (valueOf _).bind fun _ => (registerRequest _ _).bind fun _ => flush

theorem configStage {fuel : ℕ} :
    Grows (Program.configStage build host sender fuel picture : Program σ Unit) :=
  setUp.bind fun _ => defaultOverloads.bind fun _ => (valueOf _).bind fun _ =>
    (recvUntil (objects answer)).bind fun _ =>
    (valueOf _).bind fun _ => (valueOf _).bind fun _ => (registerRequest _ _).bind fun _ =>
    (valueOf _).bind fun _ => (registerRequest _ _).bind fun _ => flush

theorem waitForCloseEvent {fuel : ℕ} :
    Grows (Program.waitForCloseEvent build host fuel : Program σ Unit) :=
  defaultOverloads.bind fun _ => (valueOf _).bind fun _ => recvUntil (objects onClose)

end Grows

end StaticPicture

end Waylander
