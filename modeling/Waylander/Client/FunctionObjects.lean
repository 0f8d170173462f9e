import Waylander.Client.Dispatch
import Waylander.Client.Invariants
import Waylander.Client.Ledger

/-!
# Function objects with effects

`until` with function objects that use the client and have variables.  What one
of them does is put in the place of the calls that a function object may make, and
its variables lie beside the server in the state of the environment.
-/

namespace Waylander

open Buffer Goto

variable {σ ν ω : Type}

/-! ## Variables -/

namespace Host

/-- The variables beside the server are left alone. -/
def beside (host : Host σ) (ν : Type) : Host (σ × ν) where
  readSome s n :=
    let (r, server) := host.readSome s.1 n
    (r, server, s.2)
  readSome_length s n chunk h := host.readSome_length s.1 n chunk h
  storage s := host.storage s.1

theorem readFrom_beside (host : Host σ) (sock : Socket (σ × ν)) (n : ℕ) :
    ((host.beside ν).readFrom sock n).2.server.2 = sock.server.2 := by
  rw [readFrom]
  split
  · rename_i hread
    exact (congrArg (fun r => r.2.2) hread).symm
  · rename_i hread
    exact (congrArg (fun r => r.2.2) hread).symm

end Host

namespace Sender

/-- The variables beside the server are left alone. -/
def beside (sender : Sender σ) (ν : Type) : Sender (σ × ν) where
  send s bytes fd :=
    let (r, server) := sender.send s.1 bytes fd
    (r, server, s.2)
  send_one s b fd n h := sender.send_one s.1 b fd n h
  write s bytes :=
    let (r, server) := sender.write s.1 bytes
    (r, server, s.2)
  write_le s bytes e n h := sender.write_le s.1 bytes e n h

theorem send_beside (sender : Sender σ) (span : List Byte) (fd : Wfd)
    (o : Outgoing (σ × ν)) :
    (o.send (sender.beside ν) span fd).2.client.serverSock.server.2 =
      o.client.serverSock.server.2 := by
  rw [Outgoing.send]
  split
  · rename_i hsend
    exact (congrArg (fun r => r.2.2) hsend).symm
  · rename_i hsend
    exact (congrArg (fun r => r.2.2) hsend).symm

theorem write_beside (sender : Sender σ) (span : List Byte) (o : Outgoing (σ × ν)) :
    (o.write (sender.beside ν) span).2.client.serverSock.server.2 =
      o.client.serverSock.server.2 := by
  rw [Outgoing.write]
  split
  · rename_i hwrite
    exact (congrArg (fun r => r.2.2) hwrite).symm
  · rename_i hwrite
    exact (congrArg (fun r => r.2.2) hwrite).symm

theorem sendFds_beside (sender : Sender σ) (data : List Byte) (fds : List Wfd)
    (bytesWritten : ℕ) (o : Outgoing (σ × ν)) :
    (sendFds (sender.beside ν) data fds bytesWritten o).2.client.serverSock.server.2 =
      o.client.serverSock.server.2 := by
  induction fds generalizing bytesWritten o with
  | nil => rfl
  | cons fd fds ih =>
      rw [sendFds]
      split
      · have hsend := sender.send_beside ((data.drop bytesWritten).take 1) fd o
        split
        · rename_i heq
          rw [heq] at hsend
          exact (ih _ _).trans hsend
        · rename_i heq
          rw [heq] at hsend
          exact hsend
      · rfl

end Sender

/-- A flush leaves the variables alone. -/
theorem flushRegisteredRequests_beside (sender : Sender σ) (o : Outgoing (σ × ν)) :
    (flushRegisteredRequests (sender.beside ν) o).2.client.serverSock.server.2 =
      o.client.serverSock.server.2 := by
  rw [flushRegisteredRequests]
  split
  · rfl
  · dsimp only [releaseData, releaseFds]
    split
    · have hsent := sender.sendFds_beside o.client.requestBuff.buff
        o.client.requestBuff.fdBuff 0
        { o with client := { o.client with requestBuff := { buff := [], fdBuff := [] } } }
      split
      · rename_i heq
        rw [heq] at hsent
        split
        · exact (sender.write_beside _ _).trans hsent
        · exact hsent
      · rename_i heq
        rw [heq] at hsent
        exact hsent
    · rfl

/-- What receiving leaves alone. -/
structure SameQueues (c c' : ConnectedClient (σ × ν)) : Prop where
  nextNewId : c'.nextNewId = c.nextNewId
  requestBuff : c'.requestBuff = c.requestBuff
  captures : c'.serverSock.server.2 = c.serverSock.server.2

theorem recvMoreData_beside {host : Host σ} {fuel : ℕ} {c c' : ConnectedClient (σ × ν)}
    {r : Except Exception Unit} (h : recvMoreData (host.beside ν) fuel c = some (r, c')) :
    SameQueues c c' := by
  have hblock : ∀ (_ : ℕ) (l : ConnectedClient (σ × ν) × ℕ) j, SameQueues c l.1 →
      some (readAgain (host.beside ν) l.1 l.2) = some j →
        j.Satisfies (fun l => SameQueues c l.1) fun r => SameQueues c r.2 := by
    intro _ l j hl hj
    obtain rfl := Option.some.inj hj
    simp only [readAgain]
    generalize (if (l.2 + recvBlockSize) % 4 = 0 then 1 else 0) = pad
    split
    · rename_i heq
      have hsame := congrArg (fun r => r.2.server.2) heq
      exact ⟨hl.nextNewId, hl.requestBuff,
        hsame.symm.trans ((host.readFrom_beside _ _).trans hl.captures)⟩
    · rename_i heq
      have hsame := congrArg (fun r => r.2.server.2) heq
      have hcaptures := hsame.symm.trans ((host.readFrom_beside _ _).trans hl.captures)
      split
      · exact ⟨hl.nextNewId, hl.requestBuff, hcaptures⟩
      · split
        · exact ⟨hl.nextNewId, hl.requestBuff, hcaptures⟩
        · exact ⟨hl.nextNewId, hl.requestBuff, hcaptures⟩
  exact run_invariant hblock ⟨rfl, rfl, rfl⟩ h

/-- Receiving keeps what is known of the ids, the registered requests and the variables. -/
theorem kept_of_sameQueues (host : Host σ) {I : Session (σ × ν) ω → Prop}
    (hI : ∀ w w', I w → SameQueues w.client w'.client → I w') : Kept (host.beside ν) I where
  visited := fun _ hw _ _ _ => hI _ _ hw ⟨rfl, rfl, rfl⟩
  returned := fun _ hw => hI _ _ hw ⟨rfl, rfl, rfl⟩
  erased := by
    intro w count hw
    by_cases hheld : count ≤ w.client.recvBuff.length
    · rw [Session.erase, if_pos hheld]
      exact hI _ _ hw ⟨rfl, rfl, rfl⟩
    · rw [Session.erase, if_neg hheld]
      exact hI _ _ hw ⟨rfl, rfl, rfl⟩
  read := fun hw hrecv => hI _ _ hw (recvMoreData_beside hrecv)
  parsed := fun hw _ => hI _ _ hw ⟨rfl, rfl, rfl⟩

/-! ## `until` with function objects -/

section UntilWith

/-- What function objects do when they are invoked. -/
abbrev FunctionObjects (σ ω : Type) :=
  Invocation ω → Session σ ω → Option (Exit × Session σ ω)

/-- What is invoked last. -/
def Session.lastInvocation (w : Session σ ω) : Option (Invocation ω) :=
  w.trace.getLast?.bind Event.invocation

/-- A function object does what it does, once. -/
def doesOnce (trace : List (Event σ ω)) : CallbackAction ω :=
  match trace.getLast? with
  | some (.returned .normal) => .returns
  | some (.returned _) => .throws
  | _ => .callsUntil ⟨.empty, 0, 0, false⟩

def invoked (objects : FunctionObjects σ ω) (_ : UntilCall ω) (w : Session σ ω) :
    Option (Exit × Session σ ω) :=
  w.lastInvocation.bind fun invocation => objects invocation w

/-- `until` with the function objects `objects`. -/
def untilWith (objects : FunctionObjects σ ω) (host : Host σ) (fuel : ℕ) (call : UntilCall ω)
    (w : Session σ ω) : Option (Exit × Session σ ω) :=
  run (tryAgain doesOnce (invoked objects) call host) fuel w

/-- How a function object leaves `until`. -/
def Exit.outOfObject : Exit → Exit
  | .normal => .normal
  | .threw _ => .threw .callbackError
  | .undefined => .undefined

variable {objects : FunctionObjects σ ω} {host : Host σ}

theorem run_returned {fuel : ℕ} {w w' : Session σ ω} {exit exit₁ : Exit}
    (hdefined : exit₁ ≠ .undefined)
    (h : run (fun _ => callbackStep doesOnce (invoked objects)) fuel
      (w.log (.returned exit₁)) = some (exit, w')) :
    exit = exit₁.outOfObject ∧ w' = w.log (.returned exit₁) := by
  have hlast : (w.log (.returned exit₁)).trace.getLast? = some (.returned exit₁) := by
    rw [Session.log, List.getLast?_concat]
  cases fuel with
  | zero => cases h
  | succ fuel =>
      rw [run] at h
      cases exit₁ with
      | normal =>
          simp only [callbackStep, doesOnce, hlast] at h
          cases h
          exact ⟨rfl, rfl⟩
      | threw e =>
          simp only [callbackStep, doesOnce, hlast] at h
          cases h
          exact ⟨rfl, rfl⟩
      | undefined => exact absurd rfl hdefined

theorem doesOnce_invoked {w : Session σ ω} {invocation : Invocation ω}
    (hlast : w.lastInvocation = some invocation) :
    doesOnce w.trace = .callsUntil ⟨.empty, 0, 0, false⟩ := by
  rw [Session.lastInvocation] at hlast
  obtain ⟨event, hevent, hinvocation⟩ := Option.bind_eq_some_iff.mp hlast
  rw [doesOnce, hevent]
  cases event with
  | returned exit => cases hinvocation
  | reads c => rfl
  | visited position msg handler => rfl
  | erased count held => rfl
  | parsed parser => rfl

theorem invoke_doesOnce {fuel : ℕ} {w w' : Session σ ω} {exit : Exit}
    {invocation : Invocation ω} (hlast : w.lastInvocation = some invocation)
    (h : invoke doesOnce (invoked objects) fuel w = some (exit, w')) :
    ∃ exit₁ w₁, objects invocation w = some (exit₁, w₁) ∧ exit = exit₁.outOfObject ∧
      (w' = w₁ ∨ w' = w₁.log (.returned exit₁)) := by
  have haction := doesOnce_invoked hlast
  cases fuel with
  | zero => cases h
  | succ fuel =>
      have hcall : invoked objects ⟨.empty, 0, 0, false⟩ w = objects invocation w := by
        rw [invoked, hlast, Option.bind_some]
      rw [invoke, run] at h
      simp only [callbackStep, haction, hcall] at h
      cases hobject : objects invocation w with
      | none => simp [hobject] at h
      | some r =>
          obtain ⟨exit₁, w₁⟩ := r
          refine ⟨exit₁, w₁, rfl, ?_⟩
          by_cases hdefined : exit₁ = .undefined
          · subst hdefined
            simp [hobject] at h
            exact ⟨h.1.symm, .inl h.2.symm⟩
          · simp [hobject, hdefined] at h
            obtain ⟨hexit, hw⟩ := run_returned hdefined h
            exact ⟨hexit, .inr hw⟩

/-- A message that nothing is invoked with is passed over. -/
theorem handOver_doesOnce {fuel position : ℕ} {msg : ParsedMessage} {handler : Handler ω}
    {w w' : Session σ ω} {exit : Exit}
    (h : handOver doesOnce (invoked objects) fuel position msg handler w = some (exit, w')) :
    match (.visited position msg handler : Event σ ω).invocation with
    | none => exit = .normal ∧ w' = w.log (.visited position msg handler)
    | some invocation => ∃ exit₁ w₁,
        objects invocation (w.log (.visited position msg handler)) = some (exit₁, w₁) ∧
          exit = exit₁.outOfObject ∧ (w' = w₁ ∨ w' = w₁.log (.returned exit₁)) := by
  have hlast : (w.log (.visited position msg handler)).lastInvocation =
      (.visited position msg handler : Event σ ω).invocation := by
    rw [Session.lastInvocation, Session.log, List.getLast?_concat, Option.bind_some]
  cases handler with
  | skipped =>
      cases h
      exact ⟨rfl, rfl⟩
  | overload ov => exact invoke_doesOnce hlast h
  | untilCallback => exact invoke_doesOnce hlast h
  | noCallback =>
      cases h
      exact ⟨rfl, rfl⟩

/-- What is to be shown of the function objects of a call, with the invariant `I` between the
messages. -/
structure Serves (objects : FunctionObjects σ ω) (call : UntilCall ω)
    (I : Session σ ω → Prop) (Post : Exit → Session σ ω → Prop) : Prop where
  overload : ∀ {msg : ParsedMessage} {ov : ω} {w w' : Session σ ω} {exit : Exit}, I w →
    call.mos.overloadResolution msg.objectId msg.opcode = some ov →
      objects (.overload ov msg.arguments) w = some (exit, w') →
        if exit = .normal then I w' else Post exit.outOfObject w'
  untilCallback : ∀ {msg : ParsedMessage} {w w' : Session σ ω} {exit : Exit}, I w →
    call.Matches msg → call.callback = true →
      objects (.untilCallback msg.arguments) w = some (exit, w') → Post exit.outOfObject w'
  noCallback : ∀ {w : Session σ ω}, I w → call.callback = false → Post .normal w
  /-- The call may end between two messages. -/
  abandoned : ∀ {w : Session σ ω} {exit : Exit}, I w → exit ≠ .normal → Post exit w
  overrun : ∀ {w : Session σ ω}, Post .normal w → Post .undefined w

namespace Serves

variable {call : UntilCall ω} {I : Session σ ω → Prop} {Post : Exit → Session σ ω → Prop}

theorem outOfObject_eq_normal_iff {exit : Exit} : exit.outOfObject = .normal ↔ exit = .normal := by
  cases exit with
  | normal => exact Iff.rfl
  | threw e => simp [Exit.outOfObject]
  | undefined => simp [Exit.outOfObject]

theorem erase (h : Serves objects call I Post) (hPost : ∀ exit, Kept host (Post exit))
    {w : Session σ ω} (count : ℕ) (hw : Post .normal w) :
    Post (w.erase count).1 (w.erase count).2 := by
  have herased := (hPost .normal).erased count hw
  rw [Session.erase] at herased ⊢
  dsimp only at herased ⊢
  by_cases hheld : count ≤ w.client.recvBuff.length
  · rw [if_pos hheld] at herased ⊢
    exact herased
  · rw [if_neg hheld] at herased ⊢
    exact h.overrun herased

theorem visitNext (h : Serves objects call I Post) (hI : Kept host I)
    (hPost : ∀ exit, Kept host (Post exit)) {spanSize resizes fuel : ℕ} {l : VisitLocals σ ω}
    {j : Jump (VisitLocals σ ω) (Option Exit × Session σ ω)} (hw : I l.session)
    (hvisit : Waylander.visitNext doesOnce (invoked objects) call spanSize resizes fuel l =
      some j) :
    j.Satisfies (fun l' => I l'.session) fun r =>
      match r.1 with
      | none => I r.2
      | some exit => Post exit r.2 := by
  simp only [Waylander.visitNext] at hvisit
  split at hvisit
  · cases hvisit
    exact hw
  · split at hvisit
    · cases hvisit
      exact h.abandoned hw (by simp)
    · split at hvisit
      · cases hvisit
        exact h.abandoned hw (by simp)
      · rename_i msg hparse
        have hlog := hI.visited_of_parse hw hparse
        have hlogged (exit : Exit) : ∀ {w₁ w' : Session σ ω} {exit₁ : Exit},
            (w' = w₁ ∨ w' = w₁.log (.returned exit₁)) → Post exit w₁ → Post exit w' := by
          rintro w₁ w' exit₁ (rfl | rfl) hpost
          · exact hpost
          · exact (hPost exit).returned exit₁ hpost
        by_cases hmatch : call.Matches msg
        · rw [if_pos hmatch] at hvisit
          obtain ⟨⟨exit, w'⟩, hhand, hvisit⟩ := Option.bind_eq_some_iff.mp hvisit
          have hpost : Post exit w' := by
            have hhanded := handOver_doesOnce hhand
            cases hcallback : call.callback with
            | true =>
                rw [if_pos hcallback] at hhanded
                obtain ⟨exit₁, w₁, hobject, rfl, hw'⟩ := hhanded
                exact hlogged _ hw' (h.untilCallback (hlog _) hmatch hcallback hobject)
            | false =>
                rw [if_neg (by rw [hcallback]; decide)] at hhanded
                obtain ⟨rfl, rfl⟩ := hhanded
                exact h.noCallback (hlog _) hcallback
          split at hvisit
          · rename_i hnormal
            cases hvisit
            dsimp only at hnormal
            rw [hnormal] at hpost
            exact h.erase hPost _ hpost
          · cases hvisit
            exact hpost
        · rw [if_neg hmatch] at hvisit
          obtain ⟨⟨exit, w'⟩, hhand, hvisit⟩ := Option.bind_eq_some_iff.mp hvisit
          have hpost : if exit = .normal then I w' else Post exit w' := by
            cases hresolution : call.mos.overloadResolution msg.objectId msg.opcode with
            | none =>
                rw [hresolution] at hhand
                obtain ⟨rfl, rfl⟩ := handOver_doesOnce hhand
                rw [if_pos rfl]
                exact hlog _
            | some ov =>
                rw [hresolution] at hhand
                obtain ⟨exit₁, w₁, hobject, rfl, hw'⟩ := handOver_doesOnce hhand
                have hobject' := h.overload (hlog _) hresolution hobject
                by_cases hnormal : exit₁ = .normal
                · rw [if_pos hnormal] at hobject'
                  rw [if_pos (outOfObject_eq_normal_iff.mpr hnormal)]
                  rcases hw' with rfl | rfl
                  · exact hobject'
                  · exact hI.returned exit₁ hobject'
                · rw [if_neg hnormal] at hobject'
                  rw [if_neg (outOfObject_eq_normal_iff.not.mpr hnormal)]
                  exact hlogged _ hw' hobject'
          split at hvisit
          · rename_i hnormal
            cases hvisit
            rw [if_pos hnormal] at hpost
            exact hpost
          · rename_i hthrows
            cases hvisit
            rw [if_neg hthrows] at hpost
            exact hpost

theorem tryAgain (h : Serves objects call I Post) (hI : Kept host I)
    (hPost : ∀ exit, Kept host (Post exit)) {fuel : ℕ} {w : Session σ ω}
    {j : Jump (Session σ ω) (Exit × Session σ ω)} (hw : I w)
    (hpass : Waylander.tryAgain doesOnce (invoked objects) call host fuel w = some j) :
    j.Satisfies I fun r => Post r.1 r.2 := by
  simp only [Waylander.tryAgain, Option.bind_eq_bind, Option.bind_eq_some_iff,
    Prod.exists] at hpass
  obtain ⟨span, -, left, w', hvisits, hpass⟩ := hpass
  have hblock : ∀ fuel' l j, I l.session →
      Waylander.visitNext doesOnce (invoked objects) call span.length w.resizes fuel' l =
        some j → j.Satisfies (fun l' => I l'.session) (fun r =>
          match r.1 with
          | none => I r.2
          | some exit => Post exit r.2) :=
    fun _ _ _ hl hnext => h.visitNext hI hPost hl hnext
  have hvisited := run_invariant hblock hw hvisits
  cases left with
  | some exit =>
      cases hpass
      exact hvisited
  | none =>
      have herased := hI.erased span.length hvisited
      cases herase : w'.erase span.length with
      | mk exit w'' =>
          rw [herase] at herased hpass
          cases exit with
          | normal =>
              simp only [Session.recvMoreData, Option.bind_eq_bind, Option.bind_eq_some_iff,
                Option.pure_def, Option.some.injEq, Prod.mk.injEq, Prod.exists] at hpass
              obtain ⟨r, w₁, ⟨r', c, hrecv, rfl, rfl⟩, hpass⟩ := hpass
              have hread := hI.read herased hrecv
              cases r' with
              | error e =>
                  cases hpass
                  exact h.abandoned hread (by simp)
              | ok _ =>
                  cases hpass
                  exact hread
          | threw e =>
              cases hpass
              exact h.abandoned herased (by simp)
          | undefined =>
              cases hpass
              exact h.abandoned herased (by simp)

/-- Partial correctness of `until` with function objects. -/
theorem untilWith (h : Serves objects call I Post) (hI : Kept host I)
    (hPost : ∀ exit, Kept host (Post exit)) {fuel : ℕ} {w w' : Session σ ω} {exit : Exit}
    (hw : I w) (hcall : Waylander.untilWith objects host fuel call w = some (exit, w')) :
    Post exit w' :=
  run_invariant (fun _ _ _ hw hpass => h.tryAgain hI hPost hw hpass) hw hcall

end Serves

end UntilWith

end Waylander
