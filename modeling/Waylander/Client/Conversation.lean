import Waylander.Client.FlushInOrder
import Waylander.Client.ObjectIds

/-!
# Conversations

The whole life of one client.  A program reserves ids, registers requests,
flushes and receives in any order, and the function objects that `until` invokes
do the same in the middle of a call.  A conversation is therefore any sequence of
the steps that the member functions are composed of, the receiving ones as fine
as `Kept` has them.

What was registered, reserved and put on the socket is recorded.  No step depends
on these records.
-/

namespace Waylander

open Fallible Goto

variable {σ ω : Type}

/-! ## Registered requests -/

/-- A request as `append` has written it. -/
structure Request where
  obj : Wobject
  msg : Message
  frame : List Byte
  isEncoding : ∃ stale start, frame = msg.encode stale start obj

namespace Request

def written (stale : ℕ → Byte) (start : ℕ) (obj : Wobject) (msg : Message) : Request where
  obj := obj
  msg := msg
  frame := msg.encode stale start obj
  isEncoding := ⟨stale, start, rfl⟩

def pair (r : Request) : Wobject × Message :=
  (r.obj, r.msg)

/-- The bytes of the requests one after another. -/
def bytes (rs : List Request) : List Byte :=
  (rs.map Request.frame).flatten

/-- The descriptors of the requests, in registration and argument order. -/
def fds (rs : List Request) : List Wfd :=
  requestFds (rs.map Request.pair)

theorem frame_length (r : Request) : r.frame.length = r.msg.encodedSize := by
  obtain ⟨stale, start, hframe⟩ := r.isEncoding
  rw [hframe, Message.encode_length]

theorem isFrame (r : Request) (h : r.msg.encodedSize < 2 ^ 16) : wire.IsFrame r.frame := by
  obtain ⟨stale, start, hframe⟩ := r.isEncoding
  rw [hframe]
  exact r.msg.isFrame_encode stale h start r.obj

@[simp] theorem bytes_nil : bytes [] = [] := rfl

@[simp] theorem fds_nil : fds [] = [] := rfl

@[simp] theorem bytes_append (front back : List Request) :
    bytes (front ++ back) = bytes front ++ bytes back := by
  simp [bytes]

@[simp] theorem fds_append (front back : List Request) :
    fds (front ++ back) = fds front ++ fds back := by
  simp [fds, requestFds_append]

@[simp] theorem bytes_singleton (r : Request) : bytes [r] = r.frame := by
  simp [bytes]

@[simp] theorem fds_singleton (r : Request) :
    fds [r] = r.msg.arguments.flatMap Argument.fds := by
  simp [fds, requestFds, pair]

theorem length_le_bytes (rs : List Request) : 8 * rs.length ≤ (bytes rs).length := by
  induction rs with
  | nil => simp
  | cons r rs ih =>
      have hheader : 8 ≤ r.msg.encodedSize := by
        rw [Message.encodedSize, messageHeaderSize]
        omega
      rw [bytes] at ih
      rw [bytes, List.map_cons, List.flatten_cons, List.length_append, r.frame_length,
        List.length_cons]
      omega

/-- The request has less than eight descriptors. -/
def FewFds (r : Request) : Prop :=
  (r.msg.arguments.flatMap Argument.fds).length < 8

theorem length_fds_le {rs : List Request} (h : ∀ r ∈ rs, r.FewFds) :
    (fds rs).length ≤ 7 * rs.length := by
  have hpairs : ∀ m ∈ rs.map pair, (m.2.arguments.flatMap Argument.fds).length < 8 := by
    intro m hm
    obtain ⟨r, hr, rfl⟩ := List.mem_map.mp hm
    exact h r hr
  have hfds := length_requestFds hpairs
  rwa [List.length_map] at hfds

end Request

/-! ## Steps -/

/-- What receiving calls are composed of. -/
inductive SessionStep (host : Host σ) (w : Session σ ω) : Session σ ω → Prop
  | visited {span unparsed rest : List Byte} {msg : ParsedMessage} {position : ℕ}
      (handler : Handler ω) (hbuff : w.client.recvBuff = span ++ unparsed ++ rest)
      (hposition : position = w.position + span.length) (hparse : parseNUM unparsed = .ok msg) :
      SessionStep host w (w.log (.visited position msg handler))
  | returned (exit : Exit) : SessionStep host w (w.log (.returned exit))
  | erased (count : ℕ) : SessionStep host w (w.erase count).2
  | read {fuel : ℕ} {r : Except Exception Unit} {c : ConnectedClient σ}
      (hrecv : recvMoreData host fuel w.client = some (r, c)) :
      SessionStep host w (w.afterRead c)
  | parsed {span rest : List Byte} (hbuff : w.client.recvBuff = span ++ rest) :
      SessionStep host w (({ w with client := { w.client with recvBuff := rest } }).log
        (.parsed { unparsedMessages := span }))

/-- A session, and what the program has done in it. -/
structure Conversation (σ ω : Type) where
  session : Session σ ω
  /-- Everything put on the socket. -/
  sent : List Packet := []
  /-- Every request registered. -/
  registered : List Request := []
  /-- Every id reserved. -/
  reserved : List Wobject := []
  /-- How the flushes ended. -/
  flushes : List FlushExit := []

namespace Conversation

def start (server : σ) : Conversation σ ω where
  session := .start server

def client (c : Conversation σ ω) : ConnectedClient σ :=
  c.session.client

/-- The conversation after a call that leaves the client `client`. -/
def withClient (c : Conversation σ ω) (client : ConnectedClient σ) : Conversation σ ω :=
  { c with session := { c.session with client := client } }

inductive Step (host : Host σ) (c : Conversation σ ω) : Conversation σ ω → Prop
  | receive {w : Session σ ω} (hstep : SessionStep host c.session w) :
      Step host c { c with session := w }
  | reserve :
      Step host c
        { c.withClient (reserveObjectId c.client).2 with
          reserved := c.reserved ++ [(reserveObjectId c.client).1] }
  | register {build : Build} {stale : ℕ → Byte} {obj : Wobject} {msg : Message}
      {client : ConnectedClient σ}
      (hcall : registerRequest build stale obj msg c.client = .ok client) :
      Step host c
        { c.withClient client with
          registered := c.registered ++
            [.written stale c.client.requestBuff.buff.length obj msg] }
  | flush {exit : FlushExit} {o : Outgoing σ} (sender : Sender σ)
      (hcall : flushRegisteredRequests sender { client := c.client, sent := c.sent } = (exit, o)) :
      Step host c
        { c.withClient o.client with sent := o.sent, flushes := c.flushes ++ [exit] }

/-- What a conversation may become. -/
def Steps (host : Host σ) : Conversation σ ω → Conversation σ ω → Prop :=
  Relation.ReflTransGen (Step host)

variable {host : Host σ}

/-! ## Calls are steps -/

/-- The sessions that a conversation may come to by the steps of a call. -/
def Comes (host : Host σ) (c : Conversation σ ω) (w : Session σ ω) : Prop :=
  ∃ c', Steps host c c' ∧ c'.session = w

theorem Comes.receive {c : Conversation σ ω} {w w' : Session σ ω} (h : Comes host c w)
    (hstep : SessionStep host w w') : Comes host c w' := by
  obtain ⟨c', hsteps, rfl⟩ := h
  exact ⟨_, hsteps.tail (.receive hstep), rfl⟩

theorem kept_comes (c : Conversation σ ω) : Kept host (Comes host c) where
  visited := fun handler h hbuff hposition hparse =>
    h.receive (.visited handler hbuff hposition hparse)
  returned := fun exit h => h.receive (.returned exit)
  erased := fun count h => h.receive (.erased count)
  read := fun h hrecv => h.receive (.read hrecv)
  parsed := fun h hbuff => h.receive (.parsed hbuff)

/-- A call that receives is a conversation. -/
theorem comes_performs {callbacks : List (Event σ ω) → CallbackAction ω} {op : Op ω}
    {c : Conversation σ ω} {w : Session σ ω} {exit : Exit}
    (h : Performs callbacks host op c.session exit w) : Comes host c w :=
  (kept_comes c).performs ⟨c, .refl, rfl⟩ h

/-- `until` with function objects whose calls on the client are `calls` is a
conversation if these calls are. -/
theorem comes_until {callbacks : List (Event σ ω) → CallbackAction ω}
    {calls : UntilCall ω → Session σ ω → Option (Exit × Session σ ω)}
    (hcalls : ∀ (c : Conversation σ ω) (call : UntilCall ω) (exit : Exit) (w : Session σ ω),
      calls call c.session = some (exit, w) → Comes host c w)
    {fuel : ℕ} {call : UntilCall ω} {c : Conversation σ ω} {exit : Exit} {w : Session σ ω}
    (h : run (tryAgain callbacks calls call host) fuel c.session = some (exit, w)) :
    Comes host c w := by
  have hkept : Kept.ReentersKeeping (Comes host c) calls := by
    rintro call w ⟨exit, w'⟩ ⟨c', hsteps, rfl⟩ hcall
    obtain ⟨c'', hsteps', hw'⟩ := hcalls c' call exit w' hcall
    exact ⟨c'', hsteps.trans hsteps', hw'⟩
  exact run_invariant (fun _ _ _ hw hpass => (kept_comes c).tryAgain hkept hw hpass)
    ⟨c, .refl, rfl⟩ h

end Conversation

end Waylander
