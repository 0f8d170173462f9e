import Mathlib.Algebra.Order.Group.Nat
import Waylander.Client.Flush
import Waylander.Wire.RoundTrip

/-!
# Descriptors travel in time

The two queues of the request buffer are not linked: the descriptor at index `i`
goes with byte `i` of everything that was registered.  A message has at least
eight bytes, so if no message has more than seven descriptors, the descriptors of
any number of messages are through before these messages' bytes are.
-/

namespace Waylander

open Fallible

variable {σ : Type}

/-- `register_request` for every pair in order. -/
def registerAll (build : Build) (stale : ℕ → Byte) (c : ConnectedClient σ)
    (msgs : List (Wobject × Message)) : Except Fault (ConnectedClient σ) :=
  msgs.foldlM (fun c m => registerRequest build stale m.1 m.2 c) c

/-- The descriptors of the messages, in registration and argument order. -/
def requestFds (msgs : List (Wobject × Message)) : List Wfd :=
  msgs.flatMap fun m => m.2.arguments.flatMap Argument.fds

/-- The bytes of the messages in registration order. -/
def requestBytes (stale : ℕ → Byte) (msgs : List (Wobject × Message)) : List Byte :=
  (encodeFrames stale 0 msgs).flatten

/-- The socket takes all that it is given. -/
def Sender.NeverThrows (sender : Sender σ) : Prop :=
  (∀ s b fd, ∃ s', sender.send s [b] fd = (.ok 1, s')) ∧
    ∀ s bytes, ∃ s', sender.write s bytes = (.ok (), s')

/-- When the descriptors of a message and of all earlier ones are sent, no byte
behind the message is. -/
def FdsInTime (stale : ℕ → Byte) (msgs : List (Wobject × Message))
    (packets : List Packet) : Prop :=
  ∀ front back, msgs = front ++ back → ∃ pre post, packets = pre ++ post ∧
    sentFds pre = requestFds front ∧
    (sentBytes pre).length ≤ (requestBytes stale front).length

/-! ## Registered requests -/

theorem registerAll_eq {build : Build} {stale : ℕ → Byte} {c c' : ConnectedClient σ}
    {msgs : List (Wobject × Message)} (h : registerAll build stale c msgs = .ok c') :
    c' = { c with requestBuff := c'.requestBuff } ∧
      appendAll build stale c.requestBuff msgs = .ok c'.requestBuff := by
  induction msgs generalizing c with
  | nil =>
      cases h
      exact ⟨rfl, rfl⟩
  | cons m msgs ih =>
      rw [registerAll, List.foldlM_cons] at h
      rw [appendAll, List.foldlM_cons]
      obtain ⟨c₁, hregister, hrest⟩ := bind_eq_ok_iff.mp h
      obtain ⟨buf, happend, heq⟩ := bind_eq_ok_iff.mp hregister
      obtain rfl := Except.ok.inj heq
      obtain ⟨hc, hall⟩ := ih hrest
      exact ⟨by rw [hc], bind_eq_ok_iff.mpr ⟨buf, happend, hall⟩⟩

/-! ## Counting -/

section Counting

variable (stale : ℕ → Byte) {msgs : List (Wobject × Message)}

theorem encodeFrames_append (start : ℕ) (front back : List (Wobject × Message)) :
    encodeFrames stale start (front ++ back) =
      encodeFrames stale start front ++
        encodeFrames stale (start + (encodeFrames stale start front).flatten.length) back := by
  induction front generalizing start with
  | nil => simp [encodeFrames]
  | cons m front ih =>
      simp only [List.cons_append, encodeFrames, ih, List.flatten_cons, List.length_append,
        Message.encode_length, Nat.add_assoc]

theorem length_encodeFrames_flatten (msgs : List (Wobject × Message)) (start : ℕ) :
    8 * msgs.length ≤ (encodeFrames stale start msgs).flatten.length := by
  induction msgs generalizing start with
  | nil => simp
  | cons m msgs ih =>
      have hrest := ih (start + m.2.encodedSize)
      have hheader : 8 ≤ m.2.encodedSize := by
        rw [Message.encodedSize, messageHeaderSize]
        omega
      rw [encodeFrames, List.flatten_cons, List.length_append, Message.encode_length,
        List.length_cons]
      omega

theorem length_requestFds (h : ∀ m ∈ msgs, (m.2.arguments.flatMap Argument.fds).length < 8) :
    (requestFds msgs).length ≤ 7 * msgs.length := by
  induction msgs with
  | nil => simp [requestFds]
  | cons m msgs ih =>
      have hrest := ih (fun m hm => h m (by simp [hm]))
      have hfirst := h m (by simp)
      rw [requestFds] at hrest
      rw [requestFds, List.flatMap_cons, List.length_append, List.length_cons]
      omega

theorem requestFds_append (front back : List (Wobject × Message)) :
    requestFds (front ++ back) = requestFds front ++ requestFds back :=
  List.flatMap_append

/-- Of messages with less than eight descriptors each there are at least as many
bytes as descriptors. -/
theorem length_requestFds_le
    (h : ∀ m ∈ msgs, (m.2.arguments.flatMap Argument.fds).length < 8) :
    (requestFds msgs).length ≤ (requestBytes stale msgs).length := by
  have hfds := length_requestFds h
  have hbytes := length_encodeFrames_flatten stale msgs 0
  rw [requestBytes]
  omega

theorem length_requestFds_lt (hne : msgs ≠ [])
    (h : ∀ m ∈ msgs, (m.2.arguments.flatMap Argument.fds).length < 8) :
    (requestFds msgs).length < (requestBytes stale msgs).length := by
  have hfds := length_requestFds h
  have hbytes := length_encodeFrames_flatten stale msgs 0
  have hpos := List.length_pos_of_ne_nil hne
  rw [requestBytes]
  omega

theorem fdPackets_append {data : List Byte} {front back : List Wfd}
    (h : front.length ≤ data.length) :
    fdPackets data (front ++ back) =
      fdPackets data front ++ fdPackets (data.drop front.length) back := by
  induction front generalizing data with
  | nil => simp [fdPackets]
  | cons fd front ih =>
      cases data with
      | nil => simp at h
      | cons b data =>
          have hrest := @ih data (by simpa using h)
          simpa [fdPackets] using hrest

/-- The packets that carry the descriptors of the first messages have no more bytes
than these messages. -/
theorem fdsInTime_fdPackets {rest : List Packet}
    (h : ∀ m ∈ msgs, (m.2.arguments.flatMap Argument.fds).length < 8) :
    FdsInTime stale msgs (fdPackets (requestBytes stale msgs) (requestFds msgs) ++ rest) := by
  rintro front back rfl
  have hfront : ∀ m ∈ front, (m.2.arguments.flatMap Argument.fds).length < 8 :=
    fun m hm => h m (by simp [hm])
  have hfds := length_requestFds_le stale hfront
  have hdata : (requestBytes stale front).length ≤ (requestBytes stale (front ++ back)).length := by
    rw [requestBytes, requestBytes, encodeFrames_append]
    simp
  refine ⟨fdPackets (requestBytes stale (front ++ back)) (requestFds front),
    fdPackets ((requestBytes stale (front ++ back)).drop (requestFds front).length)
      (requestFds back) ++ rest, ?_, ?_, ?_⟩
  · rw [requestFds_append, fdPackets_append (by omega), List.append_assoc]
  · exact sentFds_fdPackets (by omega)
  · rw [sentBytes_fdPackets (by omega), List.length_take]
    omega

end Counting

/-! ## Flushing -/

theorem requestBuff_eq_empty {c : ConnectedClient σ} (h : hasRegisteredRequests c = false) :
    c.requestBuff = {} := by
  rw [hasRegisteredRequests, Bool.not_eq_false', MessageBuffer.empty, Bool.and_eq_true,
    List.isEmpty_iff, List.isEmpty_iff] at h
  obtain ⟨hbuff, hfdBuff⟩ := h
  rw [show c.requestBuff = ⟨c.requestBuff.buff, c.requestBuff.fdBuff⟩ from rfl, hbuff, hfdBuff]

/-- A flush to a socket that never throws puts everything on it. -/
theorem Sender.NeverThrows.delivered {sender : Sender σ} (hsender : sender.NeverThrows)
    {data : List Byte} {fds : List Wfd} {exit : FlushExit} {packets : List Packet}
    (h : Flushes sender data fds exit packets) :
    exit = .returned ∧
      packets = fdPackets data fds ++ [{ bytes := data.drop fds.length }] := by
  rcases h with - | ⟨-, t, bytes, hthrew⟩ | ⟨-, t, b, hthrew⟩
  · exact ⟨rfl, rfl⟩
  · obtain ⟨t', htakes⟩ := hsender.2 t bytes
    rw [htakes] at hthrew
    cases hthrew
  · obtain ⟨t', htakes⟩ := hsender.1 t b _
    rw [htakes] at hthrew
    cases hthrew

/-- Requests registered on a client without requests are flushed in order: no
assertion fails, no span is left, all bytes and descriptors are put on the
socket, each descriptor in time, and nothing is left to flush. -/
theorem flushRegisteredRequests_registerAll {build : Build} {stale : ℕ → Byte}
    {sender : Sender σ} {c c' : ConnectedClient σ} {msgs : List (Wobject × Message)}
    (hsender : sender.NeverThrows) (hempty : hasRegisteredRequests c = false)
    (hfds : ∀ m ∈ msgs, (m.2.arguments.flatMap Argument.fds).length < 8)
    (hregister : registerAll build stale c msgs = .ok c') (sent : List Packet) :
    ∃ packets o, flushRegisteredRequests sender { client := c', sent := sent } =
        (.returned, o) ∧
      o.sent = sent ++ packets ∧
      sentBytes packets = requestBytes stale msgs ∧
      sentFds packets = requestFds msgs ∧
      FdsInTime stale msgs packets ∧
      hasRegisteredRequests o.client = false ∧
      flushRegisteredRequests sender o = (.returned, o) := by
  obtain ⟨-, happend⟩ := registerAll_eq hregister
  rw [requestBuff_eq_empty hempty] at happend
  have hbuff : c'.requestBuff = ⟨requestBytes stale msgs, requestFds msgs⟩ :=
    appendAll_ok happend
  by_cases hmsgs : msgs = []
  · subst hmsgs
    have hnone : c'.requestBuff.empty = true := by
      rw [hbuff]
      rfl
    refine ⟨[], _, flushRegisteredRequests_empty sender hnone, by simp, rfl, rfl, ?_, ?_, ?_⟩
    · intro front back hsplit
      obtain ⟨rfl, -⟩ := List.append_eq_nil_iff.mp hsplit.symm
      exact ⟨[], [], rfl, rfl, Nat.zero_le _⟩
    · simp [hasRegisteredRequests, hnone]
    · exact flushRegisteredRequests_empty sender hnone
  · obtain ⟨exit, s, packets, hflush, hflushes, -, -⟩ :=
      flushRegisteredRequests_outcome sender (o := { client := c', sent := sent })
        (congrArg MessageBuffer.buff hbuff) (congrArg MessageBuffer.fdBuff hbuff)
        (length_requestFds_lt stale hmsgs hfds)
    obtain ⟨rfl, rfl⟩ := hsender.delivered hflushes
    have hle := length_requestFds_le stale hfds
    refine ⟨_, _, hflush, rfl, ?_, ?_, fdsInTime_fdPackets stale hfds, rfl, ?_⟩
    · rw [sentBytes_append, sentBytes_fdPackets hle]
      simp [sentBytes]
    · rw [sentFds_append, sentFds_fdPackets hle]
      simp [sentFds]
    · exact flushRegisteredRequests_empty sender rfl

theorem workingSender_neverThrows : workingSender.NeverThrows :=
  ⟨fun _ _ _ => ⟨(), rfl⟩, fun _ _ => ⟨(), rfl⟩⟩

theorem flushRegisteredRequests_registerAll_two :
    ∃ packets o,
      flushRegisteredRequests workingSender
          { client :=
              { serverSock := { server := (), received := [] }
                requestBuff :=
                  { buff := [1, 0, 0, 0, 1, 0, 12, 0, 2, 0, 0, 0, 4, 0, 0, 0, 0, 0, 12, 0, 10, 0,
                      0, 0]
                    fdBuff := [⟨3⟩] } } } = (.returned, o) ∧
      o.sent = [] ++ packets ∧
      sentBytes packets = requestBytes (fun _ => 0)
        [(1, ⟨1, [.static (.wnewId 2)]⟩), (4, ⟨0, [.wfd ⟨3⟩, .static (.wint 10)]⟩)] ∧
      sentFds packets = requestFds
        [(1, ⟨1, [.static (.wnewId 2)]⟩), (4, ⟨0, [.wfd ⟨3⟩, .static (.wint 10)]⟩)] ∧
      FdsInTime (fun _ => 0)
        [(1, ⟨1, [.static (.wnewId 2)]⟩), (4, ⟨0, [.wfd ⟨3⟩, .static (.wint 10)]⟩)] packets ∧
      hasRegisteredRequests o.client = false ∧
      flushRegisteredRequests workingSender o = (.returned, o) :=
  flushRegisteredRequests_registerAll workingSender_neverThrows rfl (by decide)
    (show registerAll .checked _ (.connect ()) _ = .ok _ by rfl) []

end Waylander
