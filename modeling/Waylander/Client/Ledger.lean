import Waylander.Client.Conversation

/-!
# What a conversation puts on the socket

A ledger divides the requests of a conversation among its flushes.  Every request
belongs to one flush or is still queued, and a flush puts on the socket the bytes
and descriptors of its requests in order: all of them if it returns, and some
first ones if it does not.  A request is therefore sent at most once, and if every
flush returns, in whole and in order.
-/

namespace Waylander

open Fallible Goto

variable {σ ω : Type} {host : Host σ}

/-! ## Flushes -/

/-- The requests of one flush, how it ended, and what it has put on the socket. -/
structure Batch where
  requests : List Request
  exit : FlushExit
  packets : List Packet

namespace Batch

/-- The flush has put a part on the socket that begins with its first request. -/
structure InOrder (b : Batch) : Prop where
  bytes : sentBytes b.packets <+: Request.bytes b.requests
  fds : sentFds b.packets <+: Request.fds b.requests

/-- The flush has put everything on the socket, the descriptors first, with one byte
each. -/
structure Delivered (b : Batch) : Prop where
  bytes : sentBytes b.packets = Request.bytes b.requests
  fds : sentFds b.packets = Request.fds b.requests
  early : ∀ n ≤ (Request.fds b.requests).length, ∃ pre post, b.packets = pre ++ post ∧
    sentFds pre = (Request.fds b.requests).take n ∧ (sentBytes pre).length = n

theorem Delivered.inOrder {b : Batch} (h : b.Delivered) : b.InOrder where
  bytes := by rw [h.bytes]
  fds := by rw [h.fds]

/-- How a batch is sent.  Only the assertion that there are more bytes than
descriptors can fail. -/
structure Sent (b : Batch) : Prop where
  inOrder : b.InOrder
  delivered : b.exit = .returned → b.Delivered
  assertion : ∀ f, b.exit = .fault f → b.requests ≠ [] ∧
    (Request.bytes b.requests).length ≤ (Request.fds b.requests).length

end Batch

/-- The first `n` descriptors are sent with the first `n` bytes. -/
theorem fdPackets_early {data : List Byte} {fds : List Wfd} (hle : fds.length ≤ data.length)
    (rest : List Packet) {n : ℕ} (hn : n ≤ fds.length) :
    ∃ pre post, fdPackets data fds ++ rest = pre ++ post ∧ sentFds pre = fds.take n ∧
      (sentBytes pre).length = n := by
  have hfront : (fds.take n).length = n := List.length_take_of_le hn
  refine ⟨fdPackets data (fds.take n), fdPackets (data.drop n) (fds.drop n) ++ rest, ?_, ?_, ?_⟩
  · have hsplit : fdPackets data (fds.take n ++ fds.drop n) = _ :=
      fdPackets_append (by omega)
    rw [List.take_append_drop, hfront] at hsplit
    rw [hsplit, List.append_assoc]
  · exact sentFds_fdPackets (by omega)
  · rw [sentBytes_fdPackets (by omega), List.length_take]
    omega

theorem Flushes.sent {sender : Sender σ} {requests : List Request} {exit : FlushExit}
    {packets : List Packet}
    (h : Flushes sender (Request.bytes requests) (Request.fds requests) exit packets)
    (hle : (Request.fds requests).length ≤ (Request.bytes requests).length) :
    Batch.Sent ⟨requests, exit, packets⟩ := by
  have hbytes := sentBytes_fdPackets hle
  have hfds := sentFds_fdPackets hle
  have hbehind (bytes : List Byte) :
      sentBytes (fdPackets (Request.bytes requests) (Request.fds requests) ++
          [{ bytes := bytes }]) =
        (Request.bytes requests).take (Request.fds requests).length ++ bytes := by
    rw [sentBytes_append, hbytes]
    simp [sentBytes]
  have hnone (bytes : List Byte) :
      sentFds (fdPackets (Request.bytes requests) (Request.fds requests) ++
          [{ bytes := bytes }]) = Request.fds requests := by
    rw [sentFds_append, hfds]
    exact List.append_nil _
  cases h with
  | delivered =>
      have hall : Batch.Delivered ⟨requests, .returned,
          fdPackets (Request.bytes requests) (Request.fds requests) ++
            [{ bytes := (Request.bytes requests).drop (Request.fds requests).length }]⟩ := by
        refine ⟨?_, hnone _, fun n hn => fdPackets_early hle _ hn⟩
        rw [hbehind, List.take_append_drop]
      exact ⟨hall.inOrder, fun _ => hall, by simp⟩
  | @writeThrew e n hn hthrew =>
      refine ⟨⟨?_, ?_⟩, by simp, by simp⟩
      · rw [hbehind]
        refine ⟨((Request.bytes requests).drop (Request.fds requests).length).drop n, ?_⟩
        rw [List.append_assoc, List.take_append_drop, List.take_append_drop]
      · rw [hnone]
  | @sendThrew front back fd e hsplit hthrew =>
      have hfront : front.length ≤ (Request.bytes requests).length := by
        rw [hsplit, List.length_append] at hle
        omega
      refine ⟨⟨?_, ?_⟩, by simp, by simp⟩
      · rw [sentBytes_fdPackets hfront]
        exact List.take_prefix _ _
      · rw [sentFds_fdPackets hfront]
        exact ⟨fd :: back, hsplit.symm⟩

/-- Whatever the queues hold, a flush empties them and sends their contents in
order. -/
theorem flushRegisteredRequests_sent (sender : Sender σ) {o : Outgoing σ}
    {requests : List Request}
    (hbuff : o.client.requestBuff = ⟨Request.bytes requests, Request.fds requests⟩) :
    ∃ packets, (flushRegisteredRequests sender o).2.sent = o.sent ++ packets ∧
      (flushRegisteredRequests sender o).2.client.requestBuff = {} ∧
      Batch.Sent ⟨requests, (flushRegisteredRequests sender o).1, packets⟩ := by
  have hdata := congrArg MessageBuffer.buff hbuff
  have hfds := congrArg MessageBuffer.fdBuff hbuff
  dsimp only at hdata hfds
  by_cases hempty : o.client.requestBuff.empty = true
  · rw [flushRegisteredRequests_empty sender hempty]
    rw [MessageBuffer.empty, Bool.and_eq_true, List.isEmpty_iff, List.isEmpty_iff, hdata,
      hfds] at hempty
    obtain ⟨hnobytes, hnofds⟩ := hempty
    have hall : Batch.Delivered ⟨requests, .returned, []⟩ := by
      refine ⟨hnobytes.symm, hnofds.symm, ?_⟩
      intro n hn
      rw [hnofds, List.length_nil, Nat.le_zero] at hn
      subst hn
      exact ⟨[], [], rfl, by simp [sentFds], rfl⟩
    refine ⟨[], by simp, ?_, hall.inOrder, fun _ => hall, by simp⟩
    rw [hbuff, hnobytes, hnofds]
  · by_cases hassert : o.client.requestBuff.buff.length ≤ o.client.requestBuff.fdBuff.length
    · rw [flushRegisteredRequests_assertion sender hempty hassert]
      refine ⟨[], by simp [Outgoing.released], rfl, ⟨List.nil_prefix, List.nil_prefix⟩, by simp,
        ?_⟩
      intro f hf
      rw [hdata, hfds] at hassert
      refine ⟨?_, hassert⟩
      rintro rfl
      exact hempty (by rw [hbuff]; rfl)
    · rw [hdata, hfds, Nat.not_le] at hassert
      obtain ⟨exit, s, packets, hflush, hflushes, -, -⟩ :=
        flushRegisteredRequests_outcome sender hdata hfds hassert
      rw [hflush]
      exact ⟨packets, rfl, rfl, hflushes.sent hassert.le⟩

/-! ## The ledger of a conversation -/

/-- The requests of the conversation, divided among its flushes, and the ones that
are queued. -/
structure Ledger (c : Conversation σ ω) (batches : List Batch) (queued : List Request) :
    Prop where
  registered : c.registered = batches.flatMap Batch.requests ++ queued
  flushes : c.flushes = batches.map Batch.exit
  sent : c.sent = batches.flatMap Batch.packets
  queue : c.client.requestBuff = ⟨Request.bytes queued, Request.fds queued⟩
  sends : ∀ b ∈ batches, b.Sent

/-- Receiving leaves the queues and the counter alone. -/
theorem recvMoreData_requestBuff {fuel : ℕ} {c c' : ConnectedClient σ}
    {r : Except Exception Unit} (h : recvMoreData host fuel c = some (r, c')) :
    c'.requestBuff = c.requestBuff := by
  have hblock : ∀ (_ : ℕ) (l : ConnectedClient σ × ℕ) j, l.1.requestBuff = c.requestBuff →
      some (readAgain host l.1 l.2) = some j →
        j.Satisfies (fun l => l.1.requestBuff = c.requestBuff)
          fun r => r.2.requestBuff = c.requestBuff := by
    intro _ l j hl hj
    obtain rfl := Option.some.inj hj
    simp only [readAgain]
    generalize (if (l.2 + recvBlockSize) % 4 = 0 then 1 else 0) = pad
    split
    · exact hl
    · split
      · exact hl
      · split
        · exact hl
        · exact hl
  exact run_invariant hblock rfl h

theorem SessionStep.requestBuff {w w' : Session σ ω} (h : SessionStep host w w') :
    w'.client.requestBuff = w.client.requestBuff := by
  cases h with
  | visited => rfl
  | returned => rfl
  | erased count =>
      by_cases hheld : count ≤ w.client.recvBuff.length
      · rw [Session.erase, if_pos hheld]
        rfl
      · rw [Session.erase, if_neg hheld]
        rfl
  | read hrecv => exact recvMoreData_requestBuff hrecv
  | parsed => rfl

namespace Ledger

variable {c c' : Conversation σ ω} {batches : List Batch} {queued : List Request}

theorem start (server : σ) : Ledger (.start server : Conversation σ ω) [] [] where
  registered := rfl
  flushes := rfl
  sent := rfl
  queue := rfl
  sends := by simp

/-- One step keeps the ledger: registering adds to the queue, and a flush makes the
queue a batch. -/
theorem step (h : Ledger c batches queued) (hstep : c.Step host c') :
    ∃ batches' queued', Ledger c' batches' queued' := by
  cases hstep with
  | receive hstep =>
      refine ⟨batches, queued, h.registered, h.flushes, h.sent, ?_, h.sends⟩
      exact hstep.requestBuff.trans h.queue
  | reserve => exact ⟨batches, queued, h.registered, h.flushes, h.sent, h.queue, h.sends⟩
  | @register build stale obj msg client hcall =>
      obtain ⟨buf, happend, heq⟩ := bind_eq_ok_iff.mp hcall
      obtain rfl := Except.ok.inj heq
      obtain ⟨-, rfl⟩ := append_ok build stale happend
      refine ⟨batches, queued ++ [.written stale c.client.requestBuff.buff.length obj msg], ?_,
        h.flushes, h.sent, ?_, h.sends⟩
      · dsimp only
        rw [h.registered, List.append_assoc]
      · have hbytes := congrArg MessageBuffer.buff h.queue
        have hfds := congrArg MessageBuffer.fdBuff h.queue
        dsimp only at hbytes hfds
        rw [Request.bytes_append, Request.fds_append, Request.bytes_singleton,
          Request.fds_singleton, ← hbytes, ← hfds]
        rfl
  | @flush exit o sender hcall =>
      obtain ⟨packets, hsent, hbuff, hbatch⟩ := flushRegisteredRequests_sent sender
        (o := { client := c.client, sent := c.sent }) h.queue
      rw [hcall] at hsent hbuff hbatch
      refine ⟨batches ++ [⟨queued, exit, packets⟩], [], ?_, ?_, ?_, hbuff, ?_⟩
      · rw [List.flatMap_append, List.append_nil]
        simpa [Conversation.withClient] using h.registered
      · simp [h.flushes]
      · simpa [h.sent] using hsent
      · intro b hb
        rcases List.mem_append.mp hb with hb | hb
        · exact h.sends b hb
        · rwa [List.mem_singleton.mp hb]

theorem steps (h : Ledger c batches queued) (hsteps : c.Steps host c') :
    ∃ batches' queued', Ledger c' batches' queued' := by
  induction hsteps with
  | refl => exact ⟨batches, queued, h⟩
  | tail _ hstep ih =>
      obtain ⟨batches', queued', h'⟩ := ih
      exact h'.step hstep

/-- The requests that were flushed. -/
def flushed (batches : List Batch) : List Request :=
  batches.flatMap Batch.requests

theorem inOrder_packets (hsends : ∀ b ∈ batches, b.Sent) :
    (sentBytes (batches.flatMap Batch.packets)).Sublist (Request.bytes (flushed batches)) ∧
      (sentFds (batches.flatMap Batch.packets)).Sublist (Request.fds (flushed batches)) := by
  induction batches with
  | nil => exact ⟨List.Sublist.refl _, List.Sublist.refl _⟩
  | cons b batches ih =>
      obtain ⟨hbytes, hfds⟩ := ih fun b' hb' => hsends b' (by simp [hb'])
      have hfirst := (hsends b (by simp)).inOrder
      rw [flushed, List.flatMap_cons, List.flatMap_cons, sentBytes_append, sentFds_append,
        Request.bytes_append, Request.fds_append]
      exact ⟨hfirst.bytes.sublist.append hbytes, hfirst.fds.sublist.append hfds⟩

theorem delivered_packets (hall : ∀ b ∈ batches, b.Delivered) :
    sentBytes (batches.flatMap Batch.packets) = Request.bytes (flushed batches) ∧
      sentFds (batches.flatMap Batch.packets) = Request.fds (flushed batches) := by
  induction batches with
  | nil => exact ⟨rfl, rfl⟩
  | cons b batches ih =>
      obtain ⟨hbytes, hfds⟩ := ih fun b' hb' => hall b' (by simp [hb'])
      have hfirst := hall b (by simp)
      rw [flushed] at hbytes hfds
      rw [flushed, List.flatMap_cons, List.flatMap_cons, sentBytes_append, sentFds_append,
        Request.bytes_append, Request.fds_append, hfirst.bytes, hfirst.fds, hbytes, hfds]
      exact ⟨rfl, rfl⟩

/-- If every flush returned, every batch is on the socket. -/
theorem delivered (h : Ledger c batches queued) (hreturned : ∀ e ∈ c.flushes, e = .returned) :
    ∀ b ∈ batches, b.Delivered := by
  intro b hb
  apply (h.sends b hb).delivered
  apply hreturned
  rw [h.flushes]
  exact List.mem_map_of_mem hb

end Ledger

/-! ## Conversations from their start -/

/-- A socket that takes everything. -/
def takingSender : Sender σ where
  send s _ _ := (.ok 1, s)
  send_one := by
    intro s b fd n h
    exact (Except.ok.inj h).symm
  write s _ := (.ok (), s)
  write_le := by
    intro s bytes e n h
    cases h

/-- A program that has asked for the registry, flushed, and asked for a pool. -/
theorem Conversation.exists_steps_pool (host : Host (List Byte)) :
    ∃ c : Conversation (List Byte) Unit, (Conversation.start []).Steps host c ∧
      c.registered.map Request.pair =
        [(1, ⟨1, [.static (.wnewId 2)]⟩),
          (4, ⟨0, [.static (.wnewId 3), .wfd ⟨7⟩, .static (.wint 16)]⟩)] ∧
      c.flushes = [.returned] := by
  have hreserve : (Conversation.start []).Steps host _ := .single (.reserve (ω := Unit))
  have hregister := hreserve.tail (.register
    (show registerRequest .checked (fun _ => 0) 1 ⟨1, [.static (.wnewId 2)]⟩ _ = .ok _ from rfl))
  have hflush := hregister.tail (.flush takingSender rfl)
  have hpool := (hflush.tail .reserve).tail (.register
    (show registerRequest .checked (fun _ => 0) 4
      ⟨0, [.static (.wnewId 3), .wfd ⟨7⟩, .static (.wint 16)]⟩ _ = .ok _ from rfl))
  exact ⟨_, hpool, rfl, rfl⟩

section Start

variable {server : σ} {c : Conversation σ ω}

/-- In any interleaving of calls, by the program or by the function objects that it
is called back with, and whatever the socket does, each request belongs to one
flush or is queued.  What is on the socket is, flush by flush, a part that begins
with the first of the flush's requests; nothing is sent twice, out of order, or
that was not registered. -/
theorem Conversation.exists_ledger (h : (Conversation.start server).Steps host c) :
    ∃ batches queued, Ledger c batches queued ∧
      (sentBytes c.sent).Sublist (Request.bytes c.registered) ∧
      (sentFds c.sent).Sublist (Request.fds c.registered) := by
  obtain ⟨batches, queued, hledger⟩ := (Ledger.start server).steps h
  obtain ⟨hbytes, hfds⟩ := Ledger.inOrder_packets hledger.sends
  refine ⟨batches, queued, hledger, ?_, ?_⟩
  · rw [hledger.sent, hledger.registered, Request.bytes_append]
    exact hbytes.trans (List.sublist_append_left _ _)
  · rw [hledger.sent, hledger.registered, Request.fds_append]
    exact hfds.trans (List.sublist_append_left _ _)

theorem Conversation.exists_ledger_pool :
    ∃ c : Conversation (List Byte) Unit, c.flushes = [.returned] ∧
      ∃ batches queued, Ledger c batches queued ∧
        (sentBytes c.sent).Sublist (Request.bytes c.registered) ∧
        (sentFds c.sent).Sublist (Request.fds c.registered) := by
  obtain ⟨c, hsteps, -, hflushes⟩ := exists_steps_pool (boundedServer 99).toHost
  exact ⟨c, hflushes, Conversation.exists_ledger hsteps⟩

/-- If every flush returned, the requests on the socket and the queued ones are all
that were registered; if their sizes fit into the size field, a parser finds on the
socket just the former. -/
theorem Conversation.sent_append_queue (h : (Conversation.start server).Steps host c)
    (hreturned : ∀ e ∈ c.flushes, e = .returned) :
    ∃ flushed queued, c.registered = flushed ++ queued ∧
      sentBytes c.sent = Request.bytes flushed ∧ sentFds c.sent = Request.fds flushed ∧
      c.client.requestBuff = ⟨Request.bytes queued, Request.fds queued⟩ ∧
      ((∀ r ∈ flushed, r.msg.encodedSize < 2 ^ 16) →
        parsedMessageGenerator (sentBytes c.sent) =
          (flushed.map fun r => ParsedMessage.ofFrame r.frame, none)) := by
  obtain ⟨batches, queued, hledger⟩ := (Ledger.start server).steps h
  obtain ⟨hbytes, hfds⟩ := Ledger.delivered_packets (hledger.delivered hreturned)
  rw [← hledger.sent] at hbytes hfds
  refine ⟨Ledger.flushed batches, queued, hledger.registered, hbytes, hfds, hledger.queue, ?_⟩
  intro hfits
  have hframes : ∀ f ∈ (Ledger.flushed batches).map Request.frame, wire.IsFrame f := by
    intro f hf
    obtain ⟨r, hr, rfl⟩ := List.mem_map.mp hf
    exact r.isFrame (hfits r hr)
  rw [hbytes, Request.bytes, parsedMessageGenerator_flatten hframes, List.map_map]
  rfl

theorem Conversation.sent_append_queue_pool :
    ∃ c : Conversation (List Byte) Unit, c.flushes = [.returned] ∧
      ∃ flushed queued, c.registered = flushed ++ queued ∧
        sentBytes c.sent = Request.bytes flushed ∧ sentFds c.sent = Request.fds flushed ∧
        c.client.requestBuff = ⟨Request.bytes queued, Request.fds queued⟩ ∧
        ((∀ r ∈ flushed, r.msg.encodedSize < 2 ^ 16) →
          parsedMessageGenerator (sentBytes c.sent) =
            (flushed.map fun r => ParsedMessage.ofFrame r.frame, none)) := by
  obtain ⟨c, hsteps, -, hflushes⟩ := exists_steps_pool (boundedServer 99).toHost
  exact ⟨c, hflushes, Conversation.sent_append_queue hsteps (by simp [hflushes])⟩

/-! ## Descriptors -/

/-- When the descriptors of a request and of all earlier ones are on the socket, no
byte behind the request is. -/
def InTime (requests : List Request) (packets : List Packet) : Prop :=
  ∀ front back, requests = front ++ back → ∃ pre post, packets = pre ++ post ∧
    sentFds pre = Request.fds front ∧ (sentBytes pre).length ≤ (Request.bytes front).length

theorem Batch.Delivered.inTime {b : Batch} (h : b.Delivered)
    (hfew : ∀ r ∈ b.requests, r.FewFds) : InTime b.requests b.packets := by
  intro front back hsplit
  have hcount := Request.length_fds_le fun r (hr : r ∈ front) => hfew r (by simp [hsplit, hr])
  have hbytes := Request.length_le_bytes front
  have hfds : Request.fds b.requests = Request.fds front ++ Request.fds back := by
    rw [hsplit, Request.fds_append]
  obtain ⟨pre, post, hpackets, hsent, hlength⟩ :=
    h.early (Request.fds front).length (by rw [hfds, List.length_append]; omega)
  refine ⟨pre, post, hpackets, ?_, by omega⟩
  rw [hsent, hfds, List.take_left]

theorem InTime.append {b : Batch} {requests : List Request} {packets : List Packet}
    (hall : b.Delivered) (hfirst : InTime b.requests b.packets) (h : InTime requests packets) :
    InTime (b.requests ++ requests) (b.packets ++ packets) := by
  intro front back hsplit
  rcases List.append_eq_append_iff.mp hsplit with ⟨mid, rfl, hback⟩ | ⟨mid, hb, hmid⟩
  · -- the request is in a later flush, behind all of this one
    obtain ⟨pre, post, rfl, hfds, hlength⟩ := h mid back hback
    refine ⟨b.packets ++ pre, post, by simp, ?_, ?_⟩
    · rw [sentFds_append, Request.fds_append, hall.fds, hfds]
    · rw [sentBytes_append, Request.bytes_append, hall.bytes, List.length_append,
        List.length_append]
      omega
  · obtain ⟨pre, post, hpackets, hfds, hlength⟩ := hfirst front mid hb
    exact ⟨pre, post ++ packets, by rw [hpackets, List.append_assoc], hfds, hlength⟩

theorem Ledger.inTime_packets {batches : List Batch} (hall : ∀ b ∈ batches, b.Delivered)
    (hfew : ∀ b ∈ batches, ∀ r ∈ b.requests, r.FewFds) :
    InTime (Ledger.flushed batches) (batches.flatMap Batch.packets) := by
  induction batches with
  | nil =>
      intro front back hsplit
      obtain ⟨rfl, -⟩ := List.append_eq_nil_iff.mp hsplit.symm
      exact ⟨[], [], rfl, rfl, Nat.zero_le _⟩
  | cons b batches ih =>
      have hfirst := hall b (by simp)
      have hrest := ih (fun b' hb' => hall b' (by simp [hb'])) fun b' hb' =>
        hfew b' (by simp [hb'])
      exact .append hfirst (hfirst.inTime (hfew b (by simp))) hrest

/-- If no request has more than seven descriptors, no flush fails its assertion;
and as long as none throws, every descriptor is on the socket no later than the
last byte of its request. -/
theorem Conversation.descriptors_inTime (h : (Conversation.start server).Steps host c)
    (hfew : ∀ r ∈ c.registered, r.FewFds) :
    (∀ f, .fault f ∉ c.flushes) ∧
      ((∀ e, .threw e ∉ c.flushes) → ∃ flushed queued, c.registered = flushed ++ queued ∧
        sentFds c.sent = Request.fds flushed ∧ InTime flushed c.sent) := by
  obtain ⟨batches, queued, hledger⟩ := (Ledger.start server).steps h
  have hbatch : ∀ b ∈ batches, ∀ r ∈ b.requests, r.FewFds := by
    intro b hb r hr
    apply hfew
    rw [hledger.registered]
    exact List.mem_append_left _ (List.mem_flatMap.mpr ⟨b, hb, hr⟩)
  have hfault : ∀ f, .fault f ∉ c.flushes := by
    intro f hf
    rw [hledger.flushes] at hf
    obtain ⟨b, hb, hexit⟩ := List.mem_map.mp hf
    obtain ⟨hne, hassert⟩ := (hledger.sends b hb).assertion f hexit
    have hfds := Request.length_fds_le (hbatch b hb)
    have hbytes := Request.length_le_bytes b.requests
    have hpos := List.length_pos_of_ne_nil hne
    omega
  refine ⟨hfault, fun hthrew => ?_⟩
  have hreturned : ∀ e ∈ c.flushes, e = .returned := by
    intro e he
    cases e with
    | returned => rfl
    | threw e => exact absurd he (hthrew e)
    | fault f => exact absurd he (hfault f)
  have hall := hledger.delivered hreturned
  refine ⟨Ledger.flushed batches, queued, hledger.registered, ?_, ?_⟩
  · rw [hledger.sent]
    exact (Ledger.delivered_packets hall).2
  · rw [hledger.sent]
    exact Ledger.inTime_packets hall hbatch

theorem Conversation.descriptors_inTime_pool :
    ∃ c : Conversation (List Byte) Unit, c.flushes = [.returned] ∧
      (∀ f, .fault f ∉ c.flushes) ∧
        ((∀ e, .threw e ∉ c.flushes) → ∃ flushed queued, c.registered = flushed ++ queued ∧
          sentFds c.sent = Request.fds flushed ∧ InTime flushed c.sent) := by
  obtain ⟨c, hsteps, hpairs, hflushes⟩ := exists_steps_pool (boundedServer 99).toHost
  have hfew : ∀ m ∈ c.registered.map Request.pair,
      (m.2.arguments.flatMap Argument.fds).length < 8 := by
    rw [hpairs]
    decide
  exact ⟨c, hflushes, Conversation.descriptors_inTime hsteps
    fun r hr => hfew r.pair (List.mem_map_of_mem hr)⟩

end Start

end Waylander
