import Waylander.Client.RecvMoreData

/-!
# Flushing requests

`register_request` and `flush_registered_requests`.  Both queues of the request
buffer are released before anything is sent.  Then each descriptor is sent with
one byte and the rest of the bytes is written.

The sending side of the socket is an arbitrary environment.  What it has put on
the socket is recorded as a list of packets, which is history: no branch of the
source depends on it.
-/

namespace Waylander

variable {σ : Type}

/-- Bytes put on the socket at once, with the descriptors that go with them. -/
structure Packet where
  bytes : List Byte
  fds : List Wfd := []
  deriving DecidableEq

def sentBytes (packets : List Packet) : List Byte :=
  packets.flatMap Packet.bytes

def sentFds (packets : List Packet) : List Wfd :=
  packets.flatMap Packet.fds

/-- The sending side of `gnulander::local_stream_socket`. -/
structure Sender (σ : Type) where
  /-- `send` of a message of some bytes and one descriptor: the number of bytes
  sent, or the exception thrown without anything being sent. -/
  send : σ → List Byte → Wfd → Except Exception ℕ × σ
  send_one : ∀ s b fd n, (send s [b] fd).1 = .ok n → n = 1
  /-- `write` of all the bytes, or the exception thrown and the number of bytes
  that are on the socket by then. -/
  write : σ → List Byte → Except (Exception × ℕ) Unit × σ
  write_le : ∀ s bytes e n, (write s bytes).1 = .error (e, n) → n ≤ bytes.length

/-- A client, and what its calls have put on the socket. -/
structure Outgoing (σ : Type) where
  client : ConnectedClient σ
  sent : List Packet := []

/-- How a flush ends. -/
inductive FlushExit
  | returned
  | threw (e : Exception)
  | fault (f : Fault)
  deriving DecidableEq

/-! ## The member functions -/

def registerRequest (build : Build) (stale : ℕ → Byte) (obj : Wobject) (msg : Message)
    (c : ConnectedClient σ) : Except Fault (ConnectedClient σ) := do
  let requestBuff ← append build stale c.requestBuff obj msg
  return { c with requestBuff := requestBuff }

def hasRegisteredRequests (c : ConnectedClient σ) : Bool :=
  !c.requestBuff.empty

namespace Outgoing

/-- The socket after a call that has put `packets` on it. -/
def put (o : Outgoing σ) (s : σ) (packets : List Packet) : Outgoing σ where
  client := { o.client with serverSock := { o.client.serverSock with server := s } }
  sent := o.sent ++ packets

/-- `server_sock_.send` of a span and a descriptor. -/
def send (sender : Sender σ) (span : List Byte) (fd : Wfd) (o : Outgoing σ) :
    Except Exception ℕ × Outgoing σ :=
  match sender.send o.client.serverSock.server span fd with
  | (.ok n, s) => (.ok n, o.put s [{ bytes := span.take n, fds := [fd] }])
  | (.error e, s) => (.error e, o.put s [])

/-- `server_sock_.write` of a span. -/
def write (sender : Sender σ) (span : List Byte) (o : Outgoing σ) :
    FlushExit × Outgoing σ :=
  match sender.write o.client.serverSock.server span with
  | (.ok _, s) => (.returned, o.put s [{ bytes := span }])
  | (.error (e, n), s) => (.threw e, o.put s [{ bytes := span.take n }])

end Outgoing

/-- Send each fd along one byte: the number of bytes written. -/
def sendFds (sender : Sender σ) (dataToWrite : List Byte) :
    List Wfd → ℕ → Outgoing σ → Except FlushExit ℕ × Outgoing σ
  | [], bytesWritten, o => (.ok bytesWritten, o)
  | fd :: fdsToWrite, bytesWritten, o =>
      if bytesWritten + 1 ≤ dataToWrite.length then
        match o.send sender ((dataToWrite.drop bytesWritten).take 1) fd with
        | (.ok n, o) => sendFds sender dataToWrite fdsToWrite (bytesWritten + n) o
        | (.error e, o) => (.error (.threw e), o)
      else
        -- `subspan` with an offset and a count outside the data
        (.error (.fault .outside), o)

def flushRegisteredRequests (sender : Sender σ) (o : Outgoing σ) : FlushExit × Outgoing σ :=
  if o.client.requestBuff.empty then
    (.returned, o)
  else
    let (dataToWrite, requestBuff) := releaseData o.client.requestBuff
    let (fdsToWrite, requestBuff) := releaseFds requestBuff
    let o := { o with client := { o.client with requestBuff := requestBuff } }
    -- Assume that there is more bytes to send than file descriptors.
    if fdsToWrite.length < dataToWrite.length then
      -- Then send each fd along one byte.
      match sendFds sender dataToWrite fdsToWrite 0 o with
      | (.ok bytesWritten, o) =>
          if bytesWritten ≤ dataToWrite.length then
            -- Finally send rest of the data.
            o.write sender (dataToWrite.drop bytesWritten)
          else
            (.fault .outside, o)
      | (.error exit, o) => (exit, o)
    else
      (.fault .assertion, o)

/-! ## The packets of a flush -/

@[simp] theorem sentBytes_append (packets packets' : List Packet) :
    sentBytes (packets ++ packets') = sentBytes packets ++ sentBytes packets' :=
  List.flatMap_append

@[simp] theorem sentFds_append (packets packets' : List Packet) :
    sentFds (packets ++ packets') = sentFds packets ++ sentFds packets' :=
  List.flatMap_append

/-- The packets that carry the descriptors, one byte each. -/
def fdPackets (data : List Byte) (fds : List Wfd) : List Packet :=
  List.zipWith (fun b fd => { bytes := [b], fds := [fd] }) data fds

theorem fdPackets_cons (b : Byte) (data : List Byte) (fd : Wfd) (fds : List Wfd) :
    fdPackets (b :: data) (fd :: fds) =
      [{ bytes := [b], fds := [fd] }] ++ fdPackets data fds := rfl

theorem sentFds_fdPackets {data : List Byte} {fds : List Wfd} (h : fds.length ≤ data.length) :
    sentFds (fdPackets data fds) = fds := by
  induction fds generalizing data with
  | nil => simp [fdPackets, sentFds]
  | cons fd fds ih =>
      cases data with
      | nil => simp at h
      | cons b data =>
          have hrest := @ih data (by simpa using h)
          simpa [fdPackets, sentFds] using hrest

theorem sentBytes_fdPackets {data : List Byte} {fds : List Wfd}
    (h : fds.length ≤ data.length) : sentBytes (fdPackets data fds) = data.take fds.length := by
  induction fds generalizing data with
  | nil => simp [fdPackets, sentBytes]
  | cons fd fds ih =>
      cases data with
      | nil => simp at h
      | cons b data =>
          have hrest := @ih data (by simpa using h)
          simpa [fdPackets, sentBytes] using hrest

/-- The sender takes the descriptors with one byte each, and then all that is
left. -/
def Sender.Delivers (sender : Sender σ) : List Byte → List Wfd → σ → Prop
  | data, [], s => ∀ e n, (sender.write s data).1 = .error (e, n) → n = data.length
  | [], _ :: _, _ => False
  | b :: data, fd :: fds, s =>
      ∃ n s', sender.send s [b] fd = (.ok n, s') ∧ sender.Delivers data fds s'

section Outcome

variable (sender : Sender σ)

theorem Sender.delivers_nil (data : List Byte) (s : σ) :
    sender.Delivers data [] s ↔
      ∀ e n, (sender.write s data).1 = .error (e, n) → n = data.length := by
  rw [Delivers]

theorem Sender.delivers_cons {s s' : σ} {b : Byte} {fd : Wfd} {n : ℕ}
    (h : sender.send s [b] fd = (.ok n, s')) (data : List Byte) (fds : List Wfd) :
    sender.Delivers (b :: data) (fd :: fds) s ↔ sender.Delivers data fds s' := by
  constructor
  · rintro ⟨k, t, hdelivered, hrest⟩
    obtain ⟨-, rfl⟩ := Prod.mk.inj (h.symm.trans hdelivered)
    exact hrest
  · intro hrest
    exact ⟨n, s', h, hrest⟩

theorem Sender.not_delivers_of_error {s s' : σ} {b : Byte} {fd : Wfd} {e : Exception}
    (h : sender.send s [b] fd = (.error e, s')) (data : List Byte) (fds : List Wfd) :
    ¬sender.Delivers (b :: data) (fd :: fds) s := by
  rintro ⟨k, t, hdelivered, -⟩
  rw [h] at hdelivered
  exact absurd (Prod.mk.inj hdelivered).1 (by simp)

@[simp] theorem Outgoing.put_put (o : Outgoing σ) (s s' : σ) (packets packets' : List Packet) :
    (o.put s packets).put s' packets' = o.put s' (packets ++ packets') := by
  simp [put]

/-- Either every descriptor is sent, or `send` throws at one of them. -/
theorem sendFds_outcome (data : List Byte) (fds : List Wfd) (n : ℕ)
    (h : n + fds.length ≤ data.length) (o : Outgoing σ) (s : σ) (packets : List Packet) :
    (∃ s', sendFds sender data fds n (o.put s packets) =
        (.ok (n + fds.length), o.put s' (packets ++ fdPackets (data.drop n) fds)) ∧
      (sender.Delivers (data.drop n) fds s ↔
        sender.Delivers (data.drop (n + fds.length)) [] s')) ∨
    ∃ front fd back e s', fds = front ++ fd :: back ∧
      sendFds sender data fds n (o.put s packets) =
        (.error (.threw e), o.put s' (packets ++ fdPackets (data.drop n) front)) ∧
      (∃ t b, (sender.send t [b] fd).1 = .error e) ∧
      ¬sender.Delivers (data.drop n) fds s := by
  induction fds generalizing n s packets with
  | nil =>
      left
      exact ⟨s, by simp [sendFds, fdPackets], by simp⟩
  | cons fd fds ih =>
      rw [List.length_cons] at h
      have hn : n < data.length := by omega
      have hdrop : data.drop n = data[n] :: data.drop (n + 1) := List.drop_eq_getElem_cons hn
      have hspan : (data.drop n).take 1 = [data[n]] := by
        rw [hdrop, List.take_succ_cons, List.take_zero]
      rw [sendFds, if_pos (by omega), hspan, Outgoing.send]
      simp only [Outgoing.put_put]
      have hserver : (o.put s packets).client.serverSock.server = s := rfl
      rw [hserver, hdrop]
      rcases hsend : sender.send s [data[n]] fd with ⟨e | k, s₁⟩
      · right
        exact ⟨[], fd, fds, e, s₁, rfl, by simp [fdPackets], ⟨s, _, by rw [hsend]⟩,
          sender.not_delivers_of_error hsend _ _⟩
      · obtain rfl : k = 1 := sender.send_one s data[n] fd k (by rw [hsend])
        rw [sender.delivers_cons hsend]
        rcases ih (n + 1) (by omega) s₁
          (packets ++ [{ bytes := [data[n]], fds := [fd] }]) with
          ⟨s', hrun, hiff⟩ | ⟨front, fd', back, e, s', rfl, hrun, hthrew, hlost⟩
        · left
          have hadd : n + (fds.length + 1) = n + 1 + fds.length := by omega
          rw [List.length_cons, hadd, fdPackets_cons, ← List.append_assoc]
          exact ⟨s', by simpa using hrun, hiff⟩
        · right
          refine ⟨fd :: front, fd', back, e, s', rfl, ?_, hthrew, hlost⟩
          rw [fdPackets_cons, ← List.append_assoc]
          simpa using hrun

/-- The queues have been released. -/
def Outgoing.released (o : Outgoing σ) : Outgoing σ :=
  { o with client := { o.client with requestBuff := {} } }

@[simp] theorem Outgoing.put_requestBuff (o : Outgoing σ) (s : σ) (packets : List Packet) :
    (o.put s packets).client.requestBuff = o.client.requestBuff := rfl

/-- A flush of a queue that passes its assertion: everything is sent, or `write`
throws with some of the bytes sent, or `send` throws. -/
inductive Flushes (data : List Byte) (fds : List Wfd) : FlushExit → List Packet → Prop
  | delivered :
      Flushes data fds .returned
        (fdPackets data fds ++ [{ bytes := data.drop fds.length }])
  | writeThrew {e : Exception} {n : ℕ} (hn : n ≤ data.length - fds.length)
      (hthrew : ∃ t bytes, (sender.write t bytes).1 = .error (e, n)) :
      Flushes data fds (.threw e)
        (fdPackets data fds ++ [{ bytes := (data.drop fds.length).take n }])
  | sendThrew {front back : List Wfd} {fd : Wfd} {e : Exception}
      (hfds : fds = front ++ fd :: back) (hthrew : ∃ t b, (sender.send t [b] fd).1 = .error e) :
      Flushes data fds (.threw e) (fdPackets data front)

theorem flushRegisteredRequests_empty {o : Outgoing σ}
    (h : o.client.requestBuff.empty = true) :
    flushRegisteredRequests sender o = (.returned, o) := by
  rw [flushRegisteredRequests, if_pos h]

/-- A flush whose assertion fails. -/
theorem flushRegisteredRequests_assertion {o : Outgoing σ}
    (hempty : ¬o.client.requestBuff.empty = true)
    (hassert : o.client.requestBuff.buff.length ≤ o.client.requestBuff.fdBuff.length) :
    flushRegisteredRequests sender o = (.fault .assertion, o.released) := by
  rw [flushRegisteredRequests, if_neg hempty]
  exact if_neg (Nat.not_lt.mpr hassert)

/-- A flush whose assertion holds. -/
theorem flushRegisteredRequests_eq {o : Outgoing σ} {data : List Byte} {fds : List Wfd}
    (hdata : o.client.requestBuff.buff = data) (hfds : o.client.requestBuff.fdBuff = fds)
    (hassert : fds.length < data.length) :
    flushRegisteredRequests sender o =
      match sendFds sender data fds 0 (o.released.put o.client.serverSock.server []) with
      | (.ok bytesWritten, o) =>
          if bytesWritten ≤ data.length then
            o.write sender (data.drop bytesWritten)
          else
            (.fault .outside, o)
      | (.error exit, o) => (exit, o) := by
  subst hdata hfds
  have hne : ¬o.client.requestBuff.empty = true := by
    have hbuff : o.client.requestBuff.buff ≠ [] :=
      List.ne_nil_of_length_pos (Nat.zero_lt_of_lt hassert)
    simp [MessageBuffer.empty, hbuff]
  have hreleased : o.released.put o.client.serverSock.server [] = o.released := by
    simp [Outgoing.put, Outgoing.released]
  rw [flushRegisteredRequests, if_neg hne, hreleased]
  exact if_pos hassert

/-- What `write` puts on the socket, and that it is everything exactly if the
sender takes it. -/
theorem write_outcome (o : Outgoing σ) (s : σ) (packets : List Packet) (rest : List Byte) :
    ∃ exit s' taken,
      (o.put s packets).write sender rest =
        (exit, o.put s' (packets ++ [{ bytes := taken }])) ∧
      (exit = .returned ∧ taken = rest ∨
        ∃ e n, exit = .threw e ∧ taken = rest.take n ∧ n ≤ rest.length ∧
          ∃ t bytes, (sender.write t bytes).1 = .error (e, n)) ∧
      (sender.Delivers rest [] s ↔ taken = rest) := by
  have hserver : (o.put s packets).client.serverSock.server = s := rfl
  rw [sender.delivers_nil, Outgoing.write, hserver]
  rcases hwrite : sender.write s rest with ⟨_ | _, s'⟩
  · rename_i en
    obtain ⟨e, n⟩ := en
    have hn : n ≤ rest.length := sender.write_le s rest e n (by rw [hwrite])
    refine ⟨.threw e, s', rest.take n, by simp,
      .inr ⟨e, n, rfl, rfl, hn, s, rest, by rw [hwrite]⟩, ?_⟩
    constructor
    · intro hall
      obtain rfl := hall e n rfl
      exact List.take_length
    · intro htake e' n' herror
      obtain ⟨-, rfl⟩ := Prod.mk.inj (Except.error.inj herror)
      have hlength := congrArg List.length htake
      rw [List.length_take, Nat.min_eq_left hn] at hlength
      exact hlength
  · refine ⟨.returned, s', rest, by simp, .inl ⟨rfl, rfl⟩, ?_⟩
    simp

/-- What a flush sends, and that it is all of the queue exactly if the sender
takes it all. -/
theorem flushRegisteredRequests_outcome {o : Outgoing σ} {data : List Byte} {fds : List Wfd}
    (hdata : o.client.requestBuff.buff = data) (hfds : o.client.requestBuff.fdBuff = fds)
    (hassert : fds.length < data.length) :
    ∃ exit s packets, flushRegisteredRequests sender o = (exit, o.released.put s packets) ∧
      Flushes sender data fds exit packets ∧
      (sender.Delivers data fds o.client.serverSock.server → sentBytes packets = data ∧
        sentFds packets = fds) ∧
      (sentBytes packets = data → sender.Delivers data fds o.client.serverSock.server) := by
  rw [flushRegisteredRequests_eq sender hdata hfds hassert]
  have hle : 0 + fds.length ≤ data.length := by omega
  have hbytes : sentBytes (fdPackets data fds) = data.take fds.length :=
    sentBytes_fdPackets hassert.le
  have hsent : sentFds (fdPackets data fds) = fds := sentFds_fdPackets hassert.le
  rcases sendFds_outcome sender data fds 0 hle o.released o.client.serverSock.server [] with
    ⟨s', hrun, hiff⟩ | ⟨front, fd, back, e, s', hsplit, hrun, hthrew, hlost⟩
  · simp only [Nat.zero_add, List.drop_zero, List.nil_append] at hrun hiff
    obtain ⟨exit, s'', taken, hwrite, hexit, hdelivers⟩ :=
      write_outcome sender o.released s' (fdPackets data fds) (data.drop fds.length)
    have htaken : sentBytes (fdPackets data fds ++ [{ bytes := taken }]) =
        data.take fds.length ++ taken := by
      rw [sentBytes_append, hbytes]
      simp [sentBytes]
    rw [hrun, hiff, hdelivers]
    simp only [hassert.le, if_true]
    refine ⟨exit, s'', _, hwrite, ?_, ?_, ?_⟩
    · rcases hexit with ⟨rfl, rfl⟩ | ⟨e, n, rfl, rfl, hn, hthrew⟩
      · exact .delivered
      · exact .writeThrew (by simpa using hn) hthrew
    · intro hall
      rw [htaken, hall, sentFds_append, hsent]
      exact ⟨List.take_append_drop _ _, List.append_nil _⟩
    · intro hall
      rw [htaken] at hall
      exact List.append_cancel_left (hall.trans (List.take_append_drop _ _).symm)
  · simp only [List.drop_zero, List.nil_append] at hrun hlost
    rw [hrun]
    refine ⟨_, _, _, rfl, .sendThrew hsplit hthrew, fun hdelivers => absurd hdelivers hlost, ?_⟩
    intro hall
    have hfront : front.length < fds.length := by
      rw [hsplit, List.length_append, List.length_cons]
      omega
    have hlength := congrArg List.length hall
    rw [sentBytes_fdPackets (by omega), List.length_take] at hlength
    omega

end Outcome

/-! ## A failed flush -/

/-- If the flush returns or throws, what it has put on the socket and what is then
queued make up what was queued before. -/
def FlushLosesNothing (sender : Sender σ) (o : Outgoing σ) : Prop :=
  ∀ exit o', flushRegisteredRequests sender o = (exit, o') → (∀ f, exit ≠ .fault f) →
    ∃ packets, o'.sent = o.sent ++ packets ∧
      sentBytes packets ++ o'.client.requestBuff.buff = o.client.requestBuff.buff ∧
      sentFds packets ++ o'.client.requestBuff.fdBuff = o.client.requestBuff.fdBuff

/-- A flush loses nothing exactly if there is nothing to send, its assertion
fails, or the socket takes everything. -/
theorem flushLosesNothing_iff (sender : Sender σ) (o : Outgoing σ) :
    FlushLosesNothing sender o ↔
      o.client.requestBuff.buff.length ≤ o.client.requestBuff.fdBuff.length ∨
        sender.Delivers o.client.requestBuff.buff o.client.requestBuff.fdBuff
          o.client.serverSock.server := by
  by_cases hassert : o.client.requestBuff.buff.length ≤ o.client.requestBuff.fdBuff.length
  · simp only [hassert, true_or, iff_true]
    intro exit o' hflush hexit
    by_cases hempty : o.client.requestBuff.empty = true
    · rw [flushRegisteredRequests_empty sender hempty] at hflush
      cases hflush
      exact ⟨[], by simp, by simp [sentBytes], by simp [sentFds]⟩
    · rw [flushRegisteredRequests_assertion sender hempty hassert] at hflush
      exact absurd (Prod.mk.inj hflush).1.symm (hexit _)
  · obtain ⟨exit, s, packets, hflush, hflushes, hall, hdelivers⟩ :=
      flushRegisteredRequests_outcome sender (o := o) rfl rfl (by omega)
    simp only [hassert, false_or]
    constructor
    · intro hlossless
      apply hdelivers
      have hexit : ∀ f, exit ≠ .fault f := by
        intro f
        cases hflushes <;> simp
      obtain ⟨packets', hsent, hbytes, -⟩ := hlossless _ _ hflush hexit
      obtain rfl := List.append_cancel_left hsent
      simpa [Outgoing.released] using hbytes
    · intro hsends exit' o' hflush' _
      obtain ⟨rfl, rfl⟩ := Prod.mk.inj (hflush.symm.trans hflush')
      obtain ⟨hbytes, hfds⟩ := hall hsends
      exact ⟨packets, rfl, by simpa [Outgoing.released] using hbytes,
        by simpa [Outgoing.released] using hfds⟩

/-- A socket that takes everything. -/
def workingSender : Sender Unit where
  send _ _ _ := (.ok 1, ())
  send_one := by
    intro s b fd n h
    exact (Except.ok.inj h).symm
  write _ _ := (.ok (), ())
  write_le := by
    intro s bytes e n h
    cases h

/-- A socket whose `write` throws before anything is sent. -/
def brokenSender : Sender Unit where
  send _ _ _ := (.ok 1, ())
  send_one := by
    intro s b fd n h
    exact (Except.ok.inj h).symm
  write _ _ := (.error (.systemError, 0), ())
  write_le := by
    intro s bytes e n h
    cases h
    exact Nat.zero_le _

/-- A request that is registered and flushed to a broken socket is neither sent nor
queued any more. -/
theorem not_flushLosesNothing_broken :
    ∃ c : ConnectedClient Unit,
      registerRequest .checked (fun _ => 0) 1 ⟨1, [.static (.wnewId 2)]⟩ (.connect ()) =
          .ok c ∧
        hasRegisteredRequests c = true ∧
        (flushRegisteredRequests brokenSender { client := c }).1 = .threw .systemError ∧
        hasRegisteredRequests (flushRegisteredRequests brokenSender { client := c }).2.client =
          false ∧
        sentBytes (flushRegisteredRequests brokenSender { client := c }).2.sent = [] ∧
        ¬FlushLosesNothing brokenSender { client := c } := by
  refine ⟨{ serverSock := { server := (), received := [] },
            requestBuff := { buff := [1, 0, 0, 0, 1, 0, 12, 0, 2, 0, 0, 0] } },
    rfl, by decide, by decide, by decide, by decide, ?_⟩
  intro hlossless
  obtain ⟨packets, hsent, hbytes, -⟩ := hlossless _ _ rfl (by intro f hf; cases hf)
  have hnone : packets = [{ bytes := [] }] := hsent.symm
  rw [hnone] at hbytes
  exact absurd hbytes (by decide)

end Waylander
