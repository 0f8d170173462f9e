import Waylander.Client.Conservation
import Waylander.Client.Ledger

/-!
# From one end to the other

The program of one conversation registers and flushes requests; the client at the
other end of the socket receives whatever the flushes have put there, split in any
way.  As long as no flush but the last has thrown, the messages that the other end
takes out are the registered requests, each read as it was registered.
-/

namespace Waylander

variable {σ τ ω ψ : Type} {host : Host σ}

/-! ## The bytes on the socket -/

/-- Every flush but the last returned. -/
def Conversation.LosesOnlyLast (c : Conversation σ ω) : Prop :=
  ∀ e ∈ c.flushes.dropLast, e = .returned

/-- Then there is no gap in what was sent. -/
theorem Ledger.isPrefix {c : Conversation σ ω} {batches : List Batch} {queued : List Request}
    (h : Ledger c batches queued) (hlast : c.LosesOnlyLast) :
    sentBytes c.sent <+: Request.bytes (Ledger.flushed batches) ∧
      sentFds c.sent <+: Request.fds (Ledger.flushed batches) := by
  rw [h.sent]
  rcases List.eq_nil_or_concat batches with rfl | ⟨earlier, b, rfl⟩
  · exact ⟨List.nil_prefix, List.nil_prefix⟩
  · have hearlier : ∀ b ∈ earlier, b.Delivered := by
      intro b' hb'
      apply (h.sends b' (by simp [hb'])).delivered
      apply hlast
      rw [h.flushes, List.concat_eq_append, List.map_append, List.map_singleton,
        List.dropLast_concat]
      exact List.mem_map_of_mem hb'
    obtain ⟨hbytes, hfds⟩ := Ledger.delivered_packets hearlier
    have hb := (h.sends b (by simp)).inOrder
    rw [Ledger.flushed] at hbytes hfds
    rw [Ledger.flushed, List.concat_eq_append, List.flatMap_append, List.flatMap_append,
      List.flatMap_singleton, List.flatMap_singleton, sentBytes_append, sentFds_append,
      Request.bytes_append, Request.fds_append, hbytes, hfds]
    exact ⟨(List.prefix_append_right_inj _).mpr hb.bytes,
      (List.prefix_append_right_inj _).mpr hb.fds⟩

/-- The socket holds some first ones of the requests, and then possibly an
incomplete one. -/
theorem Conversation.exists_sentBytes {server : σ} {c : Conversation σ ω}
    (h : (Conversation.start server).Steps host c) (hlast : c.LosesOnlyLast)
    (hfits : ∀ r ∈ c.registered, r.msg.encodedSize < 2 ^ 16) :
    ∃ whole rest t, c.registered = whole ++ rest ∧
      (∀ f ∈ whole.map Request.frame, wire.IsFrame f) ∧
      sentBytes c.sent = Request.bytes whole ++ t ∧ wire.Incomplete t := by
  obtain ⟨batches, queued, hledger⟩ := (Ledger.start server).steps h
  obtain ⟨lost, hlost⟩ := (hledger.isPrefix hlast).1
  have hframes : ∀ f ∈ (Ledger.flushed batches).map Request.frame, wire.IsFrame f := by
    intro f hf
    obtain ⟨r, hr, rfl⟩ := List.mem_map.mp hf
    apply r.isFrame
    apply hfits
    rw [hledger.registered]
    exact List.mem_append_left _ hr
  rw [Request.bytes, ← List.append_nil (List.flatten _)] at hlost
  obtain ⟨gs, hs, t, hsplit, hsent, ht, -⟩ :=
    Framing.exists_cut hframes Framing.incomplete_nil hlost
  obtain ⟨whole, cut, hflushed, rfl, -⟩ := List.map_eq_append_iff.mp hsplit
  refine ⟨whole, cut ++ queued, t, ?_, ?_, hsent, ht⟩
  · rw [hledger.registered, ← List.append_assoc, ← hflushed]
    rfl
  · intro f hf
    apply hframes
    rw [hflushed, List.map_append]
    exact List.mem_append_left _ hf

/-! ## The other end -/

/-- `pm` has the object id and the opcode of the request, and its payload is
interpreted as the request's arguments. -/
def Request.ReadAs (r : Request) (pm : ParsedMessage) : Prop :=
  pm.objectId = r.obj ∧ pm.opcode = r.msg.opcode ∧
    (r.msg.FdFree →
      interpertMessagePayload .unchecked pm.arguments r.msg.types = .ok r.msg.arguments)

theorem Request.readAs_ofFrame (r : Request) (hfits : r.msg.encodedSize < 2 ^ 16) :
    r.ReadAs (.ofFrame r.frame) := by
  obtain ⟨stale, start, hframe⟩ := r.isEncoding
  refine ⟨?_, ?_, ?_⟩
  · rw [hframe, Message.encode, ParsedMessage.ofFrame_bytes]
    rfl
  · rw [hframe, Message.encode, ParsedMessage.ofFrame_bytes]
    rfl
  · intro hfd
    rw [hframe]
    exact (carries_ofFrame_encode stale (m := (r.obj, r.msg)) hfd hfits start).2.2

theorem Request.forall₂_readAs {rs : List Request}
    (hfits : ∀ r ∈ rs, r.msg.encodedSize < 2 ^ 16) :
    List.Forall₂ Request.ReadAs rs ((rs.map Request.frame).map ParsedMessage.ofFrame) := by
  induction rs with
  | nil => exact .nil
  | cons r rs ih =>
      exact .cons (r.readAs_ofFrame (hfits r (by simp))) (ih fun r hr => hfits r (by simp [hr]))

section Peer

variable {server : σ} {c : Conversation σ ω} {S : ServerStream τ} {peer : τ}
variable {callbacks : List (Event τ ψ) → CallbackAction ψ} {w : Session τ ψ}

/-- The other end is always at a boundary between two requests. -/
theorem Conversation.peer_conserved (h : (Conversation.start server).Steps host c)
    (hlast : c.LosesOnlyLast) (hfits : ∀ r ∈ c.registered, r.msg.encodedSize < 2 ^ 16)
    (hreturns : AlwaysReturns callbacks) (hpeer : S.pending peer = sentBytes c.sent)
    (hw : Reachable callbacks S.toHost (fun _ => True) (.start peer) w) :
    ∃ whole rest t, c.registered = whole ++ rest ∧
      (∀ f ∈ whole.map Request.frame, wire.IsFrame f) ∧ wire.Incomplete t ∧
      sentBytes c.sent = Request.bytes whole ++ t ∧
      Conserved S (whole.map Request.frame) t w := by
  obtain ⟨whole, rest, t, hregistered, hframes, hsent, ht⟩ := exists_sentBytes h hlast hfits
  exact ⟨whole, rest, t, hregistered, hframes, ht, hsent,
    hw.conserved hframes ht hreturns.neverReenters (Or.inl hreturns) (hpeer.trans hsent)⟩

/-- The messages that the other end has taken out are the first requests registered,
in order, and the rest of what was sent is in its buffer or still under way. -/
theorem Conversation.received_requests (h : (Conversation.start server).Steps host c)
    (hlast : c.LosesOnlyLast) (hfits : ∀ r ∈ c.registered, r.msg.encodedSize < 2 ^ 16)
    (hreturns : AlwaysReturns callbacks) (hpeer : S.pending peer = sentBytes c.sent)
    (hw : Reachable callbacks S.toHost (fun _ => True) (.start peer) w) :
    ∃ received rest, c.registered = received ++ rest ∧
      List.Forall₂ Request.ReadAs received (removed w.trace) ∧
      sentBytes c.sent =
        Request.bytes received ++ (w.client.recvBuff ++ w.client.pending S) := by
  obtain ⟨whole, rest, t, hregistered, -, -, hsent, done, later, hboundary, hremoved⟩ :=
    peer_conserved h hlast hfits hreturns hpeer hw
  obtain ⟨received, coming, rfl, rfl, rfl⟩ := List.map_eq_append_iff.mp hboundary.frames
  refine ⟨received, coming ++ rest, by rw [hregistered, List.append_assoc], ?_, ?_⟩
  · rw [hremoved]
    exact Request.forall₂_readAs fun r hr => hfits r (by simp [hregistered, hr])
  · have hrest := hboundary.unconsumed
    rw [ConnectedClient.unconsumed] at hrest
    rw [hsent, Request.bytes_append, List.append_assoc, hrest]
    rfl

/-- A peer that calls `recv_events` once. -/
theorem Conversation.received_requests_pool :
    ∃ (c : Conversation (List Byte) Unit) (w : Session (List Byte) Unit) (exit : Exit),
      c.registered.length = 2 ∧
      Performs (fun _ => .returns) (boundedServer 99).toHost .recvEvents
        (.start (sentBytes c.sent)) exit w ∧
      ∃ received rest, c.registered = received ++ rest ∧
        List.Forall₂ Request.ReadAs received (removed w.trace) ∧
        sentBytes c.sent =
          Request.bytes received ++ (w.client.recvBuff ++ w.client.pending (boundedServer 99)) := by
  obtain ⟨c, hsteps, hpairs, hflushes⟩ := exists_steps_pool (boundedServer 99).toHost
  have hfits : ∀ m ∈ c.registered.map Request.pair, m.2.encodedSize < 2 ^ 16 := by
    rw [hpairs]
    decide
  have hlast : c.LosesOnlyLast := by simp [LosesOnlyLast, hflushes]
  have hreturns : AlwaysReturns (fun _ : List (Event (List Byte) Unit) => .returns) :=
    fun _ => rfl
  obtain ⟨whole, rest, t, -, hframes, ht, -, hstart⟩ :=
    peer_conserved hsteps hlast (fun r hr => hfits r.pair (List.mem_map_of_mem hr)) hreturns
      (S := boundedServer 99) rfl .start
  obtain ⟨exit, w, hop⟩ := hstart.exists_performs hframes ht hreturns.neverReenters .recvEvents
  refine ⟨c, w, exit, ?_, hop, Conversation.received_requests hsteps hlast
    (fun r hr => hfits r.pair (List.mem_map_of_mem hr)) hreturns rfl (.step .start hop trivial)⟩
  rw [← List.length_map Request.pair, hpairs]
  rfl

/-- Every call at the other end ends, and by an exception only when everything sent
has been read. -/
theorem Conversation.peer_performs (h : (Conversation.start server).Steps host c)
    (hlast : c.LosesOnlyLast) (hfits : ∀ r ∈ c.registered, r.msg.encodedSize < 2 ^ 16)
    (hreturns : AlwaysReturns callbacks) (hpeer : S.pending peer = sentBytes c.sent)
    (hw : Reachable callbacks S.toHost (fun _ => True) (.start peer) w) (op : Op ψ) :
    ∃ exit w', Performs callbacks S.toHost op w exit w' ∧
      (exit = .normal ∨ exit = .threw eofException ∧ w'.client.pending S = []) := by
  obtain ⟨whole, rest, t, -, hframes, ht, -, hconserved⟩ :=
    peer_conserved h hlast hfits hreturns hpeer hw
  obtain ⟨exit, w', hop⟩ := hconserved.exists_performs hframes ht hreturns.neverReenters op
  have hend := (hconserved.noZeroSize hframes ht).callEnd hreturns.neverReenters hop
  refine ⟨exit, w', hop, ?_⟩
  cases hend with
  | normal => exact Or.inl rfl
  | eof hacts hreceives hpending hfilled => exact Or.inr ⟨rfl, hpending⟩
  | malformed hacts hscan hgs hspan hu herror =>
      obtain ⟨done, later, hboundary, -⟩ := hacts.conserved hframes ht hconserved
      exact absurd herror (hscan.parseNUM_ne_error (hboundary.isFrame hframes) ht
        hboundary.unconsumed hgs hspan hu)
  | callbackThrew hacts hgs hbuff hthrows => exact absurd hreturns hthrows

theorem Conversation.peer_performs_pool :
    ∃ c : Conversation (List Byte) Unit, c.registered.length = 2 ∧
      ∃ (exit : Exit) (w' : Session (List Byte) Unit),
        Performs (fun _ => .returns) (boundedServer 99).toHost .recvEvents
          (.start (sentBytes c.sent)) exit w' ∧
        (exit = .normal ∨
          exit = .threw eofException ∧ w'.client.pending (boundedServer 99) = []) := by
  obtain ⟨c, hsteps, hpairs, hflushes⟩ := exists_steps_pool (boundedServer 99).toHost
  have hfits : ∀ m ∈ c.registered.map Request.pair, m.2.encodedSize < 2 ^ 16 := by
    rw [hpairs]
    decide
  refine ⟨c, ?_, Conversation.peer_performs hsteps (by simp [LosesOnlyLast, hflushes])
    (fun r hr => hfits r.pair (List.mem_map_of_mem hr)) (fun _ => rfl) rfl .start .recvEvents⟩
  rw [← List.length_map Request.pair, hpairs]
  rfl

end Peer

end Waylander
