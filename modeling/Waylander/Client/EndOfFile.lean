import Waylander.Client.Blocks
import Waylander.Client.Conservation

/-!
# Messages left behind at the end of the file

`recv_more_data` throws when it finds the end of the file, also if reads before
it in the same call were filled, and the callers parse only what it leaves
normally.  Where this strands whole messages is a question of the stream and of
the answers of the socket: `recv_events` calls `recv_more_data` right away, and
`until` calls it on each client that it comes to when it has gone past the
messages held.
-/

namespace Waylander

open Goto

variable {σ ω : Type} {callbacks : List (Event σ ω) → CallbackAction ω} {S : ServerStream σ}
variable {fs : List (List Byte)} {t : List Byte}

/-! ## The clients that read -/

/-- No message in the bytes held is the one to wait for, and `left` is left behind
them. -/
def UntilCall.Skips (call : UntilCall ω) (held left : List Byte) : Prop :=
  ∃ gs : List (List Byte), (∀ g ∈ gs, wire.IsFrame g) ∧
    (∀ g ∈ gs, ¬call.Matches (.ofFrame g)) ∧ held = gs.flatten ++ left ∧ wire.Incomplete left

variable (S) in
/-- All messages held are skipped, and the socket's answers refill the buffer. -/
def UntilCall.Round (call : UntilCall ω) (c c' : ConnectedClient σ) : Prop :=
  ∃ left, call.Skips c.recvBuff left ∧ Refills S.toHost { c with recvBuff := left } c'

variable (S) in
/-- By the messages of the stream and the answers of the socket, the operation on the
client `c` comes to call `recv_more_data` on `d`. -/
def Op.Reads (op : Op ω) (c d : ConnectedClient σ) : Prop :=
  match op with
  | .recvMoreData => d = c
  | .recvEvents => d = c
  | .untilCall call => ∃ c₁ left, Relation.ReflTransGen (call.Round S) c c₁ ∧
      call.Skips c₁.recvBuff left ∧ d = { c₁ with recvBuff := left }

variable (S t) in
/-- Some `recv_more_data` of the operation begins when the stream ends on a block and more
is held and pending than the message `t` that is cut off at the end. -/
def Op.Strands (op : Op ω) (c : ConnectedClient σ) : Prop :=
  ∃ d, op.Reads S c d ∧ S.EndsOnBlock d.recvBuff.length d.serverSock.server ∧
    t.length < d.recvBuff.length + (S.pending d.serverSock.server).length

theorem UntilCall.Skips.unique {call : UntilCall ω} {held left left' : List Byte}
    (h : call.Skips held left) (h' : call.Skips held left') : left = left' := by
  obtain ⟨gs, hgs, -, rfl, hleft⟩ := h
  obtain ⟨gs', hgs', -, heq, hleft'⟩ := h'
  obtain ⟨hs, rfl, hrest⟩ := Framing.exists_eq_append hgs hgs' hleft heq
  cases hs with
  | nil => exact hrest.symm
  | cons f hs =>
      have hf := hgs f (by simp)
      rw [hrest, List.flatten_cons, List.append_assoc] at hleft'
      exact absurd (hf.follows _) hleft'.not_follows

/-- Bytes in which the message to wait for is found are not skipped. -/
theorem UntilCall.not_skips {call : UntilCall ω} {gs : List (List Byte)}
    {f rest left : List Byte} (hgs : ∀ g ∈ gs ++ [f], wire.IsFrame g)
    (hmatch : call.Matches (.ofFrame f)) :
    ¬call.Skips ((gs ++ [f]).flatten ++ rest) left := by
  rintro ⟨gs', hgs', hskip, heq, hleft⟩
  obtain ⟨hs, rfl, -⟩ := Framing.exists_eq_append hgs' hgs hleft heq.symm
  exact hskip f (by simp) hmatch

theorem UntilCall.Round.unique {call : UntilCall ω} {c c₁ c₂ : ConnectedClient σ}
    (h₁ : call.Round S c c₁) (h₂ : call.Round S c c₂) : c₁ = c₂ := by
  obtain ⟨left, hskips, hrefills₁⟩ := h₁
  obtain ⟨left', hskips', hrefills₂⟩ := h₂
  obtain rfl := hskips.unique hskips'
  exact hrefills₁.unique hrefills₂

/-- Rounds that cannot be continued end in one client. -/
theorem UntilCall.rounds_unique {call : UntilCall ω} {c c₁ c₂ : ConnectedClient σ}
    (h₁ : Relation.ReflTransGen (call.Round S) c c₁)
    (h₂ : Relation.ReflTransGen (call.Round S) c c₂)
    (hstuck₁ : ∀ d, ¬call.Round S c₁ d) (hstuck₂ : ∀ d, ¬call.Round S c₂ d) : c₁ = c₂ := by
  have huniq : Relator.RightUnique (call.Round S) := fun _ _ _ => UntilCall.Round.unique
  exact eq_of_stuck huniq h₁ h₂ hstuck₁ hstuck₂

/-- There is no round from a client that finds the end of the file. -/
theorem UntilCall.Skips.not_round {call : UntilCall ω} {c d : ConnectedClient σ}
    {left : List Byte} (h : call.Skips c.recvBuff left)
    (hfilled : FilledToEof S { c with recvBuff := left }) : ¬call.Round S c d := by
  rintro ⟨left', hskips', hrefills⟩
  obtain rfl := h.unique hskips'
  exact hfilled.not_refills hrefills

theorem Op.Reads.unique {op : Op ω} {c d d' : ConnectedClient σ} (h : op.Reads S c d)
    (h' : op.Reads S c d') (hfilled : FilledToEof S d) (hfilled' : FilledToEof S d') :
    d = d' := by
  cases op with
  | recvMoreData =>
      obtain rfl : d = c := h
      exact Eq.symm h'
  | recvEvents =>
      obtain rfl : d = c := h
      exact Eq.symm h'
  | untilCall call =>
      obtain ⟨c₁, left, hrounds, hskips, rfl⟩ := h
      obtain ⟨c₂, left', hrounds', hskips', rfl⟩ := h'
      obtain rfl := UntilCall.rounds_unique hrounds hrounds'
        (fun _ => hskips.not_round hfilled) (fun _ => hskips'.not_round hfilled')
      rw [hskips.unique hskips']

/-! ## How the calls end -/

variable (S) in
/-- The operation on the client `c` throws at the end of the file, with everything the
stream still had in the buffer, or it does not come to read there. -/
def EndsAtEof (op : Op ω) (c : ConnectedClient σ) (r : Exit × Session σ ω) : Prop :=
  (r.1 = .threw eofException ∧ ∃ d, op.Reads S c d ∧ FilledToEof S d ∧
    r.2.client.recvBuff = d.unconsumed S ∧ r.2.client.pending S = []) ∨
  (r.1 ≠ .threw eofException ∧ ∀ d, op.Reads S c d → ¬FilledToEof S d)

theorem Receives.recvBuff_of_pending {c c' : ConnectedClient σ} {bytes : List Byte}
    (h : Receives S c c' bytes) (hpending : c'.pending S = []) :
    c'.recvBuff = c.unconsumed S := by
  rw [← h.unconsumed, ConnectedClient.unconsumed, hpending, List.append_nil]

theorem EventsEnd.endsAtEof {w : Session σ ω} {r : Exit × Session σ ω} (h : EventsEnd S w r) :
    EndsAtEof S .recvEvents w.client r := by
  cases h with
  | eof hreceives hpending hfilled =>
      exact Or.inl ⟨rfl, w.client, rfl, hfilled, hreceives.recvBuff_of_pending hpending,
        hpending⟩
  | parsed hreceives hne hfilled hscan =>
      refine Or.inr ⟨Exit.noConfusion, ?_⟩
      rintro d rfl
      exact hfilled

/-- A pass goes on with the next client that reads, or ends as the stream and the
socket say. -/
theorem Pass.endsAtEof (hreturns : AlwaysReturns callbacks) (hfs : ∀ f ∈ fs, wire.IsFrame f)
    (ht : wire.Incomplete t) {call : UntilCall ω} {c : ConnectedClient σ} {w : Session σ ω}
    {j : Jump (Session σ ω) (Exit × Session σ ω)}
    (hrounds : Relation.ReflTransGen (call.Round S) c w.client) (hw : Conserved S fs t w)
    (h : Pass callbacks S call w j) :
    j.Satisfies (fun w' => Relation.ReflTransGen (call.Round S) c w'.client)
      (EndsAtEof S (.untilCall call) c) := by
  cases h with
  | @left span rest exit w' hscan hvisit =>
      cases hvisit with
      | malformed hgs hspan hu herror =>
          obtain ⟨_, _, hboundary, -⟩ := hw
          exact absurd herror (hscan.parseNUM_ne_error (hboundary.isFrame hfs) ht
            hboundary.unconsumed hgs hspan hu)
      | callbackThrew hgs hspan hthrows => exact absurd hreturns hthrows
      | @found gs f u hgs hskip hmatch hspan =>
          have hbuff : w.client.recvBuff = (gs ++ [f]).flatten ++ (u ++ rest) := by
            rw [hscan.split, hspan, List.append_assoc]
          have hnot : ∀ u', ¬call.Skips w.client.recvBuff u' := by
            intro u'
            rw [hbuff]
            exact UntilCall.not_skips hgs hmatch
          have hstuck : ∀ d, ¬call.Round S w.client d := by
            rintro d ⟨u', hskips, -⟩
            exact hnot u' hskips
          refine Or.inr ⟨Exit.noConfusion, ?_⟩
          rintro d ⟨c₁, u', hrounds₁, hskips, rfl⟩ hfilled
          obtain rfl := UntilCall.rounds_unique hrounds₁ hrounds
            (fun _ => hskips.not_round hfilled) hstuck
          exact hnot u' hskips
  | eof hgs hskip hscan hreceives hpending hfilled =>
      have hskips : call.Skips w.client.recvBuff _ :=
        ⟨_, hgs, hskip, hscan.split, hscan.incomplete⟩
      exact Or.inl ⟨rfl, _, ⟨_, _, hrounds, hskips, rfl⟩, hfilled,
        hreceives.recvBuff_of_pending hpending, hpending⟩
  | again hgs hskip hscan hreceives hne hfilled hrefills =>
      exact hrounds.tail ⟨_, ⟨_, hgs, hskip, hscan.split, hscan.incomplete⟩, hrefills⟩

/-- Every call on a stream of whole messages ends as the stream and the socket say. -/
theorem Conserved.endsAtEof (hreturns : AlwaysReturns callbacks)
    (hfs : ∀ f ∈ fs, wire.IsFrame f) (ht : wire.Incomplete t) {w : Session σ ω}
    (hw : Conserved S fs t w) (op : Op ω) :
    ∃ r, Yields (fun fuel => op.perform callbacks S.toHost fuel w) r ∧
      EndsAtEof S op w.client r := by
  cases op with
  | recvMoreData =>
      obtain ⟨exit, c, bytes, hyields, hreceives, hend⟩ :=
        perform_recvMoreData_yields callbacks S w
      refine ⟨_, hyields, ?_⟩
      rcases hend with ⟨rfl, -, hfilled⟩ | ⟨rfl, hpending, hfilled⟩
      · refine Or.inr ⟨Exit.noConfusion, ?_⟩
        rintro d rfl
        exact hfilled
      · exact Or.inl ⟨rfl, w.client, rfl, hfilled, hreceives.recvBuff_of_pending hpending,
          hpending⟩
  | recvEvents =>
      have hscan : ∀ c bytes, Receives S w.client c bytes →
          Ends fun fuel => getRecdBytesFormingWholeMessages fuel c.recvBuff := fun _ _ hreceives =>
        ((hw.noZeroSize hfs ht).of_reached hreceives.moves).getRecdBytes_ends
      obtain ⟨r, hyields, hend⟩ := perform_recvEvents_yields callbacks hscan
      exact ⟨r, hyields, hend.endsAtEof⟩
  | untilCall call =>
      let Inv : Session σ ω → Prop := fun w' =>
        Relation.ReflTransGen (call.Round S) w.client w'.client ∧ Conserved S fs t w'
      have hscan : ∀ w', Inv w' →
          Ends fun fuel => getRecdBytesFormingWholeMessages fuel w'.client.recvBuff :=
        fun w' hw' => (hw'.2.noZeroSize hfs ht).getRecdBytes_ends
      have hpass : ∀ w₁ j, Inv w₁ → Pass callbacks S call w₁ j →
          j.Satisfies Inv (EndsAtEof S (.untilCall call) w.client) := by
        rintro w₁ j ⟨hrounds, hconserved⟩ hpass
        have hend := hpass.endsAtEof hreturns hfs ht hrounds hconserved
        have hacts := hpass.acts
        cases j with
        | again w₂ => exact ⟨hend, hacts.conserved hfs ht hconserved⟩
        | exit r => exact hend
      exact recvisClosureUntil_total hreturns.neverReenters hscan hpass ⟨.refl, hw⟩

/-- When all bytes were received, no whole message is held and all of them have been
removed exactly if no more is held than the message that is cut off. -/
theorem Conserved.delivered_iff (hfs : ∀ f ∈ fs, wire.IsFrame f) (ht : wire.Incomplete t)
    {w : Session σ ω} (h : Conserved S fs t w) (hpending : w.client.pending S = []) :
    wire.Incomplete w.client.recvBuff ∧ removed w.trace = fs.map .ofFrame ↔
      w.client.recvBuff.length ≤ t.length := by
  obtain ⟨done, rest, hboundary, hremoved⟩ := h
  have hbuff := hboundary.unconsumed
  rw [ConnectedClient.unconsumed, hpending, List.append_nil] at hbuff
  rw [hbuff, hremoved, hboundary.frames]
  cases rest with
  | nil => simp [ht]
  | cons f rest =>
      have hf := hboundary.isFrame hfs f (by simp)
      have hpos := List.length_pos_of_ne_nil hf.ne_nil
      refine iff_of_false ?_ ?_
      · rintro ⟨hinc, -⟩
        rw [List.flatten_cons, List.append_assoc] at hinc
        exact hinc.not_follows (hf.follows _)
      · rw [List.flatten_cons, List.length_append, List.length_append]
        omega

/-- A call that throws at the end of the file leaves no whole message in the buffer, and
all whole messages of the stream have then been delivered, exactly if no
`recv_more_data` of the call begins where the stream ends on a block and whole
messages are still to come. -/
theorem eof_delivered_iff (hreturns : AlwaysReturns callbacks)
    (hfs : ∀ f ∈ fs, wire.IsFrame f) (ht : wire.Incomplete t) {server : σ}
    (hserver : S.pending server = fs.flatten ++ t) {w w' : Session σ ω}
    (hw : Reachable callbacks S.toHost (fun _ => True) (.start server) w) {op : Op ω}
    {exit : Exit} (hop : Performs callbacks S.toHost op w exit w') :
    (exit = .threw eofException →
        wire.Incomplete w'.client.recvBuff ∧ removed w'.trace = fs.map .ofFrame) ↔
      ¬op.Strands S t w.client := by
  have hreenter := hreturns.neverReenters
  have hconserved := hw.conserved hfs ht hreenter (Or.inl hreturns) hserver
  have hconserved' := ((hconserved.noZeroSize hfs ht).callEnd hreenter hop).conserved hfs ht
    hconserved (Or.inl hreturns)
  obtain ⟨fuel, hfuel⟩ := hop
  obtain ⟨r, hyields, hend⟩ := hconserved.endsAtEof hreturns hfs ht op
  obtain rfl := hyields.eq_of_some hfuel
  constructor
  · rintro hdelivered ⟨d, hreads, hends, hlonger⟩
    have hfilled := filledToEof_iff.mpr hends
    rcases hend with ⟨rfl, d', hreads', hfilled', hbuff, hpending⟩ | ⟨-, hnone⟩
    · obtain rfl := hreads.unique hreads' hfilled hfilled'
      have hle := (hconserved'.delivered_iff hfs ht hpending).mp (hdelivered rfl)
      rw [hbuff, ConnectedClient.unconsumed, List.length_append] at hle
      exact absurd hlonger (Nat.not_lt.mpr hle)
    · exact hnone d hreads hfilled
  · rintro hnot rfl
    rcases hend with ⟨-, d, hreads, hfilled, hbuff, hpending⟩ | ⟨hne, -⟩
    · rw [hconserved'.delivered_iff hfs ht hpending, hbuff]
      by_contra hlonger
      rw [ConnectedClient.unconsumed, List.length_append] at hlonger
      exact hnot ⟨d, hreads, filledToEof_iff.mp hfilled, Nat.lt_of_not_le hlonger⟩
    · exact absurd rfl hne

/-- The second `recv_events` on a stream of one message finds the end of the
file. -/
theorem eof_delivered_iff_recvEvents :
    ∃ w w' : Session (List Byte) Unit,
      Performs (fun _ => .returns) (boundedServer 99).toHost .recvEvents
        (.start [1, 0, 0, 0, 0, 0, 8, 0]) .normal w ∧
      Performs (fun _ => .returns) (boundedServer 99).toHost .recvEvents w
        (.threw eofException) w' ∧
      ((Exit.threw eofException = .threw eofException →
          wire.Incomplete w'.client.recvBuff ∧
            removed w'.trace = [[1, 0, 0, 0, 0, 0, 8, 0]].map .ofFrame) ↔
        ¬(Op.recvEvents : Op Unit).Strands (boundedServer 99) [] w.client) := by
  have hfs : ∀ f ∈ [[1, 0, 0, 0, 0, 0, 8, 0]], wire.IsFrame f := by decide
  have hreturns : AlwaysReturns (fun _ : List (Event (List Byte) Unit) => .returns) :=
    fun _ => rfl
  have hrun : ((Op.recvEvents.perform (fun _ => .returns) (boundedServer 99).toHost 3
      (.start [1, 0, 0, 0, 0, 0, 8, 0] : Session (List Byte) Unit)).bind fun r =>
        (Op.recvEvents.perform (fun _ => .returns) (boundedServer 99).toHost 3 r.2).map
          fun r' => (r.1, r'.1)) = some (.normal, .threw eofException) := by
    decide +kernel
  obtain ⟨⟨exit, w⟩, hfirst, hrest⟩ := Option.bind_eq_some_iff.mp hrun
  obtain ⟨⟨exit', w'⟩, hsecond, hexits⟩ := Option.map_eq_some_iff.mp hrest
  cases hexits
  exact ⟨w, w', ⟨3, hfirst⟩, ⟨3, hsecond⟩, eof_delivered_iff hreturns hfs
    Framing.incomplete_nil rfl (.step .start ⟨3, hfirst⟩ trivial) ⟨3, hsecond⟩⟩

/-- A whole message and 993 bytes of one that is cut off fill the first read of a
client.  `recv_events` throws, with the whole message in the buffer. -/
theorem eof_undelivered :
    let f : List Byte := [1, 0, 0, 0, 0, 0, 8, 0]
    let cut : List Byte := [1, 0, 0, 0, 0, 0, 0, 16] ++ List.replicate 985 0
    wire.IsFrame f ∧ wire.Incomplete cut ∧
      (Op.recvEvents.perform (fun _ => .returns) (boundedServer 1001).toHost 3
        (.start (f ++ cut) : Session (List Byte) Unit)).map
          (fun r => (r.1, r.2.client.recvBuff, (removed r.2.trace).length)) =
        some (.threw eofException, f ++ cut, 0) := by
  decide +kernel

end Waylander
