import Waylander.Client.FunctionObjects
import Waylander.Client.Visit

/-!
# Progress of function objects

`until` ends if its function objects do, as long as the server sends whole messages
and the function objects leave the stream alone.  After it has returned, whole
messages are left to be received.
-/

namespace Waylander

open Goto

variable {σ ν ω : Type}

theorem yields_map {ρ τ : Type} {f : ℕ → Option ρ} {r : ρ} (h : Yields f r) (g : ρ → τ) :
    Yields (fun n => (f n).map g) (g r) := by
  simp only [Option.map_eq_bind]
  exact h.bind_some rfl

/-- The variables beside the server do not change what it sends. -/
def ServerStream.beside (S : ServerStream σ) (ν : Type) : ServerStream (σ × ν) where
  toHost := S.toHost.beside ν
  pending s := S.pending s.1
  readSome_pending := by
    intro s n hn
    obtain ⟨chunk, s', hread, hpending, hnil⟩ := S.readSome_pending s.1 n hn
    refine ⟨chunk, (s', s.2), ?_, hpending, hnil⟩
    simp only [Host.beside, hread]

/-- Whole messages are left to be received. -/
def OnTrack (S : ServerStream σ) (c : ConnectedClient σ) : Prop :=
  ∃ fs : List (List Byte), (∀ f ∈ fs, wire.IsFrame f) ∧ c.unconsumed S = fs.flatten

/-- What function objects leave alone. -/
structure SameStream (S : ServerStream σ) (w w' : Session σ ω) : Prop where
  recvBuff : w'.client.recvBuff = w.client.recvBuff
  pending : w'.client.pending S = w.client.pending S
  resizes : w'.resizes = w.resizes

namespace SameStream

variable {S : ServerStream σ} {w w₁ w₂ : Session σ ω}

theorem refl (w : Session σ ω) : SameStream S w w :=
  ⟨rfl, rfl, rfl⟩

theorem trans (h : SameStream S w w₁) (h' : SameStream S w₁ w₂) : SameStream S w w₂ :=
  ⟨h'.recvBuff.trans h.recvBuff, h'.pending.trans h.pending, h'.resizes.trans h.resizes⟩

theorem log (w : Session σ ω) (event : Event σ ω) : SameStream S w (w.log event) :=
  ⟨rfl, rfl, rfl⟩

end SameStream

theorem Session.erase_front {w : Session σ ω} {bytes rest : List Byte}
    (h : w.client.recvBuff = bytes ++ rest) :
    (w.erase bytes.length).1 = .normal ∧
      (w.erase bytes.length).2.client = { w.client with recvBuff := rest } ∧
      (w.erase bytes.length).2.resizes = w.resizes := by
  simp [Session.erase, Session.log, h]

/-- Every function object ends, and leaves the stream alone. -/
def Answers (objects : FunctionObjects σ ω) (S : ServerStream σ) : Prop :=
  ∀ invocation w, ∃ exit w', objects invocation w = some (exit, w') ∧ SameStream S w w'

section Until

variable {objects : FunctionObjects σ ω} {S : ServerStream σ}

theorem invoke_doesOnce_yields (h : Answers objects S) {w : Session σ ω}
    {invocation : Invocation ω} (hlast : w.lastInvocation = some invocation) :
    ∃ exit w', Yields (fun fuel => invoke doesOnce (invoked objects) fuel w) (exit, w') ∧
      SameStream S w w' := by
  have haction := doesOnce_invoked hlast
  obtain ⟨exit, w', hobject, hsame⟩ := h invocation w
  have hcall : invoked objects ⟨.empty, 0, 0, false⟩ w = some (exit, w') := by
    rw [invoked, hlast, Option.bind_some, hobject]
  by_cases hdefined : exit = .undefined
  · refine ⟨.undefined, w', run_yields_exit ?_, hsame⟩
    simp only [callbackStep, haction, hcall, hdefined]
    exact yields_some _
  · have hlogged : (w'.log (.returned exit)).trace.getLast? = some (.returned exit) := by
      rw [Session.log, List.getLast?_concat]
    have hagain : Yields (fun _ => callbackStep doesOnce (invoked objects) w)
        (.again (w'.log (.returned exit))) := by
      simp only [callbackStep, haction, hcall, Option.bind_eq_bind, Option.bind_some,
        if_neg hdefined, Option.pure_def]
      exact yields_some _
    have hexit : Yields (fun _ => callbackStep doesOnce (invoked objects) (w'.log (.returned exit)))
        (.exit (exit.outOfObject, w'.log (.returned exit))) := by
      cases exit with
      | normal =>
          simp only [callbackStep, doesOnce, hlogged]
          exact yields_some _
      | threw e =>
          simp only [callbackStep, doesOnce, hlogged]
          exact yields_some _
      | undefined => exact absurd rfl hdefined
    exact ⟨_, _, run_yields_again hagain (run_yields_exit hexit), hsame.trans (.log _ _)⟩

theorem handOver_doesOnce_yields (h : Answers objects S) (position : ℕ) (msg : ParsedMessage)
    (handler : Handler ω) (w : Session σ ω) :
    ∃ exit w', Yields
        (fun fuel => handOver doesOnce (invoked objects) fuel position msg handler w) (exit, w') ∧
      SameStream S w w' := by
  have hlast : (w.log (.visited position msg handler)).lastInvocation =
      (.visited position msg handler : Event σ ω).invocation := by
    rw [Session.lastInvocation, Session.log, List.getLast?_concat, Option.bind_some]
  have hinvoked : ∀ invocation,
      (.visited position msg handler : Event σ ω).invocation = some invocation →
        ∃ exit w', Yields (fun fuel => invoke doesOnce (invoked objects) fuel
          (w.log (.visited position msg handler))) (exit, w') ∧ SameStream S w w' := by
    intro invocation hinvocation
    obtain ⟨exit, w', hyields, hsame⟩ := invoke_doesOnce_yields h (hlast.trans hinvocation)
    exact ⟨exit, w', hyields, (SameStream.log _ _).trans hsame⟩
  cases handler with
  | skipped => exact ⟨.normal, _, yields_some _, .log _ _⟩
  | overload ov => exact hinvoked _ rfl
  | untilCallback => exact hinvoked _ rfl
  | noCallback => exact ⟨.normal, _, yields_some _, .log _ _⟩

/-- The messages `gs` were handed over, and `u` is left of the span. -/
structure HandingOver (S : ServerStream σ) (span : List Byte) (w : Session σ ω)
    (gs : List (List Byte)) (u : List Byte) (l : VisitLocals σ ω) : Prop where
  frames : ∀ g ∈ gs, wire.IsFrame g
  span_eq : span = gs.flatten ++ u
  numBegin : l.numBegin = gs.flatten.length
  counters : messageHeaderSize * l.totalNumParsedMessages + l.totalParsedArgumentBytes =
    gs.flatten.length
  session : SameStream S w l.session

/-- How handing over the messages of the span ends. -/
def HandedOver (S : ServerStream σ) (span rest : List Byte) (w : Session σ ω) :
    Option Exit → Session σ ω → Prop
  | none, w' => SameStream S w w'
  | some exit, w' => exit = .normal → ∃ (gs : List (List Byte)) (u : List Byte),
      (∀ g ∈ gs, wire.IsFrame g) ∧ span = gs.flatten ++ u ∧
        w'.client.recvBuff = u ++ rest ∧ w'.client.pending S = w.client.pending S

theorem visitNext_doesOnce_yields (h : Answers objects S) (call : UntilCall ω)
    {span rest u : List Byte} {w : Session σ ω} {gs : List (List Byte)} {l : VisitLocals σ ω}
    (hbuff : w.client.recvBuff = span ++ rest) (hl : HandingOver S span w gs u l) :
    ∃ j, Yields (fun fuel =>
        visitNext doesOnce (invoked objects) call span.length w.resizes fuel l) j ∧
      j.Satisfies
        (fun l' => ∃ gs' u', HandingOver S span w gs' u' l' ∧ u'.length < u.length)
        (fun r => HandedOver S span rest w r.1 r.2) := by
  have hlength : span.length = l.numBegin + u.length := by
    rw [hl.numBegin, hl.span_eq, List.length_append]
  have hsession : l.session.client.recvBuff = span ++ rest := hl.session.recvBuff.trans hbuff
  by_cases hu : u = []
  · subst hu
    rw [List.length_nil, Nat.add_zero] at hlength
    refine ⟨.exit (none, l.session), ?_, hl.session⟩
    simp only [visitNext, if_pos hlength.symm]
    exact yields_some _
  · have hpos := List.length_pos_of_ne_nil hu
    have hmore : l.numBegin ≠ span.length := by omega
    have hvalid : ¬(l.session.resizes ≠ w.resizes ∨
        l.session.client.recvBuff.length < span.length) := by
      rw [hsession, hl.session.resizes]
      simp
    have hunparsed : (l.session.client.recvBuff.take span.length).drop l.numBegin = u := by
      rw [hsession, List.take_left, hl.numBegin, hl.span_eq, List.drop_left]
    simp only [visitNext, if_neg hmore, if_neg hvalid, hunparsed]
    cases hparse : parseNUM u with
    | error e => exact ⟨_, yields_some _, fun hnormal => by cases hnormal⟩
    | ok msg =>
        obtain ⟨f, u', hf, rfl, rfl⟩ := exists_frame_of_parseNUM hparse
        have hargs := ofFrame_arguments_length hf
        have hframes : ∀ g ∈ gs ++ [f], wire.IsFrame g := by
          intro g hg
          rcases List.mem_append.mp hg with hg | hg
          · exact hl.frames g hg
          · rwa [List.mem_singleton.mp hg]
        have hspan : span = (gs ++ [f]).flatten ++ u' := by
          rw [hl.span_eq, List.flatten_append, List.flatten_singleton, List.append_assoc]
        have hcount : (gs ++ [f]).flatten.length = gs.flatten.length + f.length := by
          rw [List.flatten_append, List.flatten_singleton, List.length_append]
        have hcounters := hl.counters
        obtain ⟨exit, w', hhand, hsame⟩ := handOver_doesOnce_yields h
          (l.session.position + l.numBegin) (.ofFrame f) (call.handler (.ofFrame f)) l.session
        have hw' := hl.session.trans hsame
        dsimp only
        by_cases hmatch : call.Matches (.ofFrame f)
        · rw [UntilCall.handler, if_pos hmatch] at hhand
          simp only [if_pos hmatch]
          by_cases hnormal : exit = .normal
          · subst hnormal
            have herase : w'.erase (messageHeaderSize * (l.totalNumParsedMessages + 1) +
                (l.totalParsedArgumentBytes + (ParsedMessage.ofFrame f).arguments.length)) =
                w'.erase (gs ++ [f]).flatten.length := by
              congr 1
              rw [hcount, Nat.mul_add]
              omega
            have hfront : w'.client.recvBuff = (gs ++ [f]).flatten ++ (u' ++ rest) := by
              rw [hw'.recvBuff, hbuff, hspan, List.append_assoc]
            obtain ⟨hnormal, hclient, -⟩ := Session.erase_front hfront
            refine ⟨.exit (some .normal, (w'.erase (gs ++ [f]).flatten.length).2),
              hhand.bind_some ?_, fun _ => ⟨gs ++ [f], u', hframes, hspan, ?_, ?_⟩⟩
            · simp only [if_pos, herase, hnormal]
              rfl
            · rw [hclient]
            · rw [hclient]
              exact hw'.pending
          · refine ⟨.exit (some exit, w'), hhand.bind_some ?_, fun h => absurd h hnormal⟩
            simp only [if_neg hnormal]
            rfl
        · rw [UntilCall.handler, if_neg hmatch] at hhand
          simp only [if_neg hmatch]
          by_cases hnormal : exit = .normal
          · subst hnormal
            refine ⟨_, hhand.bind_some rfl, gs ++ [f], u', ?_, ?_⟩
            · refine ⟨hframes, hspan, ?_, ?_, hw'⟩
              · dsimp only
                rw [hargs, hl.numBegin, hcount]
              · dsimp only
                rw [hcount, Nat.mul_add]
                omega
            · have hne := List.length_pos_of_ne_nil hf.ne_nil
              rw [List.length_append]
              omega
          · refine ⟨.exit (some exit, w'), hhand.bind_some ?_, fun h => absurd h hnormal⟩
            simp only [if_neg hnormal]
            rfl

theorem visits_doesOnce_yields (h : Answers objects S) (call : UntilCall ω)
    {span rest : List Byte} {w : Session σ ω} (hbuff : w.client.recvBuff = span ++ rest) :
    ∃ left w', Yields (fun fuel =>
        run (visitNext doesOnce (invoked objects) call span.length w.resizes) fuel
          { session := w }) (left, w') ∧
      HandedOver S span rest w left w' := by
  let Inv : VisitLocals σ ω → Prop := fun l => ∃ gs u, HandingOver S span w gs u l
  have hblock : ∀ l, Inv l → ∃ j,
      Yields (fun fuel =>
        visitNext doesOnce (invoked objects) call span.length w.resizes fuel l) j ∧
      j.Satisfies (fun l' => Inv l' ∧ span.length - l'.numBegin < span.length - l.numBegin)
        (fun r => HandedOver S span rest w r.1 r.2) := by
    rintro l ⟨gs, u, hl⟩
    obtain ⟨j, hj, hsat⟩ := visitNext_doesOnce_yields h call hbuff hl
    refine ⟨j, hj, ?_⟩
    cases j with
    | again l' =>
        obtain ⟨gs', u', hl', hless⟩ := hsat
        have hlength : span.length = l.numBegin + u.length := by
          rw [hl.numBegin, hl.span_eq, List.length_append]
        have hlength' : span.length = l'.numBegin + u'.length := by
          rw [hl'.numBegin, hl'.span_eq, List.length_append]
        exact ⟨⟨gs', u', hl'⟩, by omega⟩
    | exit r => exact hsat
  have hstart : Inv { session := w } := ⟨[], span, by simp, rfl, rfl, rfl, .refl w⟩
  obtain ⟨⟨left, w'⟩, hleft, hend⟩ :=
    run_total (fun l => span.length - l.numBegin) hblock hstart
  exact ⟨left, w', hleft, hend⟩

/-- Erasing whole messages leaves whole messages. -/
theorem OnTrack.erased {c c' : ConnectedClient σ} (h : OnTrack S c) {gs : List (List Byte)}
    {rest : List Byte} (hgs : ∀ g ∈ gs, wire.IsFrame g) (hbuff : c.recvBuff = gs.flatten ++ rest)
    (hbuff' : c'.recvBuff = rest) (hpending : c'.pending S = c.pending S) : OnTrack S c' := by
  obtain ⟨fs, hfs, hunconsumed⟩ := h
  rw [ConnectedClient.unconsumed, hbuff, List.append_assoc] at hunconsumed
  obtain ⟨hs, rfl, hrest⟩ := Framing.exists_eq_append hfs hgs Framing.incomplete_nil
    ((List.append_nil _).trans hunconsumed.symm)
  refine ⟨hs, fun f hf => hfs f (List.mem_append_right _ hf), ?_⟩
  rw [ConnectedClient.unconsumed, hbuff', hpending, hrest, List.append_nil]

theorem tryAgain_doesOnce_yields (h : Answers objects S) (call : UntilCall ω) {w : Session σ ω}
    (hw : OnTrack S w.client) :
    ∃ j, Yields (fun fuel =>
        Waylander.tryAgain doesOnce (invoked objects) call S.toHost fuel w) j ∧
      j.Satisfies
        (fun w' => OnTrack S w'.client ∧
          (w'.client.pending S).length < (w.client.pending S).length)
        (fun r => r.1 = .normal → OnTrack S r.2.client) := by
  obtain ⟨fs, hfs, hunconsumed⟩ := hw
  obtain ⟨gs, hcut, hspan, ⟨rest, hbuff⟩, -⟩ :=
    getRecdBytes_maximal hfs ⟨w.client.pending S, hunconsumed⟩
  have hgs : ∀ g ∈ gs, wire.IsFrame g := fun g hg => hfs g (hcut.subset hg)
  obtain ⟨left, w', hvisits, hend⟩ := visits_doesOnce_yields h call hbuff.symm
  cases left with
  | some exit =>
      refine ⟨.exit (exit, w'), hspan.bind (hvisits.bind (yields_some _)), fun hnormal => ?_⟩
      obtain ⟨gs', u, hgs', hspan', hbuff', hpending⟩ := hend hnormal
      refine OnTrack.erased (c := w.client) ⟨fs, hfs, hunconsumed⟩ hgs' ?_ hbuff' hpending
      rw [← hbuff, hspan', List.append_assoc]
  | none =>
      have hfront : w'.client.recvBuff = gs.flatten ++ rest := hend.recvBuff.trans hbuff.symm
      obtain ⟨hnormal, hclient, -⟩ := Session.erase_front hfront
      have herased : OnTrack S (w'.erase gs.flatten.length).2.client := by
        refine OnTrack.erased (c := w.client) ⟨fs, hfs, hunconsumed⟩ hgs hbuff.symm ?_ ?_
        · rw [hclient]
        · rw [hclient]
          exact hend.pending
      obtain ⟨r, c, bytes, hread, hreceives, hends⟩ := Session.recvMoreData_yields S
        (w'.erase gs.flatten.length).2
      have herase : w'.erase gs.flatten.length =
          (.normal, (w'.erase gs.flatten.length).2) := by
        rw [← hnormal]
      rcases hends with ⟨rfl, hne, -⟩ | ⟨rfl, -, -⟩
      · refine ⟨.again ((w'.erase gs.flatten.length).2.afterRead c),
          hspan.bind (hvisits.bind ?_), ?_, ?_⟩
        · dsimp only
          rw [herase]
          exact hread.bind_some rfl
        · obtain ⟨fs', hfs', hunconsumed'⟩ := herased
          refine ⟨fs', hfs', ?_⟩
          exact hreceives.unconsumed.trans hunconsumed'
        · have hlength := congrArg List.length hreceives.pending
          have hpos := List.length_pos_of_ne_nil hne
          have hsame : (w'.erase gs.flatten.length).2.client.pending S = w.client.pending S := by
            rw [hclient]
            exact hend.pending
          rw [hsame, List.length_append] at hlength
          change (c.pending S).length < _
          omega
      · refine ⟨.exit (.threw eofException, (w'.erase gs.flatten.length).2.afterRead c),
          hspan.bind (hvisits.bind ?_), fun hnormal => by cases hnormal⟩
        dsimp only
        rw [herase]
        exact hread.bind_some rfl

/-- `until` ends, and if it returns, whole messages are left. -/
theorem untilWith_yields (h : Answers objects S) (call : UntilCall ω) {w : Session σ ω}
    (hw : OnTrack S w.client) :
    ∃ exit w', Yields (fun fuel => untilWith objects S.toHost fuel call w) (exit, w') ∧
      (exit = .normal → OnTrack S w'.client) := by
  have hblock : ∀ w : Session σ ω, OnTrack S w.client → ∃ j, Yields (fun fuel =>
      Waylander.tryAgain doesOnce (invoked objects) call S.toHost fuel w) j ∧
      j.Satisfies
        (fun w' => OnTrack S w'.client ∧
          (w'.client.pending S).length < (w.client.pending S).length)
        (fun r => r.1 = .normal → OnTrack S r.2.client) :=
    fun _ hw => tryAgain_doesOnce_yields h call hw
  obtain ⟨⟨exit, w'⟩, hrun, hend⟩ :=
    run_total (fun w : Session σ ω => (w.client.pending S).length) hblock hw
  exact ⟨exit, w', hrun, hend⟩

end Until

/-! ## Flushing -/

/-- The server sends whole messages, if anything, when something is sent to it. -/
structure Replies (S : ServerStream σ) (sender : Sender σ) : Prop where
  send : ∀ s bytes fd, ∃ gs : List (List Byte), (∀ g ∈ gs, wire.IsFrame g) ∧
    S.pending (sender.send s bytes fd).2 = S.pending s ++ gs.flatten
  write : ∀ s bytes, ∃ gs : List (List Byte), (∀ g ∈ gs, wire.IsFrame g) ∧
    S.pending (sender.write s bytes).2 = S.pending s ++ gs.flatten

section Flush

variable {S : ServerStream σ} {sender : Sender σ}

theorem Replies.beside (h : Replies S sender) (ν : Type) :
    Replies (S.beside ν) (sender.beside ν) where
  send s bytes fd := h.send s.1 bytes fd
  write s bytes := h.write s.1 bytes

theorem OnTrack.replied {c c' : ConnectedClient σ} (h : OnTrack S c)
    (hbuff : c'.recvBuff = c.recvBuff) {gs : List (List Byte)} (hgs : ∀ g ∈ gs, wire.IsFrame g)
    (hpending : c'.pending S = c.pending S ++ gs.flatten) : OnTrack S c' := by
  obtain ⟨fs, hfs, hunconsumed⟩ := h
  refine ⟨fs ++ gs, fun f hf => ?_, ?_⟩
  · rcases List.mem_append.mp hf with hf | hf
    · exact hfs f hf
    · exact hgs f hf
  · rw [ConnectedClient.unconsumed] at hunconsumed ⊢
    rw [hbuff, hpending, ← List.append_assoc, hunconsumed, List.flatten_append]

theorem OnTrack.send (hreplies : Replies S sender) {o : Outgoing σ} (h : OnTrack S o.client)
    (span : List Byte) (fd : Wfd) : OnTrack S (o.send sender span fd).2.client := by
  obtain ⟨gs, hgs, hpending⟩ := hreplies.send o.client.serverSock.server span fd
  rw [Outgoing.send]
  split
  · rename_i hsend
    rw [hsend] at hpending
    exact h.replied rfl hgs hpending
  · rename_i hsend
    rw [hsend] at hpending
    exact h.replied rfl hgs hpending

theorem OnTrack.write (hreplies : Replies S sender) {o : Outgoing σ} (h : OnTrack S o.client)
    (span : List Byte) : OnTrack S (o.write sender span).2.client := by
  obtain ⟨gs, hgs, hpending⟩ := hreplies.write o.client.serverSock.server span
  rw [Outgoing.write]
  split
  · rename_i hwrite
    rw [hwrite] at hpending
    exact h.replied rfl hgs hpending
  · rename_i hwrite
    rw [hwrite] at hpending
    exact h.replied rfl hgs hpending

theorem OnTrack.sendFds (hreplies : Replies S sender) (data : List Byte) (fds : List Wfd)
    (bytesWritten : ℕ) {o : Outgoing σ} (h : OnTrack S o.client) :
    OnTrack S (sendFds sender data fds bytesWritten o).2.client := by
  induction fds generalizing bytesWritten o with
  | nil => exact h
  | cons fd fds ih =>
      rw [Waylander.sendFds]
      split
      · have hsend := OnTrack.send hreplies h ((data.drop bytesWritten).take 1) fd
        split
        · rename_i heq
          rw [heq] at hsend
          exact ih _ hsend
        · rename_i heq
          rw [heq] at hsend
          exact hsend
      · exact h

theorem OnTrack.flush (hreplies : Replies S sender) {o : Outgoing σ} (h : OnTrack S o.client) :
    OnTrack S (flushRegisteredRequests sender o).2.client := by
  rw [flushRegisteredRequests]
  split
  · exact h
  · dsimp only [releaseData, releaseFds]
    split
    · have hsent := OnTrack.sendFds hreplies o.client.requestBuff.buff
        o.client.requestBuff.fdBuff 0
        (o := { o with client := { o.client with requestBuff := { buff := [], fdBuff := [] } } }) h
      split
      · rename_i heq
        rw [heq] at hsent
        split
        · exact OnTrack.write hreplies hsent _
        · exact hsent
      · rename_i heq
        rw [heq] at hsent
        exact hsent
    · exact h

end Flush

end Waylander
