import Waylander.Client.Until

/-!
# One pass of `until`

What the loop over the parsed messages and one pass from the label `try_again`
to the next jump do, when no overload or until callback calls the client.  All
facts about runs of the client are derived from the outcomes listed here.
-/

namespace Waylander

open Goto

variable {σ ω : Type}

/-! ## Invoked function objects -/

/-- No overload or until callback calls `until` on the client. -/
def NeverReenters (callbacks : List (Event σ ω) → CallbackAction ω) : Prop :=
  ∀ trace call, callbacks trace ≠ .callsUntil call

/-- Every overload and until callback returns normally. -/
def AlwaysReturns (callbacks : List (Event σ ω) → CallbackAction ω) : Prop :=
  ∀ trace, callbacks trace = .returns

theorem AlwaysReturns.neverReenters {callbacks : List (Event σ ω) → CallbackAction ω}
    (h : AlwaysReturns callbacks) : NeverReenters callbacks := by
  intro trace call hcall
  rw [h trace] at hcall
  cases hcall

namespace Session

def logAll (w : Session σ ω) (events : List (Event σ ω)) : Session σ ω :=
  { w with trace := w.trace ++ events }

/-- The session after `bytes` at the front of `recv_buff_` were visited, with the
given events, and erased. -/
def consumed (w : Session σ ω) (events : List (Event σ ω)) (bytes rest : List Byte) :
    Session σ ω :=
  { w with
    client := { w.client with recvBuff := rest }
    trace := w.trace ++ (events ++ [.erased bytes.length (bytes.length + rest.length)]) }

@[simp] theorem logAll_client (w : Session σ ω) (events : List (Event σ ω)) :
    (w.logAll events).client = w.client := rfl

@[simp] theorem logAll_resizes (w : Session σ ω) (events : List (Event σ ω)) :
    (w.logAll events).resizes = w.resizes := rfl

@[simp] theorem logAll_trace (w : Session σ ω) (events : List (Event σ ω)) :
    (w.logAll events).trace = w.trace ++ events := rfl

@[simp] theorem logAll_nil (w : Session σ ω) : w.logAll [] = w := by
  simp [logAll]

@[simp] theorem logAll_position (w : Session σ ω) (events : List (Event σ ω)) :
    (w.logAll events).position = w.position := rfl

theorem logAll_log (w : Session σ ω) (events : List (Event σ ω)) (event : Event σ ω) :
    (w.logAll events).log event = w.logAll (events ++ [event]) := by
  simp [logAll, log]

theorem erase_logAll {w : Session σ ω} {bytes rest : List Byte} (events : List (Event σ ω))
    (h : w.client.recvBuff = bytes ++ rest) :
    (w.logAll events).erase bytes.length = (.normal, w.consumed events bytes rest) := by
  simp [erase, logAll, log, consumed, h]

end Session

section Visit

variable {callbacks : List (Event σ ω) → CallbackAction ω}
variable (reenter : UntilCall ω → Session σ ω → Option (Exit × Session σ ω))

theorem invoke_yields (hreenter : NeverReenters callbacks) (w : Session σ ω) :
    ∃ exit, Yields (fun fuel => invoke callbacks reenter fuel w) (exit, w) ∧
      (exit = .normal ∨ exit = .threw .callbackError ∧ ¬AlwaysReturns callbacks) := by
  cases haction : callbacks w.trace with
  | returns =>
      refine ⟨.normal, run_yields_exit ?_, Or.inl rfl⟩
      simp only [callbackStep, haction]
      exact yields_some _
  | throws =>
      refine ⟨.threw .callbackError, run_yields_exit ?_, Or.inr ⟨rfl, ?_⟩⟩
      · simp only [callbackStep, haction]
        exact yields_some _
      · intro hreturns
        rw [hreturns w.trace] at haction
        cases haction
  | callsUntil call => exact absurd haction (hreenter w.trace call)

theorem handOver_yields (hreenter : NeverReenters callbacks) (position : ℕ)
    (msg : ParsedMessage) (handler : Handler ω) (w : Session σ ω) :
    ∃ exit, Yields (fun fuel => handOver callbacks reenter fuel position msg handler w)
        (exit, w.log (.visited position msg handler)) ∧
      (exit = .normal ∨ exit = .threw .callbackError ∧ ¬AlwaysReturns callbacks) := by
  have hinvoke := invoke_yields reenter hreenter
    (w.log (.visited position msg handler))
  cases handler with
  | skipped => exact ⟨.normal, yields_some _, Or.inl rfl⟩
  | overload ov => exact hinvoke
  | untilCallback => exact hinvoke
  | noCallback => exact ⟨.normal, yields_some _, Or.inl rfl⟩

/-! ## The loop over the parsed messages -/

/-- What `until` hands a message to. -/
def UntilCall.handler (call : UntilCall ω) (msg : ParsedMessage) : Handler ω :=
  if call.Matches msg then
    if call.callback then .untilCallback else .noCallback
  else
    match call.mos.overloadResolution msg.objectId msg.opcode with
    | some ov => .overload ov
    | none => .skipped

/-- The events of visiting the frames, the first of which begins at `position`. -/
def visits (call : UntilCall ω) : ℕ → List (List Byte) → List (Event σ ω)
  | _, [] => []
  | position, f :: fs =>
      .visited position (.ofFrame f) (call.handler (.ofFrame f)) ::
        visits call (position + f.length) fs

theorem visits_append (call : UntilCall ω) (position : ℕ) (fs gs : List (List Byte)) :
    (visits call position (fs ++ gs) : List (Event σ ω)) =
      visits call position fs ++ visits call (position + fs.flatten.length) gs := by
  induction fs generalizing position with
  | nil => rfl
  | cons f fs ih => simp [visits, ih, Nat.add_assoc]

variable (callbacks) in
/-- How the loop over the messages of `span`, at the front of `recv_buff_` and
followed there by `rest`, ends in the session `w`. -/
inductive VisitEnd (call : UntilCall ω) (span rest : List Byte) (w : Session σ ω) :
    Option Exit → Session σ ω → Prop
  | notFound {gs : List (List Byte)} (hgs : ∀ g ∈ gs, wire.IsFrame g)
      (hskip : ∀ g ∈ gs, ¬call.Matches (.ofFrame g)) (hspan : span = gs.flatten) :
      VisitEnd call span rest w none (w.logAll (visits call w.position gs))
  | malformed {gs : List (List Byte)} {u : List Byte} {e : Exception}
      (hgs : ∀ g ∈ gs, wire.IsFrame g) (hspan : span = gs.flatten ++ u) (hu : u ≠ [])
      (herror : parseNUM u = .error e) :
      VisitEnd call span rest w (some (.threw e)) (w.logAll (visits call w.position gs))
  | callbackThrew {gs : List (List Byte)} {f u : List Byte}
      (hgs : ∀ g ∈ gs ++ [f], wire.IsFrame g) (hspan : span = (gs ++ [f]).flatten ++ u)
      (hthrows : ¬AlwaysReturns callbacks) :
      VisitEnd call span rest w (some (.threw .callbackError))
        (w.logAll (visits call w.position (gs ++ [f])))
  | found {gs : List (List Byte)} {f u : List Byte}
      (hgs : ∀ g ∈ gs ++ [f], wire.IsFrame g) (hskip : ∀ g ∈ gs, ¬call.Matches (.ofFrame g))
      (hmatch : call.Matches (.ofFrame f)) (hspan : span = (gs ++ [f]).flatten ++ u) :
      VisitEnd call span rest w (some .normal)
        (w.consumed (visits call w.position (gs ++ [f])) (gs ++ [f]).flatten (u ++ rest))

theorem VisitEnd.exists_of_none {call : UntilCall ω} {span rest : List Byte}
    {w w' : Session σ ω} (h : VisitEnd callbacks call span rest w none w') :
    ∃ gs : List (List Byte), (∀ g ∈ gs, wire.IsFrame g) ∧
      (∀ g ∈ gs, ¬call.Matches (.ofFrame g)) ∧ span = gs.flatten ∧
      w' = w.logAll (visits call w.position gs) := by
  cases h with
  | notFound hgs hskip hspan => exact ⟨_, hgs, hskip, hspan, rfl⟩

/-- The locals after the frames `gs` have been visited and `u` is left. -/
structure Visiting (call : UntilCall ω) (span : List Byte) (w : Session σ ω)
    (gs : List (List Byte)) (u : List Byte) (l : VisitLocals σ ω) : Prop where
  frames : ∀ g ∈ gs, wire.IsFrame g
  skip : ∀ g ∈ gs, ¬call.Matches (.ofFrame g)
  span_eq : span = gs.flatten ++ u
  numBegin : l.numBegin = gs.flatten.length
  /-- Both counters together give the stream position. -/
  counters : messageHeaderSize * l.totalNumParsedMessages + l.totalParsedArgumentBytes =
    gs.flatten.length
  session : l.session = w.logAll (visits call w.position gs)

theorem ofFrame_arguments_length {f : List Byte} (hf : wire.IsFrame f) :
    messageHeaderSize + (ParsedMessage.ofFrame f).arguments.length = f.length := by
  have hheader := hf.1
  rw [wire_header] at hheader
  rw [ParsedMessage.ofFrame, List.length_drop]
  omega

theorem Visiting.length {call : UntilCall ω} {span u : List Byte} {w : Session σ ω}
    {gs : List (List Byte)} {l : VisitLocals σ ω} (h : Visiting call span w gs u l) :
    span.length = l.numBegin + u.length := by
  rw [h.numBegin, h.span_eq, List.length_append]

theorem Visiting.position {call : UntilCall ω} {span u : List Byte} {w : Session σ ω}
    {gs : List (List Byte)} {l : VisitLocals σ ω} (h : Visiting call span w gs u l) :
    l.session.position = w.position := by
  rw [h.session, Session.logAll_position]

theorem Visiting.visited {call : UntilCall ω} {span u : List Byte} {w : Session σ ω}
    {gs : List (List Byte)} {l : VisitLocals σ ω} (h : Visiting call span w gs u l)
    (f : List Byte) :
    l.session.log (.visited (l.session.position + l.numBegin) (.ofFrame f)
        (call.handler (.ofFrame f))) =
      w.logAll (visits call w.position (gs ++ [f])) := by
  rw [h.position, h.numBegin, h.session, Session.logAll_log, visits_append]
  rfl

theorem Visiting.frames_append {call : UntilCall ω} {span u f : List Byte} {w : Session σ ω}
    {gs : List (List Byte)} {l : VisitLocals σ ω} (h : Visiting call span w gs u l)
    (hf : wire.IsFrame f) : ∀ g ∈ gs ++ [f], wire.IsFrame g := by
  intro g hg
  rcases List.mem_append.mp hg with hg | hg
  · exact h.frames g hg
  · rwa [List.mem_singleton.mp hg]

theorem Visiting.span_append {call : UntilCall ω} {span u f : List Byte} {w : Session σ ω}
    {gs : List (List Byte)} {l : VisitLocals σ ω} (h : Visiting call span w gs (f ++ u) l) :
    span = (gs ++ [f]).flatten ++ u := by
  rw [h.span_eq, List.flatten_append, List.flatten_singleton, List.append_assoc]

/-- The counters count the bytes of the messages visited. -/
theorem Visiting.counters_append {call : UntilCall ω} {span u f : List Byte}
    {w : Session σ ω} {gs : List (List Byte)} {l : VisitLocals σ ω}
    (h : Visiting call span w gs u l) (hf : wire.IsFrame f) :
    messageHeaderSize * (l.totalNumParsedMessages + 1) +
        (l.totalParsedArgumentBytes + (ParsedMessage.ofFrame f).arguments.length) =
      (gs ++ [f]).flatten.length := by
  have hargs := ofFrame_arguments_length hf
  have hcounters := h.counters
  rw [List.flatten_append, List.flatten_singleton, List.length_append, Nat.mul_add]
  omega

/-- The locals after a message that is skipped. -/
theorem Visiting.next {call : UntilCall ω} {span u f : List Byte} {w : Session σ ω}
    {gs : List (List Byte)} {l : VisitLocals σ ω} (h : Visiting call span w gs (f ++ u) l)
    (hf : wire.IsFrame f) (hskip : ¬call.Matches (.ofFrame f)) :
    Visiting call span w (gs ++ [f]) u
      { numBegin :=
          l.numBegin + (messageHeaderSize + (ParsedMessage.ofFrame f).arguments.length)
        totalNumParsedMessages := l.totalNumParsedMessages + 1
        totalParsedArgumentBytes :=
          l.totalParsedArgumentBytes + (ParsedMessage.ofFrame f).arguments.length
        session := w.logAll (visits call w.position (gs ++ [f])) } where
  frames := h.frames_append hf
  skip := by
    intro g hg
    rcases List.mem_append.mp hg with hg | hg
    · exact h.skip g hg
    · rwa [List.mem_singleton.mp hg]
  span_eq := h.span_append
  numBegin := by
    dsimp only
    rw [ofFrame_arguments_length hf, h.numBegin, List.flatten_append, List.flatten_singleton,
      List.length_append]
  counters := h.counters_append hf
  session := rfl

/-- One round visits the next frame, or ends the loop. -/
theorem visitNext_yields (hreenter : NeverReenters callbacks) {call : UntilCall ω}
    {span rest u : List Byte} {w : Session σ ω} {gs : List (List Byte)} {l : VisitLocals σ ω}
    (hbuff : w.client.recvBuff = span ++ rest) (h : Visiting call span w gs u l) :
    ∃ j, Yields
        (fun fuel => visitNext callbacks reenter call span.length w.resizes fuel l) j ∧
      j.Satisfies
        (fun l' => ∃ gs' u', Visiting call span w gs' u' l' ∧ u'.length < u.length)
        (fun r => VisitEnd callbacks call span rest w r.1 r.2) := by
  have hlength := h.length
  by_cases hu : u = []
  · subst hu
    rw [List.length_nil, Nat.add_zero] at hlength
    have hspan := h.span_eq
    rw [List.append_nil] at hspan
    refine ⟨.exit (none, l.session), ?_, ?_⟩
    · simp only [visitNext, if_pos hlength.symm]
      exact yields_some _
    · rw [h.session]
      exact .notFound h.frames h.skip hspan
  · have hpos := List.length_pos_of_ne_nil hu
    have hmore : l.numBegin ≠ span.length := by omega
    have hvalid : ¬(l.session.resizes ≠ w.resizes ∨
        l.session.client.recvBuff.length < span.length) := by
      simp [h.session, hbuff]
    have hunparsed : (l.session.client.recvBuff.take span.length).drop l.numBegin = u := by
      rw [h.session, Session.logAll_client, hbuff, List.take_left, h.numBegin, h.span_eq,
        List.drop_left]
    simp only [visitNext, if_neg hmore, if_neg hvalid, hunparsed]
    cases hparse : parseNUM u with
    | error e =>
        refine ⟨_, yields_some _, ?_⟩
        rw [h.session]
        exact .malformed h.frames h.span_eq hu hparse
    | ok msg =>
        obtain ⟨f, u', hf, rfl, rfl⟩ := exists_frame_of_parseNUM hparse
        have hspan := h.span_append
        have hframes := h.frames_append hf
        obtain ⟨exit, hhand, hexit⟩ := handOver_yields reenter hreenter
          (l.session.position + l.numBegin) (.ofFrame f) (call.handler (.ofFrame f)) l.session
        rw [h.visited f] at hhand
        have hfront : w.client.recvBuff = (gs ++ [f]).flatten ++ (u' ++ rest) := by
          rw [hbuff, hspan, List.append_assoc]
        dsimp only
        by_cases hmatch : call.Matches (.ofFrame f)
        · rw [UntilCall.handler, if_pos hmatch] at hhand
          simp only [if_pos hmatch]
          rcases hexit with rfl | ⟨rfl, hthrows⟩
          · refine ⟨.exit (some .normal, w.consumed (visits call w.position (gs ++ [f]))
              (gs ++ [f]).flatten (u' ++ rest)), hhand.bind_some ?_, ?_⟩
            · simp only [h.counters_append hf, Session.erase_logAll _ hfront]
              rfl
            · exact .found hframes h.skip hmatch hspan
          · exact ⟨_, hhand.bind_some rfl, .callbackThrew hframes hspan hthrows⟩
        · rw [UntilCall.handler, if_neg hmatch] at hhand
          simp only [if_neg hmatch]
          rcases hexit with rfl | ⟨rfl, hthrows⟩
          · refine ⟨_, hhand.bind_some rfl, gs ++ [f], u', h.next hf hmatch, ?_⟩
            have hne := List.length_pos_of_ne_nil hf.ne_nil
            rw [List.length_append]
            omega
          · exact ⟨_, hhand.bind_some rfl, .callbackThrew hframes hspan hthrows⟩

theorem visit_yields (hreenter : NeverReenters callbacks) (call : UntilCall ω)
    {span rest : List Byte} {w : Session σ ω} (hbuff : w.client.recvBuff = span ++ rest) :
    ∃ left w', Yields (fun fuel =>
        run (visitNext callbacks reenter call span.length w.resizes) fuel { session := w })
          (left, w') ∧
      VisitEnd callbacks call span rest w left w' := by
  let Inv : VisitLocals σ ω → Prop := fun l => ∃ gs u, Visiting call span w gs u l
  have hblock : ∀ l, Inv l → ∃ j,
      Yields (fun fuel => visitNext callbacks reenter call span.length w.resizes fuel l) j ∧
        j.Satisfies
          (fun l' => Inv l' ∧ span.length - l'.numBegin < span.length - l.numBegin)
          (fun r => VisitEnd callbacks call span rest w r.1 r.2) := by
    rintro l ⟨gs, u, h⟩
    obtain ⟨j, hj, hsat⟩ := visitNext_yields reenter hreenter hbuff h
    refine ⟨j, hj, ?_⟩
    cases j with
    | again l' =>
        obtain ⟨gs', u', h', hless⟩ := hsat
        have hlength := h.length
        have hlength' := h'.length
        exact ⟨⟨gs', u', h'⟩, by omega⟩
    | exit r => exact hsat
  have hstart : Inv { session := w } :=
    ⟨[], span, by simp, by simp, rfl, rfl, rfl, by simp [visits]⟩
  obtain ⟨⟨left, w'⟩, hleft, hend⟩ :=
    run_total (fun l => span.length - l.numBegin) hblock hstart
  exact ⟨left, w', hleft, hend⟩

end Visit

/-! ## One pass -/

section Pass

variable {callbacks : List (Event σ ω) → CallbackAction ω} {S : ServerStream σ}

theorem Session.recvMoreData_yields (S : ServerStream σ) (w : Session σ ω) :
    ∃ r c bytes, Yields (fun fuel => w.recvMoreData S.toHost fuel) (r, w.afterRead c) ∧
      Receives S w.client c bytes ∧
      (r = .ok () ∧ bytes ≠ [] ∧ ¬FilledToEof S w.client ∧ Refills S.toHost w.client c ∨
        r = .error eofException ∧ c.pending S = [] ∧ FilledToEof S w.client) := by
  obtain ⟨⟨r, c⟩, hrecv⟩ := recvMoreData_ends (S := S) w.client
  obtain ⟨fuel, hfuel⟩ := hrecv.exists_fuel
  obtain ⟨bytes, hreceives, hend⟩ := recvMoreData_receives hfuel
  refine ⟨r, c, bytes, hrecv.bind_some rfl, hreceives, ?_⟩
  rcases hend with ⟨rfl, hne, hfilled⟩ | hend
  · exact Or.inl ⟨rfl, hne, hfilled, recvMoreData_reads hfuel⟩
  · exact Or.inr hend

variable (callbacks S) in
/-- How a pass that begins in the session `w` ends. -/
inductive Pass (call : UntilCall ω) (w : Session σ ω) :
    Jump (Session σ ω) (Exit × Session σ ω) → Prop
  | left {span rest : List Byte} {exit : Exit} {w' : Session σ ω}
      (hscan : Scan w.client.recvBuff span rest)
      (hvisit : VisitEnd callbacks call span rest w (some exit) w') :
      Pass call w (.exit (exit, w'))
  | eof {gs : List (List Byte)} {rest bytes : List Byte} {c : ConnectedClient σ}
      (hgs : ∀ g ∈ gs, wire.IsFrame g) (hskip : ∀ g ∈ gs, ¬call.Matches (.ofFrame g))
      (hscan : Scan w.client.recvBuff gs.flatten rest)
      (hreceives : Receives S { w.client with recvBuff := rest } c bytes)
      (hpending : c.pending S = [])
      (hfilled : FilledToEof S { w.client with recvBuff := rest }) :
      Pass call w (.exit (.threw eofException,
        (w.consumed (visits call w.position gs) gs.flatten rest).afterRead c))
  | again {gs : List (List Byte)} {rest bytes : List Byte} {c : ConnectedClient σ}
      (hgs : ∀ g ∈ gs, wire.IsFrame g) (hskip : ∀ g ∈ gs, ¬call.Matches (.ofFrame g))
      (hscan : Scan w.client.recvBuff gs.flatten rest)
      (hreceives : Receives S { w.client with recvBuff := rest } c bytes)
      (hne : bytes ≠ []) (hfilled : ¬FilledToEof S { w.client with recvBuff := rest })
      (hrefills : Refills S.toHost { w.client with recvBuff := rest } c) :
      Pass call w (.again ((w.consumed (visits call w.position gs) gs.flatten rest).afterRead c))

theorem tryAgain_yields (reenter : UntilCall ω → Session σ ω → Option (Exit × Session σ ω))
    (hreenter : NeverReenters callbacks) (call : UntilCall ω) {w : Session σ ω}
    (hscan : Ends fun fuel => getRecdBytesFormingWholeMessages fuel w.client.recvBuff) :
    ∃ j, Yields (fun fuel => tryAgain callbacks reenter call S.toHost fuel w) j ∧
      Pass callbacks S call w j := by
  obtain ⟨span, hspan⟩ := hscan
  obtain ⟨fuel, hfuel⟩ := hspan.exists_fuel
  obtain ⟨rest, hscan⟩ := getRecdBytes_spec hfuel
  obtain ⟨left, w', hvisit, hend⟩ := visit_yields reenter hreenter call hscan.split
  cases left with
  | some exit =>
      refine ⟨.exit (exit, w'), ?_, .left hscan hend⟩
      refine hspan.bind ?_
      refine hvisit.bind ?_
      exact yields_some _
  | none =>
      obtain ⟨gs, hgs, hskip, rfl, hw'⟩ := hend.exists_of_none
      have herase : w'.erase gs.flatten.length =
          (.normal, w.consumed (visits call w.position gs) gs.flatten rest) := by
        rw [hw']
        exact Session.erase_logAll _ hscan.split
      obtain ⟨r, c, bytes, hread, hreceives, hend⟩ := Session.recvMoreData_yields S
        (w.consumed (visits call w.position gs) gs.flatten rest)
      rcases hend with ⟨rfl, hne, hfilled, hrefills⟩ | ⟨rfl, hpending, hfilled⟩
      · refine ⟨_, ?_, .again hgs hskip hscan hreceives hne hfilled hrefills⟩
        refine hspan.bind ?_
        refine hvisit.bind ?_
        simp only [herase]
        exact hread.bind_some rfl
      · refine ⟨_, ?_, .eof hgs hskip hscan hreceives hpending hfilled⟩
        refine hspan.bind ?_
        refine hvisit.bind ?_
        simp only [herase]
        exact hread.bind_some rfl

/-! ## The loop over passes -/

/-- Which `until` is called from a callback does not matter if none is. -/
theorem tryAgain_reenter (hreenter : NeverReenters callbacks)
    (reenter reenter' : UntilCall ω → Session σ ω → Option (Exit × Session σ ω))
    (call : UntilCall ω) (host : Host σ) :
    tryAgain callbacks reenter call host = tryAgain callbacks reenter' call host := by
  have hstep : callbackStep callbacks reenter = callbackStep callbacks reenter' := by
    funext w
    cases haction : callbacks w.trace with
    | returns => simp only [callbackStep, haction]
    | throws => simp only [callbackStep, haction]
    | callsUntil call => exact absurd haction (hreenter w.trace call)
  have hinvoke : invoke callbacks reenter = invoke callbacks reenter' := by
    funext fuel w
    rw [invoke, invoke, hstep]
  have hhand : handOver callbacks reenter = handOver callbacks reenter' := by
    funext fuel position msg handler w
    cases handler <;> simp only [handOver, hinvoke]
  have hvisit : visitNext callbacks reenter call = visitNext callbacks reenter' call := by
    funext spanSize resizes fuel l
    simp only [visitNext, hhand]
  funext fuel w
  simp only [tryAgain, hvisit]

/-- An invariant of the passes from which every scan ends gives total
correctness of `until`: every further pass needs bytes from a finite stream. -/
theorem recvisClosureUntil_total (hreenter : NeverReenters callbacks) {call : UntilCall ω}
    {Inv : Session σ ω → Prop} {Post : Exit × Session σ ω → Prop}
    (hscan : ∀ w, Inv w →
      Ends fun fuel => getRecdBytesFormingWholeMessages fuel w.client.recvBuff)
    (hpass : ∀ w j, Inv w → Pass callbacks S call w j → j.Satisfies Inv Post)
    {w : Session σ ω} (hw : Inv w) :
    ∃ r, Yields (fun fuel => recvisClosureUntil callbacks S.toHost fuel call w) r ∧ Post r := by
  have hblock : ∀ w, Inv w →
      ∃ j, Yields (fun fuel => tryAgain callbacks (fun _ _ => none) call S.toHost fuel w) j ∧
        j.Satisfies
          (fun w' => Inv w' ∧ (w'.client.pending S).length < (w.client.pending S).length)
          Post := by
    intro w hw
    obtain ⟨j, hj, hend⟩ := tryAgain_yields (fun _ _ => none) hreenter call (hscan w hw)
    have hsat := hpass w j hw hend
    refine ⟨j, hj, ?_⟩
    cases hend with
    | left => exact hsat
    | eof => exact hsat
    | again hgs hskip hscan hreceives hne hfilled =>
        have hlength := congrArg List.length hreceives.pending
        have hpos := List.length_pos_of_ne_nil hne
        rw [List.length_append] at hlength
        refine ⟨hsat, ?_⟩
        simp only [ConnectedClient.pending, Session.afterRead] at hlength ⊢
        omega
  obtain ⟨r, hr, hpost⟩ := run_total (fun w => (w.client.pending S).length) hblock hw
  refine ⟨r, Yields.shift ?_ rfl, hpost⟩
  simp only [recvisClosureUntil]
  simpa only [tryAgain_reenter hreenter _ (fun _ _ => none)] using hr

end Pass

end Waylander
