import Waylander.Client.Conservation

/-!
# Dispatch by `until`

Let the stream consist of whole messages whose lengths are multiples of four.
A call of `until` from a message boundary invokes the overloads registered for
the messages before the first until message, then the until callback, and
leaves the buffer behind the until message.

A read never ends at a word boundary when it is filled, so such a stream cannot
end unnoticed in the middle of `recv_more_data`.
-/

namespace Waylander

open Goto

variable {σ ω : Type} {callbacks : List (Event σ ω) → CallbackAction ω} {S : ServerStream σ}
variable {fs done pre post : List (List Byte)} {f : List Byte} {call : UntilCall ω}

/-! ## Invocations -/

/-- A function object of the user is invoked with the arguments of a message. -/
inductive Invocation (ω : Type)
  | overload (ov : ω) (arguments : List Byte)
  | untilCallback (arguments : List Byte)

def Event.invocation : Event σ ω → Option (Invocation ω)
  | .visited _ msg (.overload ov) => some (.overload ov msg.arguments)
  | .visited _ msg .untilCallback => some (.untilCallback msg.arguments)
  | _ => none

def invocations (trace : List (Event σ ω)) : List (Invocation ω) :=
  trace.filterMap Event.invocation

theorem invocations_append (trace trace' : List (Event σ ω)) :
    invocations (trace ++ trace') = invocations trace ++ invocations trace' :=
  List.filterMap_append

/-- The invocation of the overload registered for a message, if there is one. -/
def UntilCall.registered (call : UntilCall ω) (msg : ParsedMessage) : Option (Invocation ω) :=
  (call.mos.overloadResolution msg.objectId msg.opcode).map (.overload · msg.arguments)

/-- The invocation of the until callback, if there is one. -/
def UntilCall.found (call : UntilCall ω) (msg : ParsedMessage) : List (Invocation ω) :=
  if call.callback then [.untilCallback msg.arguments] else []

theorem invocation_of_not_matches {msg : ParsedMessage} (h : ¬call.Matches msg)
    (position : ℕ) :
    (.visited position msg (call.handler msg) : Event σ ω).invocation =
      call.registered msg := by
  rw [UntilCall.handler, if_neg h, UntilCall.registered]
  cases call.mos.overloadResolution msg.objectId msg.opcode with
  | none => rfl
  | some ov => rfl

theorem invocations_visits (position : ℕ) {gs : List (List Byte)}
    (hgs : ∀ g ∈ gs, ¬call.Matches (.ofFrame g)) :
    invocations (visits call position gs : List (Event σ ω)) =
      (gs.map ParsedMessage.ofFrame).filterMap call.registered := by
  induction gs generalizing position with
  | nil => rfl
  | cons g gs ih =>
      have htail := ih (position + g.length) fun g' hg' => hgs g' (by simp [hg'])
      have hhead : (.visited position (.ofFrame g) (call.handler (.ofFrame g)) :
          Event σ ω).invocation = call.registered (.ofFrame g) :=
        invocation_of_not_matches (hgs g (by simp)) position
      rw [invocations] at htail ⊢
      rw [visits, List.filterMap_cons, hhead, htail, List.map_cons, List.filterMap_cons]

theorem invocations_visits_found (position : ℕ) (hmatch : call.Matches (.ofFrame f)) :
    invocations (visits call position [f] : List (Event σ ω)) = call.found (.ofFrame f) := by
  rw [UntilCall.found, visits, visits, UntilCall.handler, if_pos hmatch]
  by_cases hcallback : call.callback = true
  · rw [if_pos hcallback, if_pos hcallback]
    rfl
  · rw [if_neg hcallback, if_neg hcallback]
    rfl

/-! ## The first until message -/

/-- Elements among which there is no until message come before the first one. -/
theorem exists_eq_append_of_not_matches {gs hs : List (List Byte)}
    (h : pre ++ f :: post = gs ++ hs) (hmatch : call.Matches (.ofFrame f))
    (hgs : ∀ g ∈ gs, ¬call.Matches (.ofFrame g)) :
    ∃ rest, pre = gs ++ rest ∧ hs = rest ++ f :: post := by
  rcases List.append_eq_append_iff.mp h with ⟨s, rfl, hs'⟩ | ⟨s, rfl, rfl⟩
  · cases s with
    | nil => exact ⟨[], by simp, hs'.symm⟩
    | cons g s =>
        obtain ⟨rfl, -⟩ := List.cons_eq_cons.mp hs'
        exact absurd hmatch (hgs f (by simp))
  · exact ⟨s, rfl, rfl⟩

/-! ## Streams of words -/

/-- Filled reads do not end at a word boundary, so they do not end with a stream
of words. -/
theorem not_filledToEof {c : ConnectedClient σ} (hwords : 4 ∣ (c.unconsumed S).length)
    (hpending : c.pending S ≠ []) : ¬FilledToEof S c := by
  rintro ⟨c₁, hreads, hnil⟩
  obtain ⟨bytes, hreceives⟩ := hreads.receives
  have hbuff := hreceives.unconsumed
  rw [ConnectedClient.unconsumed, hnil, List.append_nil] at hbuff
  rcases Relation.ReflTransGen.cases_tail hreads with rfl | ⟨c₂, -, chunk, sock, -, hfilled, rfl⟩
  · exact hpending hnil
  · have hmod := add_askedBytes_mod c₂.recvBuff.length
    rw [← hbuff, ConnectedClient.extend, List.length_append, hfilled] at hwords
    exact hmod (Nat.mod_eq_zero_of_dvd hwords)

/-- A client that waits for a further message of a stream of words does not find
the end of the file. -/
theorem AtBoundary.not_filledToEof {rest : List (List Byte)} {c : ConnectedClient σ}
    (h : AtBoundary S fs [] c done (f :: rest)) (hfs : ∀ g ∈ fs, wire.IsFrame g)
    (hwords : ∀ g ∈ fs, 4 ∣ g.length) (hinc : wire.Incomplete c.recvBuff) :
    ¬FilledToEof S c := by
  have hunconsumed := h.unconsumed
  rw [List.append_nil] at hunconsumed
  apply Waylander.not_filledToEof
  · rw [hunconsumed]
    apply Framing.dvd_length_flatten
    intro g hg
    exact hwords g (by rw [h.frames]; simp [List.mem_append, hg])
  · intro hnil
    rw [ConnectedClient.unconsumed, hnil, List.append_nil] at hunconsumed
    rw [hunconsumed, List.flatten_cons] at hinc
    exact hinc.not_follows ((h.isFrame hfs f (by simp)).follows _)

/-! ## The passes -/

variable (S fs done pre post f call) in
/-- From the session `w` on, `until` has visited the first of the messages `pre`,
and the others are to come. -/
def Dispatching (w w' : Session σ ω) : Prop :=
  ∃ seen rest events, pre = seen ++ rest ∧
    AtBoundary S fs [] w'.client (done ++ seen) (rest ++ f :: post) ∧
    w'.trace = w.trace ++ events ∧
    invocations events = (seen.map ParsedMessage.ofFrame).filterMap call.registered

variable (S fs done pre post f call) in
/-- From the session `w` on, `until` has visited the messages `pre` and the until
message `f`. -/
def Dispatched (w : Session σ ω) (r : Exit × Session σ ω) : Prop :=
  r.1 = .normal ∧
    AtBoundary S fs [] r.2.client (done ++ pre ++ [f]) post ∧
    ∃ events, r.2.trace = w.trace ++ events ∧
      invocations events =
        (pre.map ParsedMessage.ofFrame).filterMap call.registered ++ call.found (.ofFrame f)

/-- Messages that are skipped are visited. -/
theorem Dispatching.consumed {w w₁ : Session σ ω} {gs : List (List Byte)} {r : List Byte}
    (h : Dispatching S fs done pre post f call w w₁) (hfs : ∀ g ∈ fs, wire.IsFrame g)
    (hmatch : call.Matches (.ofFrame f)) (hgs : ∀ g ∈ gs, wire.IsFrame g)
    (hskip : ∀ g ∈ gs, ¬call.Matches (.ofFrame g))
    (hbuff : w₁.client.recvBuff = gs.flatten ++ r) :
    Dispatching S fs done pre post f call w
      (w₁.consumed (visits call w₁.position gs) gs.flatten r) := by
  obtain ⟨seen, rest, events, rfl, hboundary, htrace, hevents⟩ := h
  obtain ⟨hs, heq, hboundary'⟩ := hboundary.erase hfs Framing.incomplete_nil hgs hbuff
  obtain ⟨rest, rfl, rfl⟩ := exists_eq_append_of_not_matches heq hmatch hskip
  refine ⟨seen ++ gs, rest, events ++ (visits call w₁.position gs ++
    [.erased gs.flatten.length (gs.flatten.length + r.length)]),
    (List.append_assoc seen gs rest).symm, ?_, ?_, ?_⟩
  · rw [← List.append_assoc]
    exact hboundary'
  · rw [Session.consumed, htrace, List.append_assoc]
  · rw [invocations_append, invocations_append, hevents, invocations_visits _ hskip,
      List.map_append, List.filterMap_append]
    exact congrArg _ (List.append_nil _)

/-- Receiving does not change what was visited. -/
theorem Dispatching.afterRead {w w₁ : Session σ ω} {c : ConnectedClient σ} {bytes : List Byte}
    (h : Dispatching S fs done pre post f call w w₁)
    (hreceives : Receives S w₁.client c bytes) :
    Dispatching S fs done pre post f call w (w₁.afterRead c) := by
  obtain ⟨seen, rest, events, hpre, hboundary, htrace, hevents⟩ := h
  refine ⟨seen, rest, events ++ [.reads w₁.client], hpre, hboundary.receives hreceives, ?_, ?_⟩
  · rw [← List.append_assoc, ← htrace]
    rfl
  · rw [invocations_append, hevents]
    exact List.append_nil _

/-- While the until message is to come, the end of the file is not found. -/
theorem Dispatching.not_filledToEof {w w₁ : Session σ ω}
    (h : Dispatching S fs done pre post f call w w₁) (hfs : ∀ g ∈ fs, wire.IsFrame g)
    (hwords : ∀ g ∈ fs, 4 ∣ g.length) (hinc : wire.Incomplete w₁.client.recvBuff) :
    ¬FilledToEof S w₁.client := by
  obtain ⟨seen, rest, events, -, hboundary, -⟩ := h
  cases rest with
  | nil => exact hboundary.not_filledToEof hfs hwords hinc
  | cons g rest => exact hboundary.not_filledToEof hfs hwords hinc

/-- A pass that finds a message to wait for has found the first one. -/
theorem Dispatching.found {w w₁ : Session σ ω} {gs : List (List Byte)} {g r : List Byte}
    (h : Dispatching S fs done pre post f call w w₁) (hfs : ∀ g ∈ fs, wire.IsFrame g)
    (hpre : ∀ g ∈ pre, ¬call.Matches (.ofFrame g)) (hmatch : call.Matches (.ofFrame f))
    (hgs : ∀ h ∈ gs ++ [g], wire.IsFrame h) (hskip : ∀ g ∈ gs, ¬call.Matches (.ofFrame g))
    (hfound : call.Matches (.ofFrame g))
    (hbuff : w₁.client.recvBuff = (gs ++ [g]).flatten ++ r) :
    Dispatched S fs done pre post f call w
      (.normal, w₁.consumed (visits call w₁.position (gs ++ [g])) (gs ++ [g]).flatten r) := by
  obtain ⟨seen, rest, events, rfl, hboundary, htrace, hevents⟩ := h
  obtain ⟨hs, heq, hboundary'⟩ := hboundary.erase hfs Framing.incomplete_nil hgs hbuff
  rw [List.append_assoc] at heq
  obtain ⟨rest, rfl, hrest⟩ := exists_eq_append_of_not_matches heq hmatch hskip
  cases rest with
  | cons g' rest =>
      obtain ⟨rfl, -⟩ := List.cons_eq_cons.mp hrest
      exact absurd hfound (hpre g (by simp))
  | nil =>
      obtain ⟨rfl, rfl⟩ := List.cons_eq_cons.mp hrest
      refine ⟨rfl, ?_, events ++ (visits call w₁.position (gs ++ [g]) ++
        [.erased (gs ++ [g]).flatten.length ((gs ++ [g]).flatten.length + r.length)]), ?_, ?_⟩
      · have hdone : done ++ (seen ++ (gs ++ [])) ++ [g] = done ++ seen ++ (gs ++ [g]) := by
          simp
        rw [hdone]
        exact hboundary'
      · rw [Session.consumed, htrace, List.append_assoc]
      · rw [invocations_append, invocations_append, hevents, visits_append, invocations_append,
          invocations_visits _ hskip, invocations_visits_found _ hmatch, List.append_nil,
          List.map_append, List.filterMap_append, List.append_assoc, List.append_assoc]
        exact congrArg _ (congrArg _ (List.append_nil _))

theorem Dispatching.pass (hreturns : AlwaysReturns callbacks) {w w₁ : Session σ ω}
    {j : Jump (Session σ ω) (Exit × Session σ ω)}
    (h : Dispatching S fs done pre post f call w w₁) (hfs : ∀ g ∈ fs, wire.IsFrame g)
    (hwords : ∀ g ∈ fs, 4 ∣ g.length) (hpre : ∀ g ∈ pre, ¬call.Matches (.ofFrame g))
    (hmatch : call.Matches (.ofFrame f)) (hpass : Pass callbacks S call w₁ j) :
    j.Satisfies (Dispatching S fs done pre post f call w)
      (Dispatched S fs done pre post f call w) := by
  cases hpass with
  | @left span rest exit w' hscan hvisit =>
      cases hvisit with
      | malformed hgs hspan hu herror =>
          obtain ⟨_, _, _, -, hboundary, -⟩ := h
          exact absurd herror (hscan.parseNUM_ne_error (hboundary.isFrame hfs)
            Framing.incomplete_nil hboundary.unconsumed hgs hspan hu)
      | callbackThrew hgs hspan hthrows => exact absurd hreturns hthrows
      | @found gs g u hgs hskip hfound hspan =>
          have hbuff : w₁.client.recvBuff = (gs ++ [g]).flatten ++ (u ++ rest) := by
            rw [hscan.split, hspan, List.append_assoc]
          exact h.found hfs hpre hmatch hgs hskip hfound hbuff
  | eof hgs hskip hscan hreceives hpending hfilled =>
      have hconsumed := h.consumed hfs hmatch hgs hskip hscan.split
      exact absurd hfilled (hconsumed.not_filledToEof hfs hwords hscan.incomplete)
  | again hgs hskip hscan hreceives =>
      exact (h.consumed hfs hmatch hgs hskip hscan.split).afterRead hreceives

/-- Called at a message boundary of a stream of words in which an until message is to
come, `until` returns.  It has invoked the overloads registered for the messages
before the first until message, in the order of the stream, and then the until
callback, and the buffer holds what was received behind the until message. -/
theorem recvisClosureUntil_dispatches (hreturns : AlwaysReturns callbacks)
    (hfs : ∀ g ∈ fs, wire.IsFrame g) (hwords : ∀ g ∈ fs, 4 ∣ g.length)
    (hpre : ∀ g ∈ pre, ¬call.Matches (.ofFrame g)) (hmatch : call.Matches (.ofFrame f))
    {w : Session σ ω} (hw : AtBoundary S fs [] w.client done (pre ++ f :: post)) :
    ∃ w' events,
      Yields (fun fuel => recvisClosureUntil callbacks S.toHost fuel call w) (.normal, w') ∧
        w'.trace = w.trace ++ events ∧
        invocations events =
          (pre.map ParsedMessage.ofFrame).filterMap call.registered ++
            call.found (.ofFrame f) ∧
        AtBoundary S fs [] w'.client (done ++ pre ++ [f]) post := by
  have hscan : ∀ w₁, Dispatching S fs done pre post f call w w₁ →
      Ends fun fuel => getRecdBytesFormingWholeMessages fuel w₁.client.recvBuff := by
    rintro w₁ ⟨_, _, _, -, hboundary, -⟩
    exact (hboundary.noZeroSize hfs Framing.incomplete_nil).getRecdBytes_ends
  have hstart : Dispatching S fs done pre post f call w w := by
    refine ⟨[], pre, [], rfl, ?_, (List.append_nil _).symm, rfl⟩
    rw [List.append_nil]
    exact hw
  obtain ⟨⟨exit, w'⟩, hyields, hexit, hboundary, events, htrace, hevents⟩ :=
    recvisClosureUntil_total hreturns.neverReenters hscan
      (fun _ _ h hpass => h.pass hreturns hfs hwords hpre hmatch hpass) hstart
  obtain rfl : exit = .normal := hexit
  exact ⟨w', events, hyields, htrace, hevents, hboundary⟩

/-- Wait for an event of object 2 whose opcode is 0, with an overload for the event
of object 1 whose opcode is 0. -/
theorem recvisClosureUntil_dispatches_one :
    let f : List Byte := [1, 0, 0, 0, 0, 0, 8, 0]
    let g : List Byte := [2, 0, 0, 0, 0, 0, 8, 0]
    let call : UntilCall Unit :=
      { mos := (MessageOverloadSet.empty.addOverload 1 0 ()).2
        untilObjId := 2
        untilOpcode := 0
        callback := true }
    ∃ (w' : Session (List Byte) Unit) (events : List (Event (List Byte) Unit)),
      Yields (fun fuel => recvisClosureUntil (fun _ => .returns) (boundedServer 2).toHost fuel
          call (.start (f ++ g ++ f))) (.normal, w') ∧
        w'.trace = [] ++ events ∧
        invocations events =
          ([f].map ParsedMessage.ofFrame).filterMap call.registered ++
            call.found (.ofFrame g) ∧
        AtBoundary (boundedServer 2) [f, g, f] [] w'.client ([] ++ [f] ++ [g]) [f] := by
  intro f g call
  exact recvisClosureUntil_dispatches (fun _ => rfl) (by decide) (by decide) (by decide)
    (by decide) (atBoundary_connect rfl)

end Waylander
