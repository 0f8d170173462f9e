import Waylander.Client.Visit

/-!
# Runs of a client

Sequences of `recv_more_data`, `recv_events` and `until` calls on one client.
Unless a callback calls the client, every call is a sequence of acts of three
kinds, reading, parsing and visiting, after which it returns or throws.  An
invariant of runs is shown for these acts.
-/

namespace Waylander

open Goto

variable {σ ω : Type}

/-- A member function of the client that receives. -/
inductive Op (ω : Type)
  | recvMoreData
  | recvEvents
  | untilCall (call : UntilCall ω)

def Exit.ofExcept {α : Type} : Except Exception α → Exit
  | .ok _ => .normal
  | .error e => .threw e

/-- Call a member function. -/
def Op.perform (callbacks : List (Event σ ω) → CallbackAction ω) (host : Host σ) (fuel : ℕ)
    (w : Session σ ω) : Op ω → Option (Exit × Session σ ω)
  | .recvMoreData => do
      let (r, w) ← w.recvMoreData host fuel
      return (.ofExcept r, w)
  | .recvEvents => do
      let (r, c) ← Waylander.recvEvents host fuel w.client
      match r with
      | .error e => return (.threw e, w.afterRead c)
      | .ok parser => return (.normal, (w.afterRead c).log (.parsed parser))
  | .untilCall call => recvisClosureUntil callbacks host fuel call w

/-- The call ends, in the given way. -/
def Performs (callbacks : List (Event σ ω) → CallbackAction ω) (host : Host σ) (op : Op ω)
    (w : Session σ ω) (exit : Exit) (w' : Session σ ω) : Prop :=
  ∃ fuel, op.perform callbacks host fuel w = some (exit, w')

/-- Sessions after any number of calls from `w₀` that exited in an allowed
way. -/
inductive Reachable (callbacks : List (Event σ ω) → CallbackAction ω) (host : Host σ)
    (allowed : Exit → Prop) (w₀ : Session σ ω) : Session σ ω → Prop
  | start : Reachable callbacks host allowed w₀ w₀
  | step {w w' : Session σ ω} {op : Op ω} {exit : Exit}
      (hw : Reachable callbacks host allowed w₀ w)
      (hop : Performs callbacks host op w exit w') (hexit : allowed exit) :
      Reachable callbacks host allowed w₀ w'

section Specification

variable {callbacks : List (Event σ ω) → CallbackAction ω} {S : ServerStream σ}

theorem perform_recvMoreData_yields (callbacks : List (Event σ ω) → CallbackAction ω)
    (S : ServerStream σ) (w : Session σ ω) :
    ∃ exit c bytes, Yields (fun fuel => Op.recvMoreData.perform callbacks S.toHost fuel w)
        (exit, w.afterRead c) ∧
      Receives S w.client c bytes ∧
      (exit = .normal ∧ bytes ≠ [] ∧ ¬FilledToEof S w.client ∨
        exit = .threw eofException ∧ c.pending S = [] ∧ FilledToEof S w.client) := by
  obtain ⟨r, c, bytes, hrecv, hreceives, hend⟩ := Session.recvMoreData_yields S w
  refine ⟨.ofExcept r, c, bytes, hrecv.bind_some rfl, hreceives, ?_⟩
  rcases hend with ⟨rfl, hne, hfilled, -⟩ | ⟨rfl, h⟩
  · exact Or.inl ⟨rfl, hne, hfilled⟩
  · exact Or.inr ⟨rfl, h⟩

variable (S) in
/-- How `recv_events` ends in the session `w`. -/
inductive EventsEnd (w : Session σ ω) : Exit × Session σ ω → Prop
  | eof {c : ConnectedClient σ} {bytes : List Byte} (hreceives : Receives S w.client c bytes)
      (hpending : c.pending S = []) (hfilled : FilledToEof S w.client) :
      EventsEnd w (.threw eofException, w.afterRead c)
  | parsed {c : ConnectedClient σ} {bytes span rest : List Byte}
      (hreceives : Receives S w.client c bytes) (hne : bytes ≠ [])
      (hfilled : ¬FilledToEof S w.client) (hscan : Scan c.recvBuff span rest) :
      EventsEnd w (.normal, (w.afterRead { c with recvBuff := rest }).log
        (.parsed { unparsedMessages := span }))

theorem perform_recvEvents_yields (callbacks : List (Event σ ω) → CallbackAction ω)
    {w : Session σ ω}
    (hscan : ∀ c bytes, Receives S w.client c bytes →
      Ends fun fuel => getRecdBytesFormingWholeMessages fuel c.recvBuff) :
    ∃ r, Yields (fun fuel => Op.recvEvents.perform callbacks S.toHost fuel w) r ∧
      EventsEnd S w r := by
  obtain ⟨⟨r, c⟩, hrecv⟩ := recvMoreData_ends (S := S) w.client
  obtain ⟨fuel, hfuel⟩ := hrecv.exists_fuel
  obtain ⟨bytes, hreceives, hend⟩ := recvMoreData_receives hfuel
  rcases hend with ⟨rfl, hne, hfilled⟩ | ⟨rfl, hpending, hfilled⟩
  · obtain ⟨span, hspan⟩ := hscan c bytes hreceives
    obtain ⟨fuel', hfuel'⟩ := hspan.exists_fuel
    obtain ⟨rest, hscan⟩ := getRecdBytes_spec hfuel'
    refine ⟨_, ?_, .parsed hreceives hne hfilled hscan⟩
    have hdrop : c.recvBuff.drop span.length = rest := by
      rw [hscan.split, List.drop_left]
    have hevents : Yields (fun fuel => recvEvents S.toHost fuel w.client)
        (.ok { unparsedMessages := span }, { c with recvBuff := rest }) := by
      refine hrecv.bind ?_
      refine hspan.bind_some ?_
      rw [hdrop]
      rfl
    exact hevents.bind_some rfl
  · refine ⟨_, ?_, .eof hreceives hpending hfilled⟩
    have hevents : Yields (fun fuel => recvEvents S.toHost fuel w.client)
        (.error eofException, c) := by
      refine hrecv.bind ?_
      exact yields_some _
    exact hevents.bind_some rfl

/-! ## Calls as sequences of acts -/

variable (S) in
/-- What calls are composed of. -/
inductive Act (w : Session σ ω) : Session σ ω → Prop
  | read {c : ConnectedClient σ} {bytes : List Byte} (hreceives : Receives S w.client c bytes)
      (hne : bytes ≠ []) (hfilled : ¬FilledToEof S w.client) : Act w (w.afterRead c)
  | parse {span rest : List Byte} (hscan : Scan w.client.recvBuff span rest) :
      Act w (({ w with client := { w.client with recvBuff := rest } }).log
        (.parsed { unparsedMessages := span }))
  | visit {call : UntilCall ω} {gs : List (List Byte)} {rest : List Byte}
      (hgs : ∀ g ∈ gs, wire.IsFrame g) (hbuff : w.client.recvBuff = gs.flatten ++ rest) :
      Act w (w.consumed (visits call w.position gs) gs.flatten rest)

variable (S) in
def Acts : Session σ ω → Session σ ω → Prop :=
  Relation.ReflTransGen (Act S)

variable (callbacks S) in
/-- How a call in the session `w` ends. -/
inductive CallEnd (w : Session σ ω) : Exit × Session σ ω → Prop
  | normal {w' : Session σ ω} (hacts : Acts S w w') : CallEnd w (.normal, w')
  | eof {w₁ : Session σ ω} {c : ConnectedClient σ} {bytes : List Byte} (hacts : Acts S w w₁)
      (hreceives : Receives S w₁.client c bytes) (hpending : c.pending S = [])
      (hfilled : FilledToEof S w₁.client) : CallEnd w (.threw eofException, w₁.afterRead c)
  | malformed {w₁ : Session σ ω} {call : UntilCall ω} {gs : List (List Byte)}
      {span rest u : List Byte} {e : Exception} (hacts : Acts S w w₁)
      (hscan : Scan w₁.client.recvBuff span rest) (hgs : ∀ g ∈ gs, wire.IsFrame g)
      (hspan : span = gs.flatten ++ u) (hu : u ≠ []) (herror : parseNUM u = .error e) :
      CallEnd w (.threw e, w₁.logAll (visits call w₁.position gs))
  | callbackThrew {w₁ : Session σ ω} {call : UntilCall ω} {gs : List (List Byte)}
      {rest : List Byte} (hacts : Acts S w w₁) (hgs : ∀ g ∈ gs, wire.IsFrame g)
      (hbuff : w₁.client.recvBuff = gs.flatten ++ rest) (hthrows : ¬AlwaysReturns callbacks) :
      CallEnd w (.threw .callbackError, w₁.logAll (visits call w₁.position gs))

theorem CallEnd.of_acts {w w₁ : Session σ ω} {r : Exit × Session σ ω} (h : Acts S w w₁)
    (h' : CallEnd callbacks S w₁ r) : CallEnd callbacks S w r := by
  cases h' with
  | normal hacts => exact .normal (h.trans hacts)
  | eof hacts hreceives hpending hfilled => exact .eof (h.trans hacts) hreceives hpending hfilled
  | malformed hacts hscan hgs hspan hu herror =>
      exact .malformed (h.trans hacts) hscan hgs hspan hu herror
  | callbackThrew hacts hgs hbuff hthrows => exact .callbackThrew (h.trans hacts) hgs hbuff hthrows

theorem Pass.acts {call : UntilCall ω} {w : Session σ ω}
    {j : Jump (Session σ ω) (Exit × Session σ ω)} (h : Pass callbacks S call w j) :
    j.Satisfies (Acts S w) (CallEnd callbacks S w) := by
  cases h with
  | @left span rest exit w' hscan hvisit =>
      cases hvisit with
      | malformed hgs hspan hu herror => exact .malformed .refl hscan hgs hspan hu herror
      | @callbackThrew gs f u hgs hspan hthrows =>
          have hbuff : w.client.recvBuff = (gs ++ [f]).flatten ++ (u ++ rest) := by
            rw [hscan.split, hspan, List.append_assoc]
          exact .callbackThrew .refl hgs hbuff hthrows
      | @found gs f u hgs hskip hmatch hspan =>
          have hbuff : w.client.recvBuff = (gs ++ [f]).flatten ++ (u ++ rest) := by
            rw [hscan.split, hspan, List.append_assoc]
          exact .normal (.single (.visit hgs hbuff))
  | eof hgs hskip hscan hreceives hpending hfilled =>
      exact .eof (.single (.visit hgs hscan.split)) hreceives hpending hfilled
  | again hgs hskip hscan hreceives hne hfilled =>
      exact .tail (.single (.visit hgs hscan.split)) (.read hreceives hne hfilled)

theorem EventsEnd.acts {w : Session σ ω} {r : Exit × Session σ ω} (h : EventsEnd S w r) :
    CallEnd callbacks S w r := by
  cases h with
  | eof hreceives hpending hfilled => exact .eof .refl hreceives hpending hfilled
  | parsed hreceives hne hfilled hscan =>
      exact .normal (.tail (.single (.read hreceives hne hfilled)) (.parse hscan))

end Specification

end Waylander
