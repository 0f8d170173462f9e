import Waylander.Client.Runs

/-!
# Termination of the receiving calls

On an arbitrary stream every call moves along the walk given by the size
fields, so a scan can only get stuck on a zero size field that the walk over the
whole stream meets.  If there is one, a client that keeps receiving gets stuck
on it.
-/

namespace Waylander

open Goto

variable {σ ω : Type} {callbacks : List (Event σ ω) → CallbackAction ω} {S : ServerStream σ}

/-! ## Calls move along the walk -/

/-- The client has moved from `c` to `c'` along the walk over its stream. -/
def Moves (S : ServerStream σ) (c c' : ConnectedClient σ) : Prop :=
  wire.Reached (c.unconsumed S) (c'.unconsumed S)

theorem Moves.refl (c : ConnectedClient σ) : Moves S c c :=
  Relation.ReflTransGen.refl

theorem Moves.trans {c c₁ c₂ : ConnectedClient σ} (h : Moves S c c₁) (h' : Moves S c₁ c₂) :
    Moves S c c₂ :=
  Relation.ReflTransGen.trans h h'

theorem Receives.moves {c c' : ConnectedClient σ} {bytes : List Byte}
    (h : Receives S c c' bytes) : Moves S c c' := by
  rw [Moves, h.unconsumed]
  exact Relation.ReflTransGen.refl

/-- Erasing what was walked over. -/
theorem moves_erase {c : ConnectedClient σ} {rest : List Byte}
    (h : wire.Reached c.recvBuff rest) : Moves S c { c with recvBuff := rest } :=
  h.append (c.pending S)

theorem Act.moves {w w' : Session σ ω} (h : Act S w w') : Moves S w.client w'.client := by
  cases h with
  | read hreceives hne hfilled => exact hreceives.moves
  | parse hscan => exact moves_erase hscan.reached
  | visit hgs hbuff =>
      apply moves_erase
      rw [hbuff]
      exact Framing.reached_flatten hgs _

theorem Acts.moves {w w' : Session σ ω} (h : Acts S w w') : Moves S w.client w'.client := by
  induction h with
  | refl => exact .refl w.client
  | tail _ hact ih => exact ih.trans hact.moves

theorem CallEnd.moves {w : Session σ ω} {r : Exit × Session σ ω}
    (h : CallEnd callbacks S w r) : Moves S w.client r.2.client := by
  cases h with
  | normal hacts => exact hacts.moves
  | eof hacts hreceives hpending hfilled => exact hacts.moves.trans hreceives.moves
  | malformed hacts hscan hgs hspan hu herror => exact hacts.moves
  | callbackThrew hacts hgs hbuff hthrows => exact hacts.moves

/-! ## No zero size field -/

/-- The walk over the string meets no zero size field. -/
def NoZeroSize (stream : List Byte) : Prop :=
  ∀ c, wire.Reached stream c → messageHeaderSize ≤ c.length → sizeField c ≠ 0

theorem NoZeroSize.of_reached {stream c : List Byte} (h : NoZeroSize stream)
    (hc : wire.Reached stream c) : NoZeroSize c :=
  fun c' hc' => h c' (hc.trans hc')

theorem NoZeroSize.of_append {b r : List Byte} (h : NoZeroSize (b ++ r)) : NoZeroSize b := by
  intro c hc hheader
  have hsize := h (c ++ r) (hc.append r) (hheader.trans (by simp))
  rwa [show sizeField (c ++ r) = sizeField c from wire.size_append c r hheader] at hsize

theorem NoZeroSize.getRecdBytes_ends {c : ConnectedClient σ} (h : NoZeroSize (c.unconsumed S)) :
    Ends fun fuel => getRecdBytesFormingWholeMessages fuel c.recvBuff :=
  Waylander.getRecdBytes_ends h.of_append

/-- Every call ends. -/
theorem NoZeroSize.perform_yields (hreenter : NeverReenters callbacks) {w : Session σ ω}
    (h : NoZeroSize (w.client.unconsumed S)) (op : Op ω) :
    ∃ r, Yields (fun fuel => op.perform callbacks S.toHost fuel w) r ∧
      CallEnd callbacks S w r := by
  cases op with
  | recvMoreData =>
      obtain ⟨exit, c, bytes, hyields, hreceives, hend⟩ :=
        perform_recvMoreData_yields callbacks S w
      refine ⟨_, hyields, ?_⟩
      rcases hend with ⟨rfl, hne, hfilled⟩ | ⟨rfl, hpending, hfilled⟩
      · exact .normal (.single (.read hreceives hne hfilled))
      · exact .eof .refl hreceives hpending hfilled
  | recvEvents =>
      have hscan : ∀ c bytes, Receives S w.client c bytes →
          Ends fun fuel => getRecdBytesFormingWholeMessages fuel c.recvBuff := by
        intro c bytes hreceives
        exact (h.of_reached hreceives.moves).getRecdBytes_ends
      obtain ⟨r, hyields, hend⟩ := perform_recvEvents_yields callbacks hscan
      exact ⟨r, hyields, hend.acts⟩
  | untilCall call =>
      have hscan : ∀ w', Acts S w w' →
          Ends fun fuel => getRecdBytesFormingWholeMessages fuel w'.client.recvBuff :=
        fun w' hw' => (h.of_reached hw'.moves).getRecdBytes_ends
      have hpass : ∀ w' j, Acts S w w' → Pass callbacks S call w' j →
          j.Satisfies (Acts S w) (CallEnd callbacks S w) := by
        intro w' j hw' hend
        have hacts := hend.acts
        cases j with
        | again w₁ => exact hw'.trans hacts
        | exit r => exact .of_acts hw' hacts
      exact recvisClosureUntil_total hreenter hscan hpass .refl

theorem NoZeroSize.callEnd (hreenter : NeverReenters callbacks) {w w' : Session σ ω}
    (h : NoZeroSize (w.client.unconsumed S)) {op : Op ω} {exit : Exit}
    (hop : Performs callbacks S.toHost op w exit w') : CallEnd callbacks S w (exit, w') := by
  obtain ⟨fuel, hfuel⟩ := hop
  obtain ⟨r, hyields, hend⟩ := h.perform_yields hreenter op
  obtain rfl := hyields.eq_of_some hfuel
  exact hend

theorem NoZeroSize.moves (hreenter : NeverReenters callbacks) {allowed : Exit → Prop}
    {w₀ w : Session σ ω} (h : NoZeroSize (w₀.client.unconsumed S))
    (hw : Reachable callbacks S.toHost allowed w₀ w) : Moves S w₀.client w.client := by
  induction hw with
  | start => exact .refl w₀.client
  | step _ hop _ ih =>
      have hend := (h.of_reached ih).callEnd hreenter hop
      exact ih.trans hend.moves

/-! ## Receiving everything -/

variable (callbacks S) in
/-- Receiving again and again puts the whole stream into the buffer. -/
theorem exists_reachable_recvBuff (w₀ w : Session σ ω)
    (hw : Reachable callbacks S.toHost (fun _ => True) w₀ w) :
    ∃ w', Reachable callbacks S.toHost (fun _ => True) w₀ w' ∧
      w'.client.recvBuff = w.client.unconsumed S := by
  induction hn : (w.client.pending S).length using Nat.strongRecOn generalizing w with
  | ind n ih =>
      obtain ⟨exit, c, bytes, hyields, hreceives, hend⟩ := perform_recvMoreData_yields
        callbacks S w
      obtain ⟨fuel, hfuel⟩ := hyields.exists_fuel
      have hw' := hw.step ⟨fuel, hfuel⟩ trivial
      rcases hend with ⟨-, hne, -⟩ | ⟨-, hpending, -⟩
      · have hlength := congrArg List.length hreceives.pending
        have hpos := List.length_pos_of_ne_nil hne
        rw [List.length_append] at hlength
        obtain ⟨w₁, hw₁, hbuff⟩ := ih (c.pending S).length (by omega) (w.afterRead c) hw' rfl
        exact ⟨w₁, hw₁, hbuff.trans hreceives.unconsumed⟩
      · refine ⟨_, hw', ?_⟩
        have hbuff := hreceives.unconsumed
        rwa [ConnectedClient.unconsumed, hpending, List.append_nil] at hbuff

/-- With a server that closes after `S.pending server`, and callbacks that do not
call the client, the scan ends on every buffer that any calls lead to and every
further call ends, exactly if the walk over the stream meets no zero size
field. -/
theorem receiving_ends_iff (hreenter : NeverReenters callbacks) (server : σ) :
    (∀ w, Reachable callbacks S.toHost (fun _ => True) (.start server) w →
      Ends (fun fuel => getRecdBytesFormingWholeMessages fuel w.client.recvBuff) ∧
        ∀ op : Op ω, Ends fun fuel => op.perform callbacks S.toHost fuel w) ↔
      ∀ c, wire.Reached (S.pending server) c → messageHeaderSize ≤ c.length →
        sizeField c ≠ 0 := by
  have hstream : (Session.start server : Session σ ω).client.unconsumed S = S.pending server :=
    List.nil_append _
  constructor
  · intro hends c hreached hheader hzero
    obtain ⟨w, hw, hbuff⟩ := exists_reachable_recvBuff callbacks S (.start server)
      (.start server) .start
    rw [hstream] at hbuff
    have hscan := (hends w hw).1
    rw [hbuff] at hscan
    exact (getRecdBytes_diverges hreached hheader hzero).not_ends hscan
  · intro hzero w hw
    rw [← hstream] at hzero
    have hmoves := NoZeroSize.moves hreenter hzero hw
    have hrest := NoZeroSize.of_reached hzero hmoves
    refine ⟨hrest.getRecdBytes_ends, fun op => ?_⟩
    obtain ⟨r, hyields, -⟩ := hrest.perform_yields hreenter op
    exact ⟨r, hyields⟩

theorem receiving_ends_iff_one :
    (∀ w : Session (List Byte) Unit,
      Reachable (fun _ => .returns) (boundedServer 99).toHost (fun _ => True)
        (.start [1, 0, 0, 0, 0, 0, 8, 0]) w →
      Ends (fun fuel => getRecdBytesFormingWholeMessages fuel w.client.recvBuff) ∧
        ∀ op : Op Unit,
          Ends fun fuel => op.perform (fun _ => .returns) (boundedServer 99).toHost fuel w) ↔
      ∀ c, wire.Reached ((boundedServer 99).pending [1, 0, 0, 0, 0, 0, 8, 0]) c →
        messageHeaderSize ≤ c.length → sizeField c ≠ 0 :=
  receiving_ends_iff (AlwaysReturns.neverReenters fun _ => rfl) [1, 0, 0, 0, 0, 0, 8, 0]

/-- After one header whose size field is zero the client holds a buffer on which
the scan never ends. -/
theorem exists_reachable_scan_diverges :
    ∃ w : Session (List Byte) Unit,
      Reachable (fun _ => .returns) (boundedServer 99).toHost (fun _ => True)
        (.start [1, 0, 0, 0, 0, 0, 0, 0]) w ∧
      Diverges fun fuel => getRecdBytesFormingWholeMessages fuel w.client.recvBuff := by
  obtain ⟨w, hw, hbuff⟩ := exists_reachable_recvBuff (fun _ => .returns) (boundedServer 99)
    (.start [1, 0, 0, 0, 0, 0, 0, 0] : Session (List Byte) Unit) _ .start
  refine ⟨w, hw, ?_⟩
  rw [hbuff]
  exact getRecdBytes_diverges .refl (by decide) (by decide)

end Waylander
