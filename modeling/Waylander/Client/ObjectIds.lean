import Mathlib.Data.List.Pairwise
import Waylander.Client.Flush
import Waylander.Client.Invariants

/-!
# Object ids

`next_new_id_` is a 32-bit counter that starts at 2, behind the null object and
the display, and that nothing but `reserve_object_id` changes.  The ids that a
run reserves are therefore the numbers from 2 on, reduced to 32 bits.

The ids from `0xff000000` on are the server's.
-/

namespace Waylander

open Fallible Goto

variable {σ ω : Type}

/-! ## Reserving -/

/-- The object that no id names. -/
def nullObject : Wobject := 0

def globalDisplayObject : Wobject := 1

def reserveObjectId (c : ConnectedClient σ) : Wobject × ConnectedClient σ :=
  (c.nextNewId, { c with nextNewId := c.nextNewId + 1 })

/-- `Wobject<T>::reserve_id`: the new value of the object, and the client. -/
def reserveId (client : ConnectedClient σ) : Wobject × ConnectedClient σ :=
  reserveObjectId client

/-- A call of a member function of the client: the ids that it returns, and the
client afterwards. -/
inductive ClientStep : ConnectedClient σ → List Wobject → ConnectedClient σ → Prop
  | reserveObjectId (c : ConnectedClient σ) :
      ClientStep c [(reserveObjectId c).1] (reserveObjectId c).2
  | reserveId (c : ConnectedClient σ) : ClientStep c [(reserveId c).1] (reserveId c).2
  | registerRequest {c c' : ConnectedClient σ} {build : Build} {stale : ℕ → Byte}
      {obj : Wobject} {msg : Message}
      (hcall : registerRequest build stale obj msg c = .ok c') : ClientStep c [] c'
  | flush (sender : Sender σ) (o : Outgoing σ) :
      ClientStep o.client [] (flushRegisteredRequests sender o).2.client
  | receive {ω : Type} {callbacks : List (Event σ ω) → CallbackAction ω} {host : Host σ}
      {op : Op ω} {w w' : Session σ ω} {exit : Exit}
      (hcall : Performs callbacks host op w exit w') : ClientStep w.client [] w'.client

/-- Any number of calls: the ids reserved, in order. -/
inductive ClientRun (c₀ : ConnectedClient σ) : List Wobject → ConnectedClient σ → Prop
  | start : ClientRun c₀ [] c₀
  | step {ids ids' : List Wobject} {c c' : ConnectedClient σ} (hrun : ClientRun c₀ ids c)
      (hstep : ClientStep c ids' c') : ClientRun c₀ (ids ++ ids') c'

/-- What the protocol asks of the ids that a client chooses. -/
structure FreshAndLegal (ids : List Wobject) : Prop where
  distinct : ids.Nodup
  increasing : ids.Pairwise (· < ·)
  ne_null : nullObject ∉ ids
  ne_display : globalDisplayObject ∉ ids
  inClientRange : ∀ id ∈ ids, 2 ≤ id.toNat ∧ id.toNat ≤ 0xfeffffff

/-! ## Everything else leaves the counter alone -/

theorem recvMoreData_nextNewId {host : Host σ} {fuel : ℕ} {c c' : ConnectedClient σ}
    {r : Except Exception Unit} (h : recvMoreData host fuel c = some (r, c')) :
    c'.nextNewId = c.nextNewId := by
  have hblock : ∀ (_ : ℕ) (l : ConnectedClient σ × ℕ) j, l.1.nextNewId = c.nextNewId →
      some (readAgain host l.1 l.2) = some j →
        j.Satisfies (fun l => l.1.nextNewId = c.nextNewId)
          fun r => r.2.nextNewId = c.nextNewId := by
    intro _ l j hl hj
    obtain rfl := Option.some.inj hj
    simp only [readAgain]
    generalize (if (l.2 + recvBlockSize) % 4 = 0 then 1 else 0) = pad
    split
    · exact hl
    · split
      · exact hl
      · split
        · exact hl
        · exact hl
  exact run_invariant hblock rfl h

theorem kept_nextNewId (host : Host σ) (n : BitVec 32) :
    Kept host (fun w : Session σ ω => w.client.nextNewId = n) where
  visited := fun _ hw _ _ _ => hw
  returned := fun _ hw => hw
  erased := by
    intro w count hw
    by_cases hheld : count ≤ w.client.recvBuff.length
    · rw [Session.erase, if_pos hheld]
      exact hw
    · rw [Session.erase, if_neg hheld]
      exact hw
  read := fun hw hrecv => (recvMoreData_nextNewId hrecv).trans hw
  parsed := fun hw _ => hw

theorem sendFds_nextNewId (sender : Sender σ) (data : List Byte) (fds : List Wfd)
    (bytesWritten : ℕ) (o : Outgoing σ) :
    (sendFds sender data fds bytesWritten o).2.client.nextNewId = o.client.nextNewId := by
  induction fds generalizing bytesWritten o with
  | nil => rfl
  | cons fd fds ih =>
      rw [sendFds, Outgoing.send]
      split
      · split
        · rename_i hsend
          split at hsend
          · obtain ⟨-, rfl⟩ := Prod.mk.inj hsend
            rw [ih]
            rfl
          · exact absurd (Prod.mk.inj hsend).1 (by simp)
        · rename_i hsend
          split at hsend
          · exact absurd (Prod.mk.inj hsend).1 (by simp)
          · obtain ⟨-, rfl⟩ := Prod.mk.inj hsend
            rfl
      · rfl

theorem write_nextNewId (sender : Sender σ) (span : List Byte) (o : Outgoing σ) :
    (o.write sender span).2.client.nextNewId = o.client.nextNewId := by
  rw [Outgoing.write]
  split
  · rfl
  · rfl

theorem flushRegisteredRequests_nextNewId (sender : Sender σ) (o : Outgoing σ) :
    (flushRegisteredRequests sender o).2.client.nextNewId = o.client.nextNewId := by
  by_cases hempty : o.client.requestBuff.empty = true
  · rw [flushRegisteredRequests_empty sender hempty]
  · by_cases hassert : o.client.requestBuff.buff.length ≤ o.client.requestBuff.fdBuff.length
    · rw [flushRegisteredRequests_assertion sender hempty hassert]
      rfl
    · have hsame := sendFds_nextNewId sender o.client.requestBuff.buff
        o.client.requestBuff.fdBuff 0 (o.released.put o.client.serverSock.server [])
      rw [flushRegisteredRequests_eq sender rfl rfl (Nat.lt_of_not_le hassert)]
      split
      · rename_i hsend
        rw [hsend] at hsame
        split
        · exact (write_nextNewId sender _ _).trans hsame
        · exact hsame
      · rename_i hsend
        rw [hsend] at hsame
        exact hsame

theorem registerRequest_nextNewId {build : Build} {stale : ℕ → Byte} {obj : Wobject}
    {msg : Message} {c c' : ConnectedClient σ}
    (h : registerRequest build stale obj msg c = .ok c') : c'.nextNewId = c.nextNewId := by
  obtain ⟨buf, -, heq⟩ := bind_eq_ok_iff.mp h
  obtain rfl := Except.ok.inj heq
  rfl

/-! ## The ids of a run -/

/-- The numbers from 2 on, as the counter holds them. -/
def reservedIds (n : ℕ) : List Wobject :=
  (List.range n).map fun i => BitVec.ofNat 32 (2 + i)

theorem reservedIds_succ (n : ℕ) :
    reservedIds (n + 1) = reservedIds n ++ [BitVec.ofNat 32 (2 + n)] := by
  rw [reservedIds, reservedIds, List.range_succ, List.map_append, List.map_singleton]

theorem ClientStep.counts {c c' : ConnectedClient σ} {ids : List Wobject}
    (h : ClientStep c ids c') {n : ℕ} (hc : c.nextNewId = BitVec.ofNat 32 (2 + n)) :
    reservedIds n ++ ids = reservedIds (n + ids.length) ∧
      c'.nextNewId = BitVec.ofNat 32 (2 + (n + ids.length)) := by
  have hreserve : reservedIds n ++ [c.nextNewId] = reservedIds (n + 1) ∧
      c.nextNewId + 1 = BitVec.ofNat 32 (2 + (n + 1)) := by
    rw [hc, reservedIds_succ]
    exact ⟨rfl, (BitVec.ofNat_add (2 + n) 1).symm⟩
  cases h with
  | reserveObjectId => exact hreserve
  | reserveId => exact hreserve
  | registerRequest hcall =>
      exact ⟨List.append_nil _, (registerRequest_nextNewId hcall).trans hc⟩
  | flush sender o =>
      exact ⟨List.append_nil _, (flushRegisteredRequests_nextNewId sender o).trans hc⟩
  | receive hcall =>
      exact ⟨List.append_nil _, (kept_nextNewId _ _).performs hc hcall⟩

/-- A run returns the numbers from 2 on. -/
theorem ClientRun.eq_reservedIds {server : σ} {ids : List Wobject} {c : ConnectedClient σ}
    (h : ClientRun (.connect server) ids c) :
    ids = reservedIds ids.length ∧ c.nextNewId = BitVec.ofNat 32 (2 + ids.length) := by
  induction h with
  | start => exact ⟨rfl, rfl⟩
  | @step ids ids' c c' hrun hstep ih =>
      obtain ⟨hids, hcounter⟩ := ih
      obtain ⟨hall, hcounter'⟩ := hstep.counts hcounter
      rw [List.length_append]
      exact ⟨by rw [← hall, ← hids], hcounter'⟩

theorem exists_clientRun (server : σ) (n : ℕ) :
    ∃ c, ClientRun (.connect server) (reservedIds n) c := by
  induction n with
  | zero => exact ⟨_, .start⟩
  | succ n ih =>
      obtain ⟨c, hrun⟩ := ih
      have hcounter := hrun.eq_reservedIds.2
      have hlength : (reservedIds n).length = n := by simp [reservedIds]
      have hid : (reserveObjectId c).1 = BitVec.ofNat 32 (2 + n) := by
        rw [reserveObjectId, hcounter, hlength]
      refine ⟨(reserveObjectId c).2, ?_⟩
      rw [reservedIds_succ, ← hid]
      exact .step hrun (.reserveObjectId c)

/-! ## How long the ids are fresh -/

theorem toNat_reserved {i : ℕ} (h : i < 0xfefffffe) :
    (BitVec.ofNat 32 (2 + i)).toNat = 2 + i := by
  rw [BitVec.toNat_ofNat]
  omega

theorem freshAndLegal_reservedIds {n : ℕ} (h : n ≤ 0xfefffffe) :
    FreshAndLegal (reservedIds n) := by
  have hrange : ∀ id ∈ reservedIds n, 2 ≤ id.toNat ∧ id.toNat ≤ 0xfeffffff := by
    intro id hid
    obtain ⟨i, hi, rfl⟩ := List.mem_map.mp hid
    rw [List.mem_range] at hi
    rw [toNat_reserved (by omega)]
    omega
  have hincreasing : (reservedIds n).Pairwise (· < ·) := by
    rw [reservedIds, List.pairwise_map]
    apply List.pairwise_lt_range.imp_of_mem
    intro i j hi hj hlt
    rw [List.mem_range] at hi hj
    rw [BitVec.lt_def, toNat_reserved (by omega), toNat_reserved (by omega)]
    omega
  constructor
  · apply hincreasing.imp
    rintro a b hlt rfl
    exact absurd hlt (BitVec.lt_irrefl a)
  · exact hincreasing
  · intro hmem
    exact absurd (hrange _ hmem).1 (by decide)
  · intro hmem
    exact absurd (hrange _ hmem).1 (by decide)
  · exact hrange

/-- The first id of the server's range. -/
theorem not_freshAndLegal_reservedIds {n : ℕ} (h : 0xfefffffe < n) :
    ¬FreshAndLegal (reservedIds n) := by
  intro hlegal
  have hmem : BitVec.ofNat 32 (2 + 0xfefffffe) ∈ reservedIds n := by
    apply List.mem_map.mpr
    exact ⟨0xfefffffe, List.mem_range.mpr h, rfl⟩
  exact absurd (hlegal.inClientRange _ hmem).2 (by decide)

/-- The ids of a run are fresh and legal exactly as long as there are no more than
the client's range has. -/
theorem freshAndLegal_iff {server : σ} {ids : List Wobject} {c : ConnectedClient σ}
    (h : ClientRun (.connect server) ids c) :
    FreshAndLegal ids ↔ ids.length ≤ 0xfefffffe := by
  have hids := h.eq_reservedIds.1
  constructor
  · intro hlegal
    by_contra hlong
    rw [hids] at hlegal
    exact not_freshAndLegal_reservedIds (by omega) hlegal
  · intro hshort
    rw [hids]
    exact freshAndLegal_reservedIds hshort

theorem freshAndLegal_iff_two :
    ∃ c : ConnectedClient Unit, ClientRun (.connect ()) [2, 3] c ∧
      (FreshAndLegal [2, 3] ↔ [2, 3].length ≤ 0xfefffffe) := by
  have hrun : ClientRun (.connect ()) [2, 3] _ :=
    .step (.step .start (.reserveObjectId (.connect ()))) (.reserveId _)
  exact ⟨_, hrun, freshAndLegal_iff hrun⟩

/-- The run that reserves one id more than the client's range has. -/
theorem exists_clientRun_not_freshAndLegal :
    ∃ (ids : List Wobject) (c : ConnectedClient Unit),
      ClientRun (.connect ()) ids c ∧ ids.length = 0xfeffffff ∧ ¬FreshAndLegal ids := by
  obtain ⟨c, hrun⟩ := exists_clientRun () 0xfeffffff
  refine ⟨reservedIds 0xfeffffff, c, hrun, ?_, not_freshAndLegal_reservedIds (by decide)⟩
  rw [reservedIds, List.length_map, List.length_range]

end Waylander
