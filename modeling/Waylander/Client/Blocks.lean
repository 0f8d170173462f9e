import Waylander.Client.RecvMoreData

/-!
# The blocks of `recv_more_data`

A call reads blocks of 1000 bytes, the first of 1001 if the buffer holds whole
words, until the socket answers with less.  The end of the file is found instead
if the stream ends where a block does and the socket fills each of the blocks up
to there.  Both are arithmetic on the bytes pending and the answers of the socket.
-/

namespace Waylander

variable {σ : Type}

/-- The size of the next block when `k` blocks were filled behind `held` bytes. -/
def blockSize (held k : ℕ) : ℕ :=
  if k = 0 ∧ held % 4 = 0 then 1001 else 1000

/-- The bytes of `k` blocks that are filled behind `held` bytes. -/
def blocksSize (held k : ℕ) : ℕ :=
  if k ≠ 0 ∧ held % 4 = 0 then 1000 * k + 1 else 1000 * k

theorem blocksSize_succ (held k : ℕ) :
    blocksSize held (k + 1) = blocksSize held k + blockSize held k := by
  rw [blocksSize, blocksSize, blockSize]
  split_ifs <;> omega

theorem askedBytes_add_blocksSize (held k : ℕ) :
    askedBytes (held + blocksSize held k) = blockSize held k := by
  rw [askedBytes, blocksSize, blockSize, recvBlockSize]
  split_ifs <;> omega

namespace ServerStream

variable (S : ServerStream σ)

/-- The server after reads of `k` blocks behind `held` bytes, if the socket fills each of
them. -/
def afterBlocks (held : ℕ) (server : σ) : ℕ → Option σ
  | 0 => some server
  | k + 1 => do
      let s ← afterBlocks held server k
      match S.readSome s (blockSize held k) with
      | (.ok chunk, s) => if chunk.length = blockSize held k then some s else none
      | (.error _, _) => none

/-- The bytes pending are those of some number of blocks behind `held` bytes, and the
socket fills each of these. -/
def EndsOnBlock (held : ℕ) (server : σ) : Prop :=
  ∃ k, (S.pending server).length = blocksSize held k ∧ (S.afterBlocks held server k).isSome

variable {S}

theorem afterBlocks_succ_eq_some_iff {held k : ℕ} {server s' : σ} :
    S.afterBlocks held server (k + 1) = some s' ↔
      ∃ s chunk, S.afterBlocks held server k = some s ∧
        S.readSome s (blockSize held k) = (.ok chunk, s') ∧ chunk.length = blockSize held k := by
  rw [afterBlocks, Option.bind_eq_bind, Option.bind_eq_some_iff]
  refine exists_congr fun s => ?_
  rcases hread : S.readSome s (blockSize held k) with ⟨_ | chunk, s₁⟩
  · simp
  · simp [and_comm, and_assoc]

end ServerStream

theorem Host.readFrom_eq_ok_iff {host : Host σ} {sock sock' : Socket σ} {n : ℕ}
    {chunk : List Byte} :
    host.readFrom sock n = (.ok chunk, sock') ↔
      host.readSome sock.server n = (.ok chunk, sock'.server) ∧
        sock'.received = sock.received ++ chunk := by
  rw [readFrom]
  rcases host.readSome sock.server n with ⟨_ | chunk', s⟩
  · simp
  · cases sock'
    simp only [Prod.mk.injEq, Except.ok.injEq, Socket.mk.injEq]
    constructor
    · rintro ⟨rfl, rfl, rfl⟩
      exact ⟨⟨rfl, rfl⟩, rfl⟩
    · rintro ⟨⟨rfl, rfl⟩, rfl⟩
      exact ⟨rfl, rfl, rfl⟩

variable {S : ServerStream σ} {c c₁ : ConnectedClient σ}

/-- Filled reads fill blocks. -/
theorem FilledReads.exists_afterBlocks (h : FilledReads S.toHost c c₁) :
    ∃ k, S.afterBlocks c.recvBuff.length c.serverSock.server k = some c₁.serverSock.server ∧
      c₁.recvBuff.length = c.recvBuff.length + blocksSize c.recvBuff.length k := by
  induction h with
  | refl => exact ⟨0, rfl, by simp [blocksSize]⟩
  | tail _ hstep ih =>
      obtain ⟨k, hafter, hlength⟩ := ih
      obtain ⟨chunk, sock, hread, hfilled, rfl⟩ := hstep
      rw [hlength, askedBytes_add_blocksSize] at hread hfilled
      refine ⟨k + 1, ?_, ?_⟩
      · exact ServerStream.afterBlocks_succ_eq_some_iff.mpr
          ⟨_, chunk, hafter, (Host.readFrom_eq_ok_iff.mp hread).1, hfilled⟩
      · rw [ConnectedClient.extend, List.length_append, hlength, hfilled, blocksSize_succ,
          Nat.add_assoc]

/-- Blocks are filled by filled reads. -/
theorem exists_filledReads {k : ℕ} {s : σ}
    (h : S.afterBlocks c.recvBuff.length c.serverSock.server k = some s) :
    ∃ c₁, FilledReads S.toHost c c₁ ∧ c₁.serverSock.server = s ∧
      c₁.recvBuff.length = c.recvBuff.length + blocksSize c.recvBuff.length k := by
  induction k generalizing s with
  | zero => exact ⟨c, .refl, Option.some.inj h, by simp [blocksSize]⟩
  | succ k ih =>
      obtain ⟨s₁, chunk, hafter, hread, hfilled⟩ :=
        ServerStream.afterBlocks_succ_eq_some_iff.mp h
      obtain ⟨c₁, hreads, rfl, hlength⟩ := ih hafter
      rw [← askedBytes_add_blocksSize, ← hlength] at hread hfilled
      let sock : Socket σ :=
        { server := s, received := c₁.serverSock.received ++ chunk }
      have hreadFrom : S.readFrom c₁.serverSock (askedBytes c₁.recvBuff.length) =
          (.ok chunk, sock) := Host.readFrom_eq_ok_iff.mpr ⟨hread, rfl⟩
      refine ⟨c₁.extend sock chunk, hreads.tail ⟨chunk, sock, hreadFrom, hfilled, rfl⟩, rfl, ?_⟩
      rw [ConnectedClient.extend, List.length_append, hlength, hfilled, hlength,
        askedBytes_add_blocksSize, blocksSize_succ, Nat.add_assoc]

/-- The bytes of the blocks that were filled are no longer pending. -/
theorem FilledReads.length_pending (h : FilledReads S.toHost c c₁) :
    (c.pending S).length + c.recvBuff.length =
      (c₁.pending S).length + c₁.recvBuff.length := by
  obtain ⟨bytes, hreceives⟩ := h.receives
  rw [hreceives.pending, hreceives.recvBuff, List.length_append, List.length_append]
  omega

/-- The client finds the end of the file behind filled reads exactly if the stream ends
on a block. -/
theorem filledToEof_iff :
    FilledToEof S c ↔ S.EndsOnBlock c.recvBuff.length c.serverSock.server := by
  constructor
  · rintro ⟨c₁, hreads, hnil⟩
    obtain ⟨k, hafter, hlength⟩ := hreads.exists_afterBlocks
    have hpending := hreads.length_pending
    rw [hnil, hlength, List.length_nil] at hpending
    refine ⟨k, ?_, by rw [hafter]; rfl⟩
    rw [ConnectedClient.pending] at hpending
    omega
  · rintro ⟨k, hsize, hsome⟩
    obtain ⟨s, hafter⟩ := Option.isSome_iff_exists.mp hsome
    obtain ⟨c₁, hreads, -, hlength⟩ := exists_filledReads hafter
    have hpending := hreads.length_pending
    rw [ConnectedClient.pending, hsize, hlength] at hpending
    exact ⟨c₁, hreads, List.eq_nil_of_length_eq_zero (by omega)⟩

/-! ## Calls that return -/

/-- The last read of a call that returns gets some bytes. -/
theorem LastRead.exists_chunk {host : Host σ} (h : LastRead host c (.ok (), c₁)) :
    ∃ chunk sock, host.readFrom c.serverSock (askedBytes c.recvBuff.length) = (.ok chunk, sock) ∧
      chunk ≠ [] ∧ c₁ = c.extend sock chunk := by
  cases h with
  | short hread hne hlt => exact ⟨_, _, hread, hne, rfl⟩

theorem Refills.unique {host : Host σ} {c c₁ c₂ : ConnectedClient σ} (h₁ : Refills host c c₁)
    (h₂ : Refills host c c₂) : c₁ = c₂ := by
  obtain ⟨d₁, hreads₁, hlast₁⟩ := h₁
  obtain ⟨d₂, hreads₂, hlast₂⟩ := h₂
  obtain rfl := hreads₁.unique hreads₂ hlast₁.not_filledRead hlast₂.not_filledRead
  obtain ⟨chunk₁, sock₁, hread₁, -, rfl⟩ := hlast₁.exists_chunk
  obtain ⟨chunk₂, sock₂, hread₂, -, rfl⟩ := hlast₂.exists_chunk
  obtain ⟨hchunk, rfl⟩ := Prod.mk.inj (hread₁.symm.trans hread₂)
  rw [Except.ok.inj hchunk]

/-- A call that finds the end of the file does not return. -/
theorem FilledToEof.not_refills (h : FilledToEof S c) : ¬Refills S.toHost c c₁ := by
  obtain ⟨d, hreads, hnil⟩ := h
  rintro ⟨d', hreads', hlast⟩
  obtain rfl := hreads.unique hreads' (not_filledRead_of_pending_eq_nil hnil)
    hlast.not_filledRead
  obtain ⟨chunk, sock, hread, hne, -⟩ := hlast.exists_chunk
  have hpending := (receives_extend hread (askedBytes_pos d.recvBuff.length)).pending
  rw [hnil] at hpending
  exact hne (List.append_eq_nil_iff.mp hpending.symm).1

end Waylander
