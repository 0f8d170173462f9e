import Mathlib.Logic.Relation
import Waylander.Client.Socket
import Waylander.Support.Goto
import Waylander.Wire.MessageBuffer

/-!
# Receiving bytes

`connected_client` and its member function `recv_more_data`.  The buffer is
lengthened before each read and shortened behind the bytes that were read,
except where `read_some` throws.
-/

namespace Waylander

open Buffer Goto

variable {σ : Type}

structure ConnectedClient (σ : Type) where
  serverSock : Socket σ
  nextNewId : BitVec 32 := 2
  requestBuff : MessageBuffer := {}
  /-- Always assumed that the data never begins at middle of message. -/
  recvBuff : List Byte := []

/-- A client that has received nothing yet. -/
def ConnectedClient.connect (server : σ) : ConnectedClient σ where
  serverSock := { server := server, received := [] }

def recvBlockSize : ℕ := 1000

def eofException : Exception :=
  .runtimeError "Encountered EOF from server socket!"

/-- What ended a call: the client afterwards and the exception, if any. -/
abbrev Outcome (σ : Type) := Except Exception Unit × ConnectedClient σ

/-- From the label `read_again` with `unprocessed_bytes` to the next jump. -/
def readAgain (host : Host σ) (c : ConnectedClient σ) (unprocessedBytes : ℕ) :
    Jump (ConnectedClient σ × ℕ) (Outcome σ) :=
  let M := unprocessedBytes + recvBlockSize
  let isAligned := M % 4 = 0
  let MPad := if isAligned then 1 else 0
  let storage := host.storage c.serverSock.server
  let recvBuff := resize storage c.recvBuff (M + MPad)
  let whereToReadSize := recvBuff.length - unprocessedBytes
  match host.readFrom c.serverSock whereToReadSize with
  | (.error e, sock) => .exit (.error e, { c with serverSock := sock, recvBuff := recvBuff })
  | (.ok chunk, sock) =>
      let bytesRead := chunk.length
      if bytesRead = 0 then
        .exit (.error eofException,
          { c with serverSock := sock, recvBuff := resize storage recvBuff unprocessedBytes })
      else
        let recvBuff := overwrite recvBuff unprocessedBytes chunk
        let unprocessedBytes := unprocessedBytes + bytesRead
        if bytesRead = whereToReadSize then
          .again ({ c with serverSock := sock, recvBuff := recvBuff }, unprocessedBytes)
        else
          .exit (.ok (),
            { c with serverSock := sock, recvBuff := resize storage recvBuff unprocessedBytes })

/-- Receive non-zero amount of data to `recv_buff_`. -/
def recvMoreData (host : Host σ) (fuel : ℕ) (c : ConnectedClient σ) : Option (Outcome σ) :=
  run (fun _ l => some (readAgain host l.1 l.2)) fuel (c, c.recvBuff.length)

/-! ## One pass -/

/-- The number of bytes asked for when the buffer holds `unprocessedBytes`. -/
def askedBytes (unprocessedBytes : ℕ) : ℕ :=
  recvBlockSize + if (unprocessedBytes + recvBlockSize) % 4 = 0 then 1 else 0

theorem askedBytes_pos (unprocessedBytes : ℕ) : 0 < askedBytes unprocessedBytes := by
  rw [askedBytes, recvBlockSize]
  omega

/-- A completely filled read does not end at a word boundary. -/
theorem add_askedBytes_mod (unprocessedBytes : ℕ) :
    (unprocessedBytes + askedBytes unprocessedBytes) % 4 ≠ 0 := by
  rw [askedBytes, recvBlockSize]
  split <;> omega

/-- The client with the outcome of a read behind its bytes. -/
def ConnectedClient.extend (c : ConnectedClient σ) (sock : Socket σ) (chunk : List Byte) :
    ConnectedClient σ :=
  { c with serverSock := sock, recvBuff := c.recvBuff ++ chunk }

/-- One pass in terms of the read it makes. -/
theorem readAgain_eq (host : Host σ) (c : ConnectedClient σ) :
    readAgain host c c.recvBuff.length =
      match host.readFrom c.serverSock (askedBytes c.recvBuff.length) with
      | (.error e, sock) => .exit (.error e, c.extend sock
          (fresh (host.storage c.serverSock.server) c.recvBuff.length
            (askedBytes c.recvBuff.length)))
      | (.ok chunk, sock) =>
          if chunk = [] then .exit (.error eofException, c.extend sock [])
          else if chunk.length = askedBytes c.recvBuff.length then
            .again (c.extend sock chunk, (c.extend sock chunk).recvBuff.length)
          else .exit (.ok (), c.extend sock chunk) := by
  have hM : c.recvBuff.length + recvBlockSize +
      (if (c.recvBuff.length + recvBlockSize) % 4 = 0 then 1 else 0) =
        c.recvBuff.length + askedBytes c.recvBuff.length := by
    rw [askedBytes, Nat.add_assoc]
  simp only [readAgain, hM, resize_add, List.length_append, fresh_length,
    Nat.add_sub_cancel_left]
  cases hread : host.readFrom c.serverSock (askedBytes c.recvBuff.length) with
  | mk outcome sock =>
      cases outcome with
      | error e => rfl
      | ok chunk =>
          simp only [List.length_eq_zero_iff, resize_append_left, overwrite_append]
          by_cases hnil : chunk = []
          · simp [hnil, ConnectedClient.extend]
          · rw [if_neg hnil, if_neg hnil]
            by_cases hfilled : chunk.length = askedBytes c.recvBuff.length
            · have hdrop : (fresh (host.storage c.serverSock.server) c.recvBuff.length
                  (askedBytes c.recvBuff.length)).drop chunk.length = [] := by
                rw [List.drop_eq_nil_iff, fresh_length, hfilled]
              rw [if_pos hfilled, if_pos hfilled, hdrop]
              simp [ConnectedClient.extend]
            · rw [if_neg hfilled, if_neg hfilled, ← List.length_append, ← List.append_assoc,
                resize_append_left]
              rfl

/-! ## The reads of a call -/

section Reads

variable (host : Host σ)

/-- A read that fills the block it was asked to fill. -/
def FilledRead (c c' : ConnectedClient σ) : Prop :=
  ∃ chunk sock, host.readFrom c.serverSock (askedBytes c.recvBuff.length) = (.ok chunk, sock) ∧
    chunk.length = askedBytes c.recvBuff.length ∧ c' = c.extend sock chunk

/-- Any number of filled reads one after another. -/
def FilledReads : ConnectedClient σ → ConnectedClient σ → Prop :=
  Relation.ReflTransGen (FilledRead host)

/-- `read_some` throws when the client reads. -/
def ReadThrows (c : ConnectedClient σ) : Prop :=
  ∃ e sock, host.readFrom c.serverSock (askedBytes c.recvBuff.length) = (.error e, sock)

/-- The read after which a call exits, and how it exits. -/
inductive LastRead (c : ConnectedClient σ) : Outcome σ → Prop
  | throws {e : Exception} {sock : Socket σ}
      (hread : host.readFrom c.serverSock (askedBytes c.recvBuff.length) = (.error e, sock)) :
      LastRead c (.error e, c.extend sock
        (fresh (host.storage c.serverSock.server) c.recvBuff.length
          (askedBytes c.recvBuff.length)))
  | eof {sock : Socket σ}
      (hread : host.readFrom c.serverSock (askedBytes c.recvBuff.length) = (.ok [], sock)) :
      LastRead c (.error eofException, c.extend sock [])
  | short {chunk : List Byte} {sock : Socket σ}
      (hread : host.readFrom c.serverSock (askedBytes c.recvBuff.length) = (.ok chunk, sock))
      (hne : chunk ≠ []) (hlt : chunk.length < askedBytes c.recvBuff.length) :
      LastRead c (.ok (), c.extend sock chunk)

/-- The reads of a call that returns. -/
def Refills (c c' : ConnectedClient σ) : Prop :=
  ∃ c₁, FilledReads host c c₁ ∧ LastRead host c₁ (.ok (), c')

variable {host}

variable (host) in
/-- A pass makes a filled read and jumps back, or a read after which it exits. -/
theorem readAgain_cases (c : ConnectedClient σ) :
    (∃ c', FilledRead host c c' ∧
      readAgain host c c.recvBuff.length = .again (c', c'.recvBuff.length)) ∨
    ∃ out, LastRead host c out ∧ readAgain host c c.recvBuff.length = .exit out := by
  rw [readAgain_eq]
  cases hread : host.readFrom c.serverSock (askedBytes c.recvBuff.length) with
  | mk outcome sock =>
      cases outcome with
      | error e => exact Or.inr ⟨_, .throws hread, rfl⟩
      | ok chunk =>
          dsimp only
          by_cases hnil : chunk = []
          · subst hnil
            rw [if_pos rfl]
            exact Or.inr ⟨_, .eof hread, rfl⟩
          · rw [if_neg hnil]
            by_cases hfilled : chunk.length = askedBytes c.recvBuff.length
            · rw [if_pos hfilled]
              exact Or.inl ⟨_, ⟨chunk, sock, hread, hfilled, rfl⟩, rfl⟩
            · rw [if_neg hfilled]
              have hlt := Nat.lt_of_le_of_ne (Host.readFrom_length hread) hfilled
              exact Or.inr ⟨_, .short hread hnil hlt, rfl⟩

/-- A call makes filled reads and then one after which it exits. -/
theorem recvMoreData_reads {fuel : ℕ} {c : ConnectedClient σ} {out : Outcome σ}
    (h : recvMoreData host fuel c = some out) :
    ∃ c₁, FilledReads host c c₁ ∧ LastRead host c₁ out := by
  let Inv : ConnectedClient σ × ℕ → Prop := fun l =>
    l.2 = l.1.recvBuff.length ∧ FilledReads host c l.1
  have hblock : ∀ (_ : ℕ) l j, Inv l → some (readAgain host l.1 l.2) = some j →
      j.Satisfies Inv fun out => ∃ c₁, FilledReads host c c₁ ∧ LastRead host c₁ out := by
    rintro - ⟨c₁, n⟩ j ⟨hn, hreads⟩ hj
    obtain rfl : n = c₁.recvBuff.length := hn
    rcases readAgain_cases host c₁ with ⟨c₂, hfilled, hagain⟩ | ⟨out', hlast, hexit⟩
    · rw [hagain] at hj
      cases hj
      exact ⟨rfl, hreads.tail hfilled⟩
    · rw [hexit] at hj
      cases hj
      exact ⟨c₁, hreads, hlast⟩
  have hstart : Inv (c, c.recvBuff.length) := ⟨rfl, .refl⟩
  exact run_invariant hblock hstart h

/-- What filled reads received is what they added to the buffer. -/
theorem FilledReads.received {c c₁ : ConnectedClient σ} (h : FilledReads host c c₁) :
    ∃ bytes, c₁.serverSock.received = c.serverSock.received ++ bytes ∧
      c₁.recvBuff = c.recvBuff ++ bytes := by
  induction h with
  | refl => exact ⟨[], by simp, by simp⟩
  | tail _ hstep ih =>
      obtain ⟨bytes, hreceived, hbuff⟩ := ih
      obtain ⟨chunk, sock, hread, -, rfl⟩ := hstep
      refine ⟨bytes ++ chunk, ?_, ?_⟩
      · rw [← List.append_assoc, ← hreceived]
        exact Host.readFrom_received hread
      · rw [← List.append_assoc, ← hbuff]
        rfl

theorem FilledRead.unique {c c₁ c₂ : ConnectedClient σ} (h₁ : FilledRead host c c₁)
    (h₂ : FilledRead host c c₂) : c₁ = c₂ := by
  obtain ⟨chunk₁, sock₁, hread₁, -, rfl⟩ := h₁
  obtain ⟨chunk₂, sock₂, hread₂, -, rfl⟩ := h₂
  rw [hread₁] at hread₂
  cases hread₂
  rfl

/-- Steps of a deterministic relation that cannot be continued end in one place. -/
theorem eq_of_stuck {α : Type*} {step : α → α → Prop} (huniq : Relator.RightUnique step)
    {a b₁ b₂ : α} (h₁ : Relation.ReflTransGen step a b₁) (h₂ : Relation.ReflTransGen step a b₂)
    (hstuck₁ : ∀ b, ¬step b₁ b) (hstuck₂ : ∀ b, ¬step b₂ b) : b₁ = b₂ := by
  rcases Relation.ReflTransGen.total_of_right_unique huniq h₁ h₂ with h | h
  · rcases Relation.ReflTransGen.cases_head h with heq | ⟨b, hstep, -⟩
    · exact heq
    · exact absurd hstep (hstuck₁ b)
  · rcases Relation.ReflTransGen.cases_head h with heq | ⟨b, hstep, -⟩
    · exact heq.symm
    · exact absurd hstep (hstuck₂ b)

/-- Filled reads that cannot be continued end in one client. -/
theorem FilledReads.unique {c c₁ c₂ : ConnectedClient σ} (h₁ : FilledReads host c c₁)
    (h₂ : FilledReads host c c₂) (hlast₁ : ∀ c', ¬FilledRead host c₁ c')
    (hlast₂ : ∀ c', ¬FilledRead host c₂ c') : c₁ = c₂ := by
  have huniq : Relator.RightUnique (FilledRead host) := fun _ _ _ => FilledRead.unique
  exact eq_of_stuck huniq h₁ h₂ hlast₁ hlast₂

theorem ReadThrows.not_filledRead {c : ConnectedClient σ} (h : ReadThrows host c)
    (c' : ConnectedClient σ) : ¬FilledRead host c c' := by
  obtain ⟨e, sock, hread⟩ := h
  rintro ⟨chunk, sock', hread', -⟩
  rw [hread] at hread'
  cases hread'

theorem LastRead.not_filledRead {c : ConnectedClient σ} {out : Outcome σ}
    (h : LastRead host c out) (c' : ConnectedClient σ) : ¬FilledRead host c c' := by
  rintro ⟨chunk, sock, hread, hfilled, -⟩
  have hpos := askedBytes_pos c.recvBuff.length
  cases h with
  | throws hread' =>
      rw [hread] at hread'
      cases hread'
  | eof hread' =>
      rw [hread] at hread'
      cases hread'
      rw [List.length_nil] at hfilled
      omega
  | short hread' hne hlt =>
      rw [hread] at hread'
      cases hread'
      omega

theorem not_readThrows_of_ok {c : ConnectedClient σ} {chunk : List Byte} {sock : Socket σ}
    (hread : host.readFrom c.serverSock (askedBytes c.recvBuff.length) = (.ok chunk, sock)) :
    ¬ReadThrows host c := by
  rintro ⟨e, sock', hread'⟩
  rw [hread] at hread'
  cases hread'

/-- The last read puts what it received behind the bytes of the buffer, unless it
throws; then the buffer is longer although nothing was received. -/
theorem LastRead.received {c : ConnectedClient σ} {out : Outcome σ} (h : LastRead host c out) :
    (¬ReadThrows host c ∧ ∃ chunk,
        out.2.serverSock.received = c.serverSock.received ++ chunk ∧
        out.2.recvBuff = c.recvBuff ++ chunk) ∨
      (ReadThrows host c ∧ out.2.serverSock.received = c.serverSock.received ∧
        c.recvBuff.length < out.2.recvBuff.length) := by
  cases h with
  | throws hread =>
      have hpos := askedBytes_pos c.recvBuff.length
      refine Or.inr ⟨⟨_, _, hread⟩, Host.readFrom_received_error hread, ?_⟩
      rw [ConnectedClient.extend, List.length_append, fresh_length]
      exact Nat.lt_add_of_pos_right hpos
  | eof hread =>
      exact Or.inl ⟨not_readThrows_of_ok hread, [], Host.readFrom_received hread, rfl⟩
  | short hread hne hlt =>
      exact Or.inl ⟨not_readThrows_of_ok hread, _, Host.readFrom_received hread, rfl⟩

/-- When `recv_more_data` exits, the buffer has grown by exactly the bytes it
received, unless `read_some` threw after reads that were filled. -/
theorem recvBuff_recvMoreData_iff {fuel : ℕ} {c c' : ConnectedClient σ}
    {r : Except Exception Unit} (h : recvMoreData host fuel c = some (r, c')) :
    c'.recvBuff = c.recvBuff ++ c'.serverSock.received.drop c.serverSock.received.length ↔
      ¬∃ c₁, FilledReads host c c₁ ∧ ReadThrows host c₁ := by
  obtain ⟨c₁, hreads, hlast⟩ := recvMoreData_reads h
  obtain ⟨bytes, hreceived, hbuff⟩ := hreads.received
  have hiff : (∃ c₂, FilledReads host c c₂ ∧ ReadThrows host c₂) ↔ ReadThrows host c₁ := by
    constructor
    · rintro ⟨c₂, hreads₂, hthrows⟩
      exact hreads.unique hreads₂ hlast.not_filledRead hthrows.not_filledRead ▸ hthrows
    · intro hthrows
      exact ⟨c₁, hreads, hthrows⟩
  rw [hiff]
  rcases hlast.received with ⟨hnot, chunk, hreceived', hbuff'⟩ | ⟨hthrows, hreceived', hlonger⟩
  · rw [hreceived', hreceived, hbuff', hbuff, List.append_assoc, List.append_assoc,
      List.drop_left]
    exact iff_of_true rfl hnot
  · refine iff_of_false ?_ (not_not_intro hthrows)
    intro heq
    rw [hreceived', hreceived, List.drop_left, ← hbuff] at heq
    rw [heq] at hlonger
    exact Nat.lt_irrefl _ hlonger

end Reads

/-- A host whose socket fails. -/
def failingHost : Host Unit where
  readSome _ _ := (.error .systemError, ())
  readSome_length := by
    rintro _ _ _ ⟨⟩
  storage _ _ := 0

theorem recvMoreData_failingHost :
    recvMoreData failingHost 1 (.connect ()) =
      some (.error .systemError,
        (ConnectedClient.connect ()).extend { server := (), received := [] }
          (fresh (fun _ => 0) 0 1001)) := by
  rw [recvMoreData, run]
  have hpass := readAgain_eq failingHost (.connect ())
  simp only [hpass]
  rfl

theorem recvBuff_recvMoreData_iff_failingHost :
    (((ConnectedClient.connect ()).extend { server := (), received := [] }
        (fresh (fun _ => 0) 0 1001)).recvBuff = [] ++ [].drop 0 ↔
      ¬∃ c₁, FilledReads failingHost (.connect ()) c₁ ∧ ReadThrows failingHost c₁) :=
  recvBuff_recvMoreData_iff recvMoreData_failingHost

/-- After a failed read a client that received nothing holds 1001 bytes. -/
theorem recvBuff_recvMoreData_failingHost :
    ∃ c', recvMoreData failingHost 1 (.connect ()) = some (.error .systemError, c') ∧
      c'.serverSock.received = [] ∧ c'.recvBuff.length = 1001 :=
  ⟨_, recvMoreData_failingHost, rfl, by simp [ConnectedClient.extend, ConnectedClient.connect]⟩

/-! ## Receiving from a server stream -/

section ServerStream

variable (S : ServerStream σ)

/-- The bytes that the server still has for the client. -/
def ConnectedClient.pending (c : ConnectedClient σ) : List Byte :=
  S.pending c.serverSock.server

/-- The part of the stream that is not consumed yet, received or not. -/
def ConnectedClient.unconsumed (c : ConnectedClient σ) : List Byte :=
  c.recvBuff ++ c.pending S

/-- The next reads are filled and then the server has nothing left. -/
def FilledToEof (c : ConnectedClient σ) : Prop :=
  ∃ c₁, FilledReads S.toHost c c₁ ∧ c₁.pending S = []

variable {S}

variable (S) in
/-- The client got `bytes` from the server and put them behind its bytes. -/
structure Receives (c c' : ConnectedClient σ) (bytes : List Byte) : Prop where
  received : c'.serverSock.received = c.serverSock.received ++ bytes
  recvBuff : c'.recvBuff = c.recvBuff ++ bytes
  pending : c.pending S = bytes ++ c'.pending S

theorem Receives.refl (c : ConnectedClient σ) : Receives S c c [] where
  received := (List.append_nil _).symm
  recvBuff := (List.append_nil _).symm
  pending := rfl

theorem Receives.trans {c c₁ c₂ : ConnectedClient σ} {bytes bytes' : List Byte}
    (h : Receives S c c₁ bytes) (h' : Receives S c₁ c₂ bytes') :
    Receives S c c₂ (bytes ++ bytes') where
  received := by rw [h'.received, h.received, List.append_assoc]
  recvBuff := by rw [h'.recvBuff, h.recvBuff, List.append_assoc]
  pending := by rw [h.pending, h'.pending, List.append_assoc]

/-- Receiving consumes nothing. -/
theorem Receives.unconsumed {c c' : ConnectedClient σ} {bytes : List Byte}
    (h : Receives S c c' bytes) : c'.unconsumed S = c.unconsumed S := by
  rw [ConnectedClient.unconsumed, ConnectedClient.unconsumed, h.recvBuff, h.pending,
    List.append_assoc]

theorem receives_extend {c : ConnectedClient σ} {sock : Socket σ} {n : ℕ} {chunk : List Byte}
    (hread : S.readFrom c.serverSock n = (.ok chunk, sock)) (hn : 0 < n) :
    Receives S c (c.extend sock chunk) chunk := by
  obtain ⟨chunk', sock', hread', hpending, -⟩ := S.readFrom_pending c.serverSock hn
  rw [hread] at hread'
  cases hread'
  exact ⟨Host.readFrom_received hread, rfl, hpending⟩

theorem FilledReads.receives {c c₁ : ConnectedClient σ} (h : FilledReads S.toHost c c₁) :
    ∃ bytes, Receives S c c₁ bytes := by
  induction h with
  | refl => exact ⟨[], .refl c⟩
  | @tail c₁ _ _ hstep ih =>
      obtain ⟨bytes, hreceives⟩ := ih
      obtain ⟨chunk, sock, hread, -, rfl⟩ := hstep
      exact ⟨bytes ++ chunk,
        hreceives.trans (receives_extend hread (askedBytes_pos c₁.recvBuff.length))⟩

/-- No read is filled when nothing is pending. -/
theorem not_filledRead_of_pending_eq_nil {c : ConnectedClient σ} (h : c.pending S = [])
    (c' : ConnectedClient σ) : ¬FilledRead S.toHost c c' := by
  rintro ⟨chunk, sock, hread, hfilled, -⟩
  have hpos := askedBytes_pos c.recvBuff.length
  have hpending := (receives_extend hread hpos).pending
  rw [h] at hpending
  obtain ⟨rfl, -⟩ := List.append_eq_nil_iff.mp hpending.symm
  rw [List.length_nil] at hfilled
  omega

/-- A call receives bytes until a read is not filled, and throws exactly when it
finds the server's end of the file. -/
theorem recvMoreData_receives {fuel : ℕ} {c c' : ConnectedClient σ} {r : Except Exception Unit}
    (h : recvMoreData S.toHost fuel c = some (r, c')) :
    ∃ bytes, Receives S c c' bytes ∧
      (r = .ok () ∧ bytes ≠ [] ∧ ¬FilledToEof S c ∨
        r = .error eofException ∧ c'.pending S = [] ∧ FilledToEof S c) := by
  obtain ⟨c₁, hreads, hlast⟩ := recvMoreData_reads h
  obtain ⟨bytes, hreceives⟩ := hreads.receives
  have hpos := askedBytes_pos c₁.recvBuff.length
  obtain ⟨chunk, sock, hread, -, hend⟩ := S.readFrom_pending c₁.serverSock hpos
  have hlastRead := hlast.not_filledRead
  cases hlast with
  | throws hread' =>
      rw [hread] at hread'
      cases hread'
  | eof hread' =>
      rw [hread] at hread'
      cases hread'
      have hstep := receives_extend hread hpos
      have hnil : c₁.pending S = [] := hend rfl
      refine ⟨bytes ++ [], hreceives.trans hstep, Or.inr ⟨rfl, ?_, c₁, hreads, hnil⟩⟩
      exact hstep.pending.symm.trans hnil
  | short hread' hne hlt =>
      rw [hread] at hread'
      cases hread'
      have hstep := receives_extend hread hpos
      refine ⟨bytes ++ chunk, hreceives.trans hstep, Or.inl ⟨rfl, ?_, ?_⟩⟩
      · exact List.append_ne_nil_of_right_ne_nil _ hne
      · rintro ⟨c₂, hreads₂, hnil⟩
        have heq := hreads.unique hreads₂ hlastRead (not_filledRead_of_pending_eq_nil hnil)
        rw [← heq, hstep.pending] at hnil
        exact hne (List.append_eq_nil_iff.mp hnil).1

/-- Each filled read takes bytes from a finite stream. -/
theorem recvMoreData_ends (c : ConnectedClient σ) :
    Ends fun fuel => recvMoreData S.toHost fuel c := by
  let Inv : ConnectedClient σ × ℕ → Prop := fun l => l.2 = l.1.recvBuff.length
  have hblock : ∀ l, Inv l → ∃ j, Yields (fun _ => some (readAgain S.toHost l.1 l.2)) j ∧
      j.Satisfies (fun l' => Inv l' ∧ (l'.1.pending S).length < (l.1.pending S).length)
        fun _ => True := by
    rintro ⟨c₁, n⟩ hn
    obtain rfl : n = c₁.recvBuff.length := hn
    refine ⟨_, yields_some _, ?_⟩
    rcases readAgain_cases S.toHost c₁ with ⟨c₂, hfilled, hagain⟩ | ⟨out, -, hexit⟩
    · rw [hagain]
      refine ⟨rfl, ?_⟩
      obtain ⟨chunk, sock, hread, hlength, rfl⟩ := hfilled
      have hpos := askedBytes_pos c₁.recvBuff.length
      have hchunk := (receives_extend hread hpos).pending
      dsimp only
      rw [hchunk, List.length_append]
      omega
    · rw [hexit]
      trivial
  have hstart : Inv (c, c.recvBuff.length) := rfl
  obtain ⟨r, hr, -⟩ := run_total (fun l => (l.1.pending S).length) hblock hstart
  exact ⟨r, hr⟩

end ServerStream

end Waylander
