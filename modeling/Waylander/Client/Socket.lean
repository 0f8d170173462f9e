import Waylander.Wire.MessageParser

/-!
# The server socket

`gnulander::local_stream_socket` is not part of the source.  What the client
receives from it is given by a host: the outcome of `read_some` and the memory
that newly allocated buffer elements happen to contain, both functions of a
state of arbitrary type.  A server stream is a host whose socket delivers a
finite stream of bytes, split in any way, and then the end of the file.
-/

namespace Waylander

/-- The environment of a client. -/
structure Host (σ : Type) where
  /-- `read_some` with a block of the given size: the bytes stored, none at the
  end of the file, or the exception thrown. -/
  readSome : σ → ℕ → Except Exception (List Byte) × σ
  readSome_length : ∀ s n chunk, (readSome s n).1 = .ok chunk → chunk.length ≤ n
  /-- Contents of elements that nobody has written. -/
  storage : σ → ℕ → Byte

/-- A host whose socket has the bytes `pending` still to deliver. -/
structure ServerStream (σ : Type) extends Host σ where
  pending : σ → List Byte
  readSome_pending : ∀ s n, 0 < n → ∃ chunk s', readSome s n = (.ok chunk, s') ∧
    pending s = chunk ++ pending s' ∧ (chunk = [] → pending s = [])

/-- The client's end of the socket, with the bytes received through it. -/
structure Socket (σ : Type) where
  server : σ
  received : List Byte

variable {σ : Type}

def Host.readFrom (host : Host σ) (sock : Socket σ) (n : ℕ) :
    Except Exception (List Byte) × Socket σ :=
  match host.readSome sock.server n with
  | (.ok chunk, s) => (.ok chunk, { server := s, received := sock.received ++ chunk })
  | (.error e, s) => (.error e, { server := s, received := sock.received })

theorem Host.readFrom_received {host : Host σ} {sock sock' : Socket σ} {n : ℕ}
    {chunk : List Byte} (h : host.readFrom sock n = (.ok chunk, sock')) :
    sock'.received = sock.received ++ chunk := by
  rw [readFrom] at h
  split at h
  · cases h
    rfl
  · cases h

theorem Host.readFrom_received_error {host : Host σ} {sock sock' : Socket σ} {n : ℕ}
    {e : Exception} (h : host.readFrom sock n = (.error e, sock')) :
    sock'.received = sock.received := by
  rw [readFrom] at h
  split at h
  · cases h
  · cases h
    rfl

theorem Host.readFrom_length {host : Host σ} {sock sock' : Socket σ} {n : ℕ}
    {chunk : List Byte} (h : host.readFrom sock n = (.ok chunk, sock')) :
    chunk.length ≤ n := by
  rw [readFrom] at h
  split at h
  · rename_i hread
    cases h
    exact host.readSome_length sock.server n chunk (by rw [hread])
  · cases h

theorem ServerStream.readFrom_pending (S : ServerStream σ) (sock : Socket σ) {n : ℕ}
    (hn : 0 < n) :
    ∃ chunk sock', S.readFrom sock n = (.ok chunk, sock') ∧
      S.pending sock.server = chunk ++ S.pending sock'.server ∧
      (chunk = [] → S.pending sock.server = []) := by
  obtain ⟨chunk, s', hread, hpending, hend⟩ := S.readSome_pending sock.server n hn
  refine ⟨chunk, { server := s', received := sock.received ++ chunk }, ?_, hpending, hend⟩
  rw [Host.readFrom, hread]

/-- A server whose every read delivers at most `limit + 1` bytes. -/
def boundedServer (limit : ℕ) : ServerStream (List Byte) where
  readSome s n := (.ok (s.take (min n (limit + 1))), s.drop (min n (limit + 1)))
  readSome_length := by
    intro s n chunk h
    cases h
    rw [List.length_take]
    omega
  storage _ _ := 0
  pending s := s
  readSome_pending := by
    intro s n hn
    refine ⟨_, _, rfl, (List.take_append_drop _ s).symm, ?_⟩
    intro hnil
    rcases List.take_eq_nil_iff.mp hnil with h | h
    · omega
    · exact h

end Waylander
