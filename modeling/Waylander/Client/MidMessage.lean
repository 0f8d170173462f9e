import Waylander.Client.RecvMoreData

/-!
# Reading in the middle of a message

`recv_more_data` reads again when a read was filled.  The sizes that it asks for
are such that a filled read never leaves a whole number of words in the buffer,
so on a stream of messages made up of words it reads again only while a message
is incomplete, and never waits for a message that the server need not send.
-/

namespace Waylander

open Goto

variable {σ : Type} {host : Host σ}

/-- In a call on `c`, the label `read_again` is jumped back to with the locals `l`:
a second or later read follows. -/
def ReadsAgain (host : Host σ) (c : ConnectedClient σ) : ConnectedClient σ × ℕ → Prop :=
  Relation.TransGen (fun l l' => readAgain host l.1 l.2 = .again l') (c, c.recvBuff.length)

/-- The bytes end behind the first byte and before the last byte of a message. -/
def EndsInside (fs : List (List Byte)) (bytes : List Byte) : Prop :=
  ∃ gs f hs t, fs = gs ++ f :: hs ∧ bytes = gs.flatten ++ t ∧ t ≠ [] ∧ t <+: f ∧ t ≠ f

theorem readAgain_again {c : ConnectedClient σ} {l : ConnectedClient σ × ℕ}
    (h : readAgain host c c.recvBuff.length = .again l) :
    FilledRead host c l.1 ∧ l.2 = l.1.recvBuff.length := by
  rcases readAgain_cases host c with ⟨c', hfilled, hagain⟩ | ⟨out, -, hexit⟩
  · rw [hagain] at h
    cases h
    exact ⟨hfilled, rfl⟩
  · rw [hexit] at h
    cases h

theorem FilledRead.again {c c' : ConnectedClient σ} (h : FilledRead host c c') :
    readAgain host c c.recvBuff.length = .again (c', c'.recvBuff.length) := by
  rcases readAgain_cases host c with ⟨c'', hfilled, hagain⟩ | ⟨out, hlast, -⟩
  · rw [h.unique hfilled]
    exact hagain
  · exact absurd h (hlast.not_filledRead c')

theorem FilledRead.length_mod {c c' : ConnectedClient σ} (h : FilledRead host c c') :
    c'.recvBuff.length % 4 ≠ 0 := by
  obtain ⟨chunk, sock, -, hfilled, rfl⟩ := h
  rw [ConnectedClient.extend, List.length_append, hfilled]
  exact add_askedBytes_mod c.recvBuff.length

/-- Before a second or later read the buffer does not hold a whole number of
words. -/
theorem ReadsAgain.filledReads {c : ConnectedClient σ} {l : ConnectedClient σ × ℕ}
    (h : ReadsAgain host c l) :
    FilledReads host c l.1 ∧ l.2 = l.1.recvBuff.length ∧ l.1.recvBuff.length % 4 ≠ 0 := by
  induction h with
  | single hagain =>
      obtain ⟨hfilled, hlength⟩ := readAgain_again hagain
      exact ⟨.single hfilled, hlength, hfilled.length_mod⟩
  | @tail l₁ l₂ _ hagain ih =>
      obtain ⟨hreads, hlength, -⟩ := ih
      rw [hlength] at hagain
      obtain ⟨hfilled, hlength'⟩ := readAgain_again hagain
      exact ⟨hreads.tail hfilled, hlength', hfilled.length_mod⟩

/-- A beginning of a stream of messages made up of words ends inside a message if
it does not consist of words. -/
theorem endsInside_of_isPrefix {fs : List (List Byte)} {bytes : List Byte}
    (hfs : ∀ f ∈ fs, wire.IsFrame f) (hwords : ∀ f ∈ fs, 4 ∣ f.length)
    (hfront : bytes <+: fs.flatten) (hmod : bytes.length % 4 ≠ 0) : EndsInside fs bytes := by
  obtain ⟨r, hr⟩ := hfront
  obtain ⟨gs, hs, t, rfl, rfl, ht, hrest⟩ :=
    Framing.exists_cut hfs Framing.incomplete_nil (hr.trans (List.append_nil _).symm)
  rw [List.append_nil] at hrest
  have hne : t ≠ [] := by
    rintro rfl
    rw [List.append_nil] at hmod
    have hdvd : 4 ∣ gs.flatten.length :=
      Framing.dvd_length_flatten fun g hg => hwords g (by simp [hg])
    exact hmod (Nat.mod_eq_zero_of_dvd hdvd)
  cases hs with
  | nil => exact absurd (List.append_eq_nil_iff.mp hrest).1 hne
  | cons f hs =>
      have hnot : ¬f <+: t := ht.noFrame f (hfs f (by simp))
      rw [List.flatten_cons] at hrest
      have hfront : t <+: f :=
        (List.prefix_or_prefix_of_prefix ⟨_, hrest⟩ (List.prefix_append _ _)).resolve_right hnot
      refine ⟨gs, f, hs, t, rfl, rfl, hne, hfront, ?_⟩
      rintro rfl
      exact hnot List.prefix_rfl

theorem recvMoreData_returns {fuel : ℕ} {c c' : ConnectedClient σ}
    (h : recvMoreData host fuel c = some (.ok (), c')) :
    ∃ bytes, bytes ≠ [] ∧ c'.recvBuff = c.recvBuff ++ bytes := by
  obtain ⟨c₁, hreads, hlast⟩ := recvMoreData_reads h
  obtain ⟨bytes, -, hbuff⟩ := hreads.received
  cases hlast with
  | @short chunk sock hread hne hlt =>
      refine ⟨bytes ++ chunk, List.append_ne_nil_of_right_ne_nil _ hne, ?_⟩
      rw [ConnectedClient.extend, hbuff, List.append_assoc]

/-- On a stream `fs` of messages made up of words, at a boundary of which the
buffer begins, every second or later read of a call is made while the bytes
received end inside a message, and a call that returns has added bytes. -/
theorem readsAgain_endsInside {fs gs : List (List Byte)} {c : ConnectedClient σ}
    (hfs : ∀ f ∈ fs, wire.IsFrame f) (hwords : ∀ f ∈ fs, 4 ∣ f.length) (hgs : gs <+: fs)
    (hboundary : c.serverSock.received = gs.flatten ++ c.recvBuff) :
    (∀ l, ReadsAgain host c l → l.1.serverSock.received <+: fs.flatten →
      EndsInside fs l.1.serverSock.received) ∧
    ∀ fuel c', recvMoreData host fuel c = some (.ok (), c') →
      ∃ bytes, bytes ≠ [] ∧ c'.recvBuff = c.recvBuff ++ bytes := by
  refine ⟨?_, fun fuel c' h => recvMoreData_returns h⟩
  intro l hagain hstream
  obtain ⟨hreads, -, hmod⟩ := hagain.filledReads
  obtain ⟨bytes, hreceived, hbuff⟩ := hreads.received
  apply endsInside_of_isPrefix hfs hwords hstream
  have hdvd := Framing.dvd_length_flatten fun g hg => hwords g (hgs.subset hg)
  rw [hreceived, hboundary, List.append_assoc, ← hbuff, List.length_append]
  omega

theorem filledRead_boundedServer {stream : List Byte} (h : 1001 ≤ stream.length) :
    FilledRead (boundedServer 2000).toHost (.connect stream)
      ((ConnectedClient.connect stream).extend ⟨stream.drop 1001, stream.take 1001⟩
        (stream.take 1001)) := by
  refine ⟨stream.take 1001, ⟨stream.drop 1001, stream.take 1001⟩, ?_, ?_, rfl⟩
  · simp [Host.readFrom, boundedServer, ConnectedClient.connect, askedBytes, recvBlockSize]
  · rw [List.length_take, Nat.min_eq_left h]
    simp [ConnectedClient.connect, askedBytes, recvBlockSize]

/-- A message of 1004 bytes, of which the first read takes 1001. -/
def longMessage : List Byte :=
  MessageHeader.bytes ⟨1, 0, 1004⟩ ++ List.replicate 996 0

theorem readsAgain_endsInside_longMessage :
    ∃ l, ReadsAgain (boundedServer 2000).toHost (.connect longMessage) l ∧
      EndsInside [longMessage] l.1.serverSock.received := by
  have hlength : longMessage.length = 1004 := by
    rw [longMessage, List.length_append, List.length_replicate, MessageHeader.bytes_length]
    rfl
  have hframe : wire.IsFrame longMessage := isFrame_bytes (by rw [List.length_replicate]; rfl)
  have hread := filledRead_boundedServer (show 1001 ≤ longMessage.length by omega)
  generalize longMessage = m at hlength hframe hread
  have hagain : ReadsAgain (boundedServer 2000).toHost (.connect m) _ := .single hread.again
  have hnone : [] <+: [m] := List.nil_prefix
  refine ⟨_, hagain, ?_⟩
  refine (readsAgain_endsInside ?_ ?_ hnone ?_).1 _ hagain ?_
  · simpa using hframe
  · simp [hlength]
  · rfl
  · simpa [ConnectedClient.extend] using List.take_prefix 1001 m

end Waylander
