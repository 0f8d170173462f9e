import Waylander.Client.RecvMoreData

/-!
# Whole messages in the receive buffer

`get_recd_bytes_forming_whole_messages` walks over the buffer by the size fields
and stops at the first message that is not there as a whole.  Unlike the parser
it accepts any size field, also one that does not cover the header.
-/

namespace Waylander

open Goto

/-- From the label `try_next_msg` to the next jump. -/
def tryNextMsg (recvBuff : List Byte) (bytesFormingWholeMessages : ℕ) :
    Jump ℕ (List Byte) :=
  let bytesRequiredForNextMsgSize := bytesFormingWholeMessages + messageHeaderSize
  if recvBuff.length < bytesRequiredForNextMsgSize then
    .exit (recvBuff.take bytesFormingWholeMessages)
  else
    let sizeOfNextMsg := uintAt recvBuff (bytesFormingWholeMessages + sizeOffset) 2
    let bytesPotentiallyFormingWholeMessages := bytesFormingWholeMessages + sizeOfNextMsg
    let potentialBytesFit := bytesPotentiallyFormingWholeMessages ≤ recvBuff.length
    if potentialBytesFit then
      .again bytesPotentiallyFormingWholeMessages
    else
      .exit (recvBuff.take bytesFormingWholeMessages)

/-- Inspect `recv_buff_` and get bytes from beginning that are checked to form
whole messages. -/
def getRecdBytesFormingWholeMessages (fuel : ℕ) (recvBuff : List Byte) :
    Option (List Byte) :=
  run (fun _ n => some (tryNextMsg recvBuff n)) fuel 0

/-! ## The scan as a walk -/

theorem tryNextMsg_incomplete {b : List Byte} {n : ℕ} (hn : n ≤ b.length)
    (h : wire.Incomplete (b.drop n)) : tryNextMsg b n = .exit (b.take n) := by
  rw [Framing.Incomplete, wire_header, wire_size, List.length_drop, sizeField, uintAt_drop] at h
  simp only [tryNextMsg]
  rcases h with h | h
  · have hshort : b.length < n + messageHeaderSize := by omega
    rw [if_pos hshort]
  · have hcut : ¬n + uintAt b (n + sizeOffset) 2 ≤ b.length := by omega
    rw [if_neg hcut, ite_self]

theorem tryNextMsg_follows {b ys : List Byte} {n : ℕ} (h : wire.Follows (b.drop n) ys) :
    ∃ n', n' = n + sizeField (b.drop n) ∧ n' ≤ b.length ∧ ys = b.drop n' ∧
      tryNextMsg b n = .again n' := by
  obtain ⟨hheader, hfits, rfl⟩ := h
  rw [wire_header, List.length_drop] at hheader
  rw [wire_size, List.length_drop] at hfits
  have hpos : 0 < messageHeaderSize := by decide
  refine ⟨_, rfl, by omega, by rw [List.drop_drop, wire_size], ?_⟩
  rw [sizeField, uintAt_drop] at hfits ⊢
  have hlong : ¬b.length < n + messageHeaderSize := by omega
  have hfits' : n + uintAt b (n + sizeOffset) 2 ≤ b.length := by omega
  simp only [tryNextMsg]
  rw [if_neg hlong, if_pos hfits']

/-- The walk over `b` leads behind `span`, where no whole message begins. -/
structure Scan (b span rest : List Byte) : Prop where
  split : b = span ++ rest
  reached : wire.Reached b rest
  incomplete : wire.Incomplete rest

theorem getRecdBytes_spec {fuel : ℕ} {b span : List Byte}
    (h : getRecdBytesFormingWholeMessages fuel b = some span) : ∃ rest, Scan b span rest := by
  let Inv : ℕ → Prop := fun n => n ≤ b.length ∧ wire.Reached b (b.drop n)
  have hblock : ∀ (_ : ℕ) n j, Inv n → some (tryNextMsg b n) = some j →
      j.Satisfies Inv fun span => ∃ rest, Scan b span rest := by
    rintro - n j ⟨hn, hreached⟩ hj
    rcases wire.incomplete_or_follows (b.drop n) with hinc | hstep
    · rw [tryNextMsg_incomplete hn hinc] at hj
      cases hj
      exact ⟨b.drop n, (List.take_append_drop n b).symm, hreached, hinc⟩
    · obtain ⟨n', -, hn', hdrop, hagain⟩ := tryNextMsg_follows hstep
      rw [hagain] at hj
      cases hj
      exact ⟨hn', hreached.tail (hdrop ▸ hstep)⟩
  have hstart : Inv 0 := ⟨Nat.zero_le _, by rw [List.drop_zero]; exact .refl⟩
  exact run_invariant hblock hstart h

/-- The scan ends if no size field met on the way is zero. -/
theorem getRecdBytes_ends {b : List Byte}
    (hzero : ∀ c, wire.Reached b c → messageHeaderSize ≤ c.length → sizeField c ≠ 0) :
    Ends fun fuel => getRecdBytesFormingWholeMessages fuel b := by
  let Inv : ℕ → Prop := fun n => n ≤ b.length ∧ wire.Reached b (b.drop n)
  have hblock : ∀ n, Inv n → ∃ j, Yields (fun _ => some (tryNextMsg b n)) j ∧
      j.Satisfies (fun n' => Inv n' ∧ b.length - n' < b.length - n) fun _ => True := by
    rintro n ⟨hn, hreached⟩
    refine ⟨_, yields_some _, ?_⟩
    rcases wire.incomplete_or_follows (b.drop n) with hinc | hstep
    · rw [tryNextMsg_incomplete hn hinc]
      trivial
    · have hsize := hzero _ hreached hstep.1
      obtain ⟨n', hlt, hn', hdrop, hagain⟩ := tryNextMsg_follows hstep
      rw [hagain]
      exact ⟨⟨hn', hreached.tail (hdrop ▸ hstep)⟩, by omega⟩
  have hstart : Inv 0 := ⟨Nat.zero_le _, by rw [List.drop_zero]; exact .refl⟩
  obtain ⟨span, hspan, -⟩ := run_total (fun n => b.length - n) hblock hstart
  exact ⟨span, hspan⟩

/-- A zero size field met on the way is met again and again. -/
theorem getRecdBytes_diverges {b c : List Byte} (hreached : wire.Reached b c)
    (hheader : messageHeaderSize ≤ c.length) (hzero : sizeField c = 0) :
    Diverges fun fuel => getRecdBytesFormingWholeMessages fuel b := by
  let Stuck : ℕ → Prop := fun n => wire.Reached (b.drop n) c
  have hblock : ∀ (_ : ℕ) n, Stuck n →
      ∃ n', Stuck n' ∧ some (tryNextMsg b n) = some (.again n') := by
    intro _ n hn
    have hself : wire.Follows c c := ⟨hheader, by simp [hzero], by simp [hzero]⟩
    rcases Relation.ReflTransGen.cases_head hn with heq | ⟨ys, hstep, hrest⟩
    · rw [← heq] at hself
      obtain ⟨n', hn', -, -, hagain⟩ := tryNextMsg_follows hself
      rw [heq, hzero, Nat.add_zero] at hn'
      subst hn'
      exact ⟨_, hn, by rw [hagain]⟩
    · obtain ⟨n', -, -, rfl, hagain⟩ := tryNextMsg_follows hstep
      exact ⟨n', hrest, by rw [hagain]⟩
  have hstart : Stuck 0 := by
    rwa [← List.drop_zero (l := b)] at hreached
  exact run_diverges hblock hstart

theorem Scan.flatten {fs : List (List Byte)} {t span rest : List Byte}
    (h : Scan (fs.flatten ++ t) span rest) (hfs : ∀ f ∈ fs, wire.IsFrame f)
    (ht : wire.Incomplete t) : span = fs.flatten ∧ rest = t := by
  obtain ⟨hsplit, hreached, hinc⟩ := h
  obtain ⟨gs, hs, rfl, rfl⟩ := Framing.exists_of_reached_flatten hfs ht hreached
  cases hs with
  | nil =>
      rw [List.append_nil] at hsplit ⊢
      exact ⟨(List.append_cancel_right hsplit).symm, rfl⟩
  | cons f hs =>
      have hf := hfs f (by simp)
      rw [List.flatten_cons, List.append_assoc] at hinc
      exact absurd (hf.follows _) hinc.not_follows

/-- Over whole frames followed by an incomplete one the scan returns exactly the
whole frames. -/
theorem getRecdBytes_flatten {fs : List (List Byte)} {t span : List Byte} {fuel : ℕ}
    (hfs : ∀ f ∈ fs, wire.IsFrame f) (ht : wire.Incomplete t)
    (h : getRecdBytesFormingWholeMessages fuel (fs.flatten ++ t) = some span) :
    span = fs.flatten := by
  obtain ⟨rest, hscan⟩ := getRecdBytes_spec h
  exact (hscan.flatten hfs ht).1

/-- The scan of a buffer that is cut off anywhere from a sequence of whole frames
ends and returns all frames that are there as a whole.  It is a function of the
buffer and returns nothing but the span, so the buffer stays as it is. -/
theorem getRecdBytes_maximal {fs : List (List Byte)} {recvBuff : List Byte}
    (hfs : ∀ f ∈ fs, wire.IsFrame f) (hcut : recvBuff <+: fs.flatten) :
    ∃ gs, gs <+: fs ∧
      Yields (fun fuel => getRecdBytesFormingWholeMessages fuel recvBuff) gs.flatten ∧
      gs.flatten <+: recvBuff ∧
      ∀ hs, (∀ h ∈ hs, wire.IsFrame h) → hs.flatten <+: recvBuff → hs <+: gs := by
  obtain ⟨r, hr⟩ := hcut
  obtain ⟨gs, gs', t, rfl, rfl, ht, -⟩ :=
    Framing.exists_cut hfs Framing.incomplete_nil (hr.trans (List.append_nil _).symm)
  have hgs : ∀ g ∈ gs, wire.IsFrame g := fun g hg => hfs g (by simp [hg])
  have hends : Ends fun fuel => getRecdBytesFormingWholeMessages fuel (gs.flatten ++ t) := by
    apply getRecdBytes_ends
    intro c hreached hheader
    have hcover := Framing.header_le_size_of_reached hgs ht hreached hheader
    exact Nat.ne_of_gt (Nat.lt_of_lt_of_le wire.header_pos hcover)
  obtain ⟨span, hspan⟩ := hends
  obtain ⟨fuel, hfuel⟩ := hspan.exists_fuel
  obtain rfl := getRecdBytes_flatten hgs ht hfuel
  refine ⟨gs, List.prefix_append _ _, hspan, List.prefix_append _ _, ?_⟩
  rintro hs hhs ⟨r', hr'⟩
  exact Framing.isPrefix_of_flatten_eq hgs hhs ht.noFrame hr'.symm

/-- A message of 8 bytes, one of 12, of which 9 have come. -/
theorem getRecdBytes_maximal_cut :
    ∃ gs, gs <+: [[1, 0, 0, 0, 0, 0, 8, 0], [2, 0, 0, 0, 0, 0, 12, 0, 7, 0, 0, 0]] ∧
      Yields (fun fuel => getRecdBytesFormingWholeMessages fuel
        [1, 0, 0, 0, 0, 0, 8, 0, 2, 0, 0, 0, 0, 0, 12, 0, 7]) gs.flatten ∧
      gs.flatten <+: [1, 0, 0, 0, 0, 0, 8, 0, 2, 0, 0, 0, 0, 0, 12, 0, 7] ∧
      ∀ hs, (∀ h ∈ hs, wire.IsFrame h) →
        hs.flatten <+: [1, 0, 0, 0, 0, 0, 8, 0, 2, 0, 0, 0, 0, 0, 12, 0, 7] → hs <+: gs :=
  getRecdBytes_maximal (by decide) (by decide)

/-! ## The scan and the parser -/

/-- The parser accepts the span that the scan returns, and the frames of its
messages tile the span, exactly if every size field that the scan met covers the
header. -/
theorem parsedMessageGenerator_getRecdBytes_iff {fuel : ℕ} {b span : List Byte}
    (h : getRecdBytesFormingWholeMessages fuel b = some span) :
    ((parsedMessageGenerator span).2 = none ∧
        ((parsedMessageGenerator span).1.map ParsedMessage.frame).flatten = span) ↔
      ∀ c, wire.Reached b c → messageHeaderSize ≤ c.length → messageHeaderSize ≤ sizeField c := by
  obtain ⟨rest, hsplit, -, hinc⟩ := getRecdBytes_spec h
  constructor
  · rintro ⟨hnone, -⟩ c hreached hheader
    obtain ⟨fs, rest', hfs, hspan, -, hend⟩ := exists_frames_parsedMessageGenerator span
    rw [hnone] at hend
    cases hend
    rw [List.append_nil] at hspan
    rw [hsplit, hspan] at hreached
    exact Framing.header_le_size_of_reached hfs hinc hreached hheader
  · intro hcover
    obtain ⟨fs, t, hfs, ht, rfl⟩ := Framing.exists_frames_of_reached hcover
    rw [getRecdBytes_flatten hfs ht h, parsedMessageGenerator_flatten hfs]
    exact ⟨rfl, congrArg List.flatten (map_frame_ofFrame hfs)⟩

theorem parsedMessageGenerator_getRecdBytes_iff_one :
    ((parsedMessageGenerator [1, 0, 0, 0, 0, 0, 8, 0]).2 = none ∧
        ((parsedMessageGenerator [1, 0, 0, 0, 0, 0, 8, 0]).1.map
          ParsedMessage.frame).flatten = [1, 0, 0, 0, 0, 0, 8, 0]) ↔
      ∀ c, wire.Reached [1, 0, 0, 0, 0, 0, 8, 0, 2] c → messageHeaderSize ≤ c.length →
        messageHeaderSize ≤ sizeField c :=
  parsedMessageGenerator_getRecdBytes_iff (show
    getRecdBytesFormingWholeMessages 2 [1, 0, 0, 0, 0, 0, 8, 0, 2] =
      some [1, 0, 0, 0, 0, 0, 8, 0] by decide)

/-- A size field of 4: the scan takes half of the header for a whole message,
which the parser rejects. -/
theorem getRecdBytes_half_header :
    getRecdBytesFormingWholeMessages 2 [1, 0, 0, 0, 0, 0, 4, 0] = some [1, 0, 0, 0] ∧
      parsedMessageGenerator [1, 0, 0, 0] = ([], some (.logicError
        "Trying to interpert less than 8 bytes as Wayland message header.")) := by
  constructor
  · decide
  · exact parsedMessageGenerator_error (by decide) rfl

end Waylander
