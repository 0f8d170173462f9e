import Waylander.Wire.MessageInterperter

/-!
# Round trip over the wire

Messages appended to an empty buffer are cut apart again by the parser and
interpreted as the messages appended.  The writer's running offset and the
reader's are the same because an argument's encoding has the length that the
reader adds to `bytes_read`, whatever its padding contains.
-/

namespace Waylander

open LittleEndian Buffer

variable (stale : ℕ → Byte)

/-- Reading one argument back from where it was written. -/
theorem readElement32aligned_encode (left right : List Byte) {arg : Argument}
    (hfd : arg.type ≠ .wfd) (hlength : arg.lengthWord < 2 ^ 32) (start : ℕ) :
    readElement32aligned .unchecked (left ++ (arg.encode stale start ++ right)) left.length
        arg.type =
      .ok (arg, left.length + arg.encodedSize) := by
  cases arg with
  | static p =>
      simpa [Argument.encode, Argument.contents, Argument.encodedSize, Argument.padding,
        Argument.type, roundUptoMultipleOf, fresh] using
        readElement32aligned_static .unchecked left right p.type p.toWord
  | wstring str =>
      have hpad : (fresh stale (start + (Argument.wstring str).contents.length)
          (Argument.wstring str).padding).length =
            roundUptoMultipleOf 4 (4 + (str.length + 1)) := by
        simp [Argument.padding, Argument.contents]
      simpa [Argument.encode, Argument.contents, Argument.encodedSize, Argument.padding,
        Argument.type] using
        readElement32aligned_wstring .unchecked left right hlength 0 hpad
  | warray arr =>
      have hpad : (fresh stale (start + (Argument.warray arr).contents.length)
          (Argument.warray arr).padding).length = roundUptoMultipleOf 4 (4 + arr.length) := by
        simp [Argument.padding, Argument.contents]
      simpa [Argument.encode, Argument.contents, Argument.encodedSize, Argument.padding,
        Argument.type] using
        readElement32aligned_warray .unchecked left right hlength hpad (by simp [Build.unchecked])
  | wfd fd => exact absurd rfl hfd

theorem readElements_encodeArguments (left right : List Byte) {args : List Argument}
    (hfd : ∀ arg ∈ args, arg.type ≠ .wfd) (hlength : ∀ arg ∈ args, arg.lengthWord < 2 ^ 32)
    (start : ℕ) :
    readElements .unchecked (left ++ (encodeArguments stale start args ++ right)) left.length
        (args.map Argument.type) =
      .ok args := by
  induction args generalizing left start with
  | nil => rfl
  | cons arg args ih =>
      have hhead := readElement32aligned_encode stale left
        (encodeArguments stale (start + arg.encodedSize) args ++ right)
        (hfd arg (by simp)) (hlength arg (by simp)) start
      have htail := ih (left ++ arg.encode stale start) (fun a ha => hfd a (by simp [ha]))
        (fun a ha => hlength a (by simp [ha])) (start + arg.encodedSize)
      simp only [List.append_assoc, List.length_append, Argument.encode_length] at htail
      simp only [List.map_cons, readElements, encodeArguments, List.append_assoc, hhead, htail,
        bind, Except.bind, pure, Except.pure]

/-- The payload of an appended message is interpreted as the message. -/
theorem interpertMessagePayload_encodeArguments {msg : Message} (hfd : msg.FdFree)
    (hmsg : msg.AssertionsPass) (start : ℕ) :
    interpertMessagePayload .unchecked (encodeArguments stale start msg.arguments) msg.types =
      .ok msg.arguments := by
  have hargs : ∀ arg ∈ msg.arguments, arg.type ≠ .wfd := by
    intro arg harg htype
    exact hfd (htype ▸ List.mem_map_of_mem harg)
  simpa [interpertMessagePayload, Message.types] using
    readElements_encodeArguments stale [] [] hargs hmsg start

/-! ## Whole messages -/

/-- A message that fits the size field passes the assertions. -/
theorem Message.assertionsPass_of_encodedSize_lt {msg : Message}
    (h : msg.encodedSize < 2 ^ 16) : msg.AssertionsPass := by
  intro arg harg
  have hsize : arg.encodedSize ≤ argumentsSize msg.arguments :=
    List.le_sum_of_mem (List.mem_map_of_mem harg)
  have hword : arg.lengthWord ≤ arg.encodedSize := by
    cases arg <;> simp [Argument.lengthWord, Argument.encodedSize, Argument.contents] <;> omega
  rw [encodedSize] at h
  omega

theorem Message.isFrame_encode {msg : Message} (h : msg.encodedSize < 2 ^ 16) (start : ℕ)
    (obj : Wobject) : wire.IsFrame (msg.encode stale start obj) := by
  apply isFrame_bytes
  rw [header, BitVec.toNat_ofNat, Nat.mod_eq_of_lt h, encodeArguments_length, encodedSize]

/-- The frames of messages appended one after another. -/
def encodeFrames : ℕ → List (Wobject × Message) → List (List Byte)
  | _, [] => []
  | start, m :: msgs =>
      m.2.encode stale start m.1 :: encodeFrames (start + m.2.encodedSize) msgs

theorem isFrame_of_mem_encodeFrames {msgs : List (Wobject × Message)}
    (h : ∀ m ∈ msgs, m.2.encodedSize < 2 ^ 16) (start : ℕ) :
    ∀ f ∈ encodeFrames stale start msgs, wire.IsFrame f := by
  induction msgs generalizing start with
  | nil => simp [encodeFrames]
  | cons m msgs ih =>
      intro f hf
      rcases List.mem_cons.mp hf with rfl | hf
      · exact m.2.isFrame_encode stale (h m (by simp)) start m.1
      · exact ih (fun m hm => h m (by simp [hm])) _ f hf

/-- Appending leaves the earlier bytes alone and adds one frame for each
message. -/
theorem appendAll_eq (build : Build) {msgs : List (Wobject × Message)}
    (h : ∀ m ∈ msgs, m.2.AssertionsPass) (hne : ∀ m ∈ msgs, build.Addresses m.2.arguments)
    (buf : MessageBuffer) :
    appendAll build stale buf msgs =
      .ok
        { buff := buf.buff ++ (encodeFrames stale buf.buff.length msgs).flatten
          fdBuff := buf.fdBuff ++ msgs.flatMap fun m => m.2.arguments.flatMap Argument.fds } := by
  induction msgs generalizing buf with
  | nil => simp [appendAll, encodeFrames, pure, Except.pure]
  | cons m msgs ih =>
      have hhead := append_eq build stale (h m (by simp)) (hne m (by simp)) buf m.1
      have htail := ih (fun m hm => h m (by simp [hm])) (fun m hm => hne m (by simp [hm]))
      rw [appendAll, List.foldlM_cons, hhead]
      refine (htail _).trans ?_
      simp [encodeFrames]

/-- What appending does whenever it returns. -/
theorem appendAll_ok {build : Build} {stale : ℕ → Byte} {buf buf' : MessageBuffer}
    {msgs : List (Wobject × Message)} (h : appendAll build stale buf msgs = .ok buf') :
    buf' =
      { buff := buf.buff ++ (encodeFrames stale buf.buff.length msgs).flatten
        fdBuff := buf.fdBuff ++ msgs.flatMap fun m => m.2.arguments.flatMap Argument.fds } := by
  induction msgs generalizing buf with
  | nil =>
      cases h
      simp [encodeFrames]
  | cons m msgs ih =>
      rw [appendAll, List.foldlM_cons] at h
      cases happend : append build stale buf m.1 m.2 with
      | error e =>
          rw [happend] at h
          cases h
      | ok buf'' =>
          rw [happend] at h
          obtain ⟨-, rfl⟩ := append_ok build stale happend
          rw [ih h]
          simp [encodeFrames]

/-- `pm` carries the object id and the opcode of the pair, and its payload is
interpreted as the pair's message. -/
def Carries (m : Wobject × Message) (pm : ParsedMessage) : Prop :=
  pm.objectId = m.1 ∧ pm.opcode = m.2.opcode ∧
    interpertMessagePayload .unchecked pm.arguments m.2.types = .ok m.2.arguments

theorem carries_ofFrame_encode {m : Wobject × Message} (hfd : m.2.FdFree)
    (h : m.2.encodedSize < 2 ^ 16) (start : ℕ) :
    Carries m (.ofFrame (m.2.encode stale start m.1)) := by
  rw [Message.encode, ParsedMessage.ofFrame_bytes]
  exact ⟨rfl, rfl, interpertMessagePayload_encodeArguments stale hfd
    (Message.assertionsPass_of_encodedSize_lt h) _⟩

theorem forall₂_carries {msgs : List (Wobject × Message)}
    (hfd : ∀ m ∈ msgs, m.2.FdFree) (h : ∀ m ∈ msgs, m.2.encodedSize < 2 ^ 16) (start : ℕ) :
    List.Forall₂ Carries msgs
      ((encodeFrames stale start msgs).map ParsedMessage.ofFrame) := by
  induction msgs generalizing start with
  | nil => exact .nil
  | cons m msgs ih =>
      exact .cons (carries_ofFrame_encode stale (hfd m (by simp)) (h m (by simp)) start)
        (ih (fun m hm => hfd m (by simp [hm])) (fun m hm => h m (by simp [hm])) _)

/-- Messages that fit the size field survive the way over the wire: appended to
an empty buffer and parsed from the released data, they come back in order. -/
theorem parsedMessageGenerator_appendAll (msgs : List (Wobject × Message))
    (hfd : ∀ m ∈ msgs, m.2.FdFree) (h : ∀ m ∈ msgs, m.2.encodedSize < 2 ^ 16) :
    ∃ buf, appendAll .unchecked stale {} msgs = .ok buf ∧
      (parsedMessageGenerator (releaseData buf).1).2 = none ∧
      List.Forall₂ Carries msgs (parsedMessageGenerator (releaseData buf).1).1 := by
  refine ⟨_, appendAll_eq stale .unchecked
    (fun m hm => Message.assertionsPass_of_encodedSize_lt (h m hm))
    (fun m _ => addresses_unchecked _) {}, ?_⟩
  have hframes := isFrame_of_mem_encodeFrames stale h 0
  simp only [releaseData, List.nil_append, List.length_nil,
    parsedMessageGenerator_flatten hframes, true_and]
  exact forall₂_carries stale hfd h 0

theorem parsedMessageGenerator_appendAll_two :
    ∃ buf, appendAll .unchecked (fun _ => 0) {}
        [(1, ⟨0, [.wstring [], .warray [7]]⟩), (2, ⟨5, [.static (.wuint 9)]⟩)] = .ok buf ∧
      (parsedMessageGenerator (releaseData buf).1).2 = none ∧
      List.Forall₂ Carries
        [(1, ⟨0, [.wstring [], .warray [7]]⟩), (2, ⟨5, [.static (.wuint 9)]⟩)]
        (parsedMessageGenerator (releaseData buf).1).1 :=
  parsedMessageGenerator_appendAll (fun _ => 0) _
    (by simp [Message.FdFree, Message.types, Argument.type]) (by decide)

end Waylander
