import Mathlib.Algebra.BigOperators.Ring.List
import Waylander.Wire.RoundTrip

/-!
# The wire format of messages

A reference encoder, written from the format and not from the code: words byte
by byte from the least significant end, blocks filled up to whole words, and a
header whose second word is `size << 16 | opcode`.  The contents of padding are
not part of the format, so a position of the result is a byte or unspecified.

What `append` adds to a buffer agrees with it at every byte that it specifies.
-/

namespace Waylander

open LittleEndian Buffer

/-! ## The format -/

/-- Bytes as the format lays them down; it does not say what padding contains. -/
abbrev WireFormat := List (Option Byte)

namespace WireFormat

def word (w : BitVec 32) : WireFormat :=
  [some (w.extractLsb' 0 8), some (w.extractLsb' 8 8), some (w.extractLsb' 16 8),
    some (w.extractLsb' 24 8)]

/-- The bytes, and up to three more that complete the last word. -/
def block (bytes : List Byte) : WireFormat :=
  bytes.map some ++ List.replicate (3 - (bytes.length + 3) % 4) none

def argument : Argument → WireFormat
  | .static p => word p.toWord
  | .wstring str => word (BitVec.ofNat 32 (str.length + 1)) ++ block (str ++ [0])
  | .warray arr => word (BitVec.ofNat 32 arr.length) ++ block arr
  | .wfd _ => []

def payload (msg : Message) : WireFormat :=
  msg.arguments.flatMap argument

/-- The number of bytes of the whole message, the two words of its header
included. -/
def size (msg : Message) : ℕ :=
  8 + (payload msg).length

def message (obj : Wobject) (msg : Message) : WireFormat :=
  word obj ++
    (word (BitVec.ofNat 32 (size msg) <<< 16 ||| msg.opcode.setWidth 32) ++ payload msg)

/-- The descriptors that accompany the message. -/
def fds (msg : Message) : List Wfd :=
  msg.arguments.filterMap fun
    | .wfd fd => some fd
    | _ => none

/-- `bytes` is as long as the format says and has every byte that it specifies. -/
def Agrees (format : WireFormat) (bytes : List Byte) : Prop :=
  List.Forall₂ (fun specified byte => ∀ b ∈ specified, byte = b) format bytes

/-! ## Agreement -/

theorem Agrees.append {format format' : WireFormat} {bytes bytes' : List Byte}
    (h : Agrees format bytes) (h' : Agrees format' bytes') :
    Agrees (format ++ format') (bytes ++ bytes') :=
  List.rel_append h h'

theorem Agrees.length_eq {format : WireFormat} {bytes : List Byte} (h : Agrees format bytes) :
    format.length = bytes.length :=
  List.Forall₂.length_eq h

theorem agrees_map_some (bytes : List Byte) : Agrees (bytes.map some) bytes := by
  induction bytes with
  | nil => exact .nil
  | cons b bytes ih => exact .cons (by simp) ih

theorem agrees_replicate_none (bytes : List Byte) :
    Agrees (List.replicate bytes.length none) bytes := by
  induction bytes with
  | nil => exact .nil
  | cons b bytes ih => exact .cons (by simp) ih

theorem word_eq (w : BitVec 32) : word w = (toBytes 4 w.toNat).map some := by
  simp [word, toBytes, BitVec.extractLsb', Nat.shiftRight_eq_div_pow, Nat.div_div_eq_div_mul]

theorem agrees_word (w : BitVec 32) : Agrees (word w) (toBytes 4 w.toNat) := by
  rw [word_eq]
  exact agrees_map_some _

theorem agrees_length_word {n : ℕ} (h : n < 2 ^ 32) :
    Agrees (word (BitVec.ofNat 32 n)) (toBytes 4 n) := by
  have hword := agrees_word (BitVec.ofNat 32 n)
  rwa [BitVec.toNat_ofNat, Nat.mod_eq_of_lt h] at hword

/-- The two ways of computing the number of padding bytes. -/
theorem agrees_block (bytes : List Byte) {pad : List Byte}
    (h : pad.length = roundUptoMultipleOf 4 (4 + bytes.length)) :
    Agrees (block bytes) (bytes ++ pad) := by
  have hpad : 3 - (bytes.length + 3) % 4 = pad.length := by
    rw [h, roundUptoMultipleOf]
    omega
  rw [block, hpad]
  exact (agrees_map_some bytes).append (agrees_replicate_none pad)

/-- The header's opcode and size make up one word. -/
theorem header_word {n : ℕ} (h : n < 2 ^ 16) (opcode : Wopcode) :
    Agrees (word (BitVec.ofNat 32 n <<< 16 ||| opcode.setWidth 32))
      (toBytes 2 opcode.toNat ++ toBytes 2 n) := by
  have hopcode : opcode.toNat < 256 ^ 2 := opcode.isLt
  have hvalue : (BitVec.ofNat 32 n <<< 16 ||| opcode.setWidth 32).toNat =
      opcode.toNat + 256 ^ 2 * n := by
    have hor := Nat.shiftLeft_add_eq_or_of_lt (i := 16) (by simpa using hopcode) n
    have hshift : (BitVec.ofNat 32 n <<< 16).toNat = n <<< 16 := by
      rw [BitVec.toNat_shiftLeft, BitVec.toNat_ofNat, Nat.shiftLeft_eq, Nat.shiftLeft_eq]
      omega
    have hextend : (opcode.setWidth 32).toNat = opcode.toNat := by
      rw [BitVec.toNat_setWidth]
      omega
    rw [BitVec.toNat_or, hshift, hextend, ← hor, Nat.shiftLeft_eq]
    omega
  rw [LittleEndian.toBytes_append_toBytes 2 2 hopcode, ← hvalue]
  exact agrees_word _

/-! ## What `append` adds -/

variable (stale : ℕ → Byte)

theorem agrees_encode {arg : Argument} (h : arg.lengthWord < 2 ^ 32) (start : ℕ) :
    Agrees (argument arg) (arg.encode stale start) := by
  cases arg with
  | static p =>
      have hword := agrees_word p.toWord
      simpa [argument, Argument.encode, Argument.contents, Argument.padding,
        roundUptoMultipleOf, fresh] using hword
  | wstring str =>
      have hpad : (fresh stale (start + (Argument.wstring str).contents.length)
          (Argument.wstring str).padding).length =
            roundUptoMultipleOf 4 (4 + (str ++ [0]).length) := by
        simp [Argument.padding, Argument.contents]
      have hblock := agrees_block (str ++ [0]) hpad
      have hboth := (agrees_length_word h).append hblock
      simpa [argument, Argument.encode, Argument.contents, Argument.lengthWord] using hboth
  | warray arr =>
      have hpad : (fresh stale (start + (Argument.warray arr).contents.length)
          (Argument.warray arr).padding).length = roundUptoMultipleOf 4 (4 + arr.length) := by
        simp [Argument.padding, Argument.contents]
      have hblock := agrees_block arr hpad
      have hboth := (agrees_length_word h).append hblock
      simpa [argument, Argument.encode, Argument.contents, Argument.lengthWord] using hboth
  | wfd fd => simpa [Argument.encode, Argument.contents, Argument.padding, argument,
      roundUptoMultipleOf, fresh] using agrees_replicate_none []

theorem length_argument (arg : Argument) : (argument arg).length = arg.encodedSize := by
  cases arg with
  | static p =>
      simp [argument, word, Argument.encodedSize, Argument.padding, Argument.contents,
        roundUptoMultipleOf]
  | wstring str =>
      simp only [argument, block, word, Argument.encodedSize, Argument.padding,
        Argument.contents, roundUptoMultipleOf, List.length_append, List.length_map,
        List.length_replicate, List.length_cons, List.length_nil, toBytes_length]
      omega
  | warray arr =>
      simp only [argument, block, word, Argument.encodedSize, Argument.padding,
        Argument.contents, roundUptoMultipleOf, List.length_append, List.length_map,
        List.length_replicate, List.length_cons, List.length_nil, toBytes_length]
      omega
  | wfd fd =>
      simp [argument, Argument.encodedSize, Argument.padding, Argument.contents,
        roundUptoMultipleOf]

theorem length_payload (msg : Message) : (payload msg).length = argumentsSize msg.arguments := by
  rw [payload, List.length_flatMap, argumentsSize]
  simp only [length_argument]

theorem length_message (obj : Wobject) (msg : Message) :
    (message obj msg).length = msg.encodedSize := by
  simp [message, word, length_payload, Message.encodedSize, messageHeaderSize]
  omega

theorem agrees_encodeArguments {args : List Argument}
    (h : ∀ arg ∈ args, arg.lengthWord < 2 ^ 32) (start : ℕ) :
    Agrees (args.flatMap argument) (encodeArguments stale start args) := by
  induction args generalizing start with
  | nil => exact .nil
  | cons arg args ih =>
      rw [List.flatMap_cons, encodeArguments]
      apply Agrees.append
      · exact agrees_encode stale (h arg (by simp)) start
      · exact ih (fun a ha => h a (by simp [ha])) _

theorem agrees_message {msg : Message} (h : msg.encodedSize < 2 ^ 16) (obj : Wobject)
    (start : ℕ) : Agrees (message obj msg) (msg.encode stale start obj) := by
  have hsize : size msg = msg.encodedSize := by
    rw [size, length_payload, Message.encodedSize, messageHeaderSize]
  have hpayload := agrees_encodeArguments stale
    (Message.assertionsPass_of_encodedSize_lt h) (start + messageHeaderSize)
  rw [message, hsize, Message.encode, MessageHeader.bytes, Message.header,
    BitVec.toNat_ofNat, Nat.mod_eq_of_lt h]
  simp only [List.append_assoc]
  apply (agrees_word obj).append
  rw [← List.append_assoc (toBytes 2 msg.opcode.toNat)]
  exact (header_word h msg.opcode).append hpayload

theorem fds_eq (msg : Message) : fds msg = msg.arguments.flatMap Argument.fds := by
  rw [fds]
  induction msg.arguments with
  | nil => rfl
  | cons arg args ih => cases arg <;> simp [Argument.fds, ih]

end WireFormat

section Append

variable (stale : ℕ → Byte)

theorem append_agrees {msg : Message} {obj : Wobject}
    (h : (WireFormat.message obj msg).length < 2 ^ 16) (buf : MessageBuffer) :
    ∃ block, append .unchecked stale buf obj msg =
        .ok { buff := buf.buff ++ block, fdBuff := buf.fdBuff ++ WireFormat.fds msg } ∧
      (WireFormat.message obj msg).Agrees block := by
  rw [WireFormat.length_message] at h
  have hmsg := Message.assertionsPass_of_encodedSize_lt h
  refine ⟨msg.encode stale buf.buff.length obj, ?_, WireFormat.agrees_message stale h obj _⟩
  rw [append_unchecked stale hmsg, WireFormat.fds_eq]

theorem four_dvd_encodedSize (msg : Message) : 4 ∣ msg.encodedSize := by
  have hargs : 4 ∣ argumentsSize msg.arguments := by
    apply List.dvd_sum
    intro size hsize
    obtain ⟨arg, -, rfl⟩ := List.mem_map.mp hsize
    exact dvd_add_roundUptoMultipleOf (by decide) _
  exact Nat.dvd_add (by decide) hargs

/-- Whole words are appended to whole words. -/
theorem four_dvd_appendAll {msgs : List (Wobject × Message)}
    (h : ∀ m ∈ msgs, m.2.AssertionsPass) {buf : MessageBuffer} (hbuf : 4 ∣ buf.buff.length) :
    ∃ buf', appendAll .unchecked stale buf msgs = .ok buf' ∧ 4 ∣ buf'.buff.length := by
  induction msgs generalizing buf with
  | nil => exact ⟨buf, rfl, hbuf⟩
  | cons m msgs ih =>
      have hhead := append_unchecked stale (h m (by simp)) buf m.1
      rw [appendAll, List.foldlM_cons, hhead]
      apply ih (fun m hm => h m (by simp [hm]))
      rw [List.length_append, Message.encode_length]
      exact Nat.dvd_add hbuf (four_dvd_encodedSize m.2)

/-- A message that fits the size field is appended as the format says, and after
any number of such messages the buffer consists of whole words. -/
theorem append_writes_format :
    (∀ (buf : MessageBuffer) (obj : Wobject) (msg : Message),
      (WireFormat.message obj msg).length < 2 ^ 16 → ∃ block,
        append .unchecked stale buf obj msg =
            .ok { buff := buf.buff ++ block, fdBuff := buf.fdBuff ++ WireFormat.fds msg } ∧
          (WireFormat.message obj msg).Agrees block) ∧
    ∀ (buf : MessageBuffer) (msgs : List (Wobject × Message)),
      (∀ m ∈ msgs, (WireFormat.message m.1 m.2).length < 2 ^ 16) → 4 ∣ buf.buff.length →
        ∃ buf', appendAll .unchecked stale buf msgs = .ok buf' ∧ 4 ∣ buf'.buff.length := by
  constructor
  · intro buf obj msg h
    exact append_agrees stale h buf
  · intro buf msgs h hbuf
    apply four_dvd_appendAll stale _ hbuf
    intro m hm
    have hsize := h m hm
    rw [WireFormat.length_message] at hsize
    exact Message.assertionsPass_of_encodedSize_lt hsize

theorem append_writes_format_two :
    (∃ block,
      append .unchecked (fun _ => 0) {} 1 ⟨5, [.wstring [104, 105], .wfd ⟨3⟩]⟩ =
          .ok { buff := [] ++ block, fdBuff := [] ++ [⟨3⟩] } ∧
        (WireFormat.message 1 ⟨5, [.wstring [104, 105], .wfd ⟨3⟩]⟩).Agrees block) ∧
    ∃ buf', appendAll .unchecked (fun _ => 0) {}
        [(1, ⟨5, [.wstring [104, 105], .wfd ⟨3⟩]⟩), (2, ⟨0, [.warray [7]]⟩)] = .ok buf' ∧
      4 ∣ buf'.buff.length :=
  ⟨(append_writes_format (fun _ => 0)).1 {} 1 ⟨5, [.wstring [104, 105], .wfd ⟨3⟩]⟩ (by decide),
    (append_writes_format (fun _ => 0)).2 {}
      [(1, ⟨5, [.wstring [104, 105], .wfd ⟨3⟩]⟩), (2, ⟨0, [.warray [7]]⟩)] (by decide)
      (by decide)⟩

/-- The string "hi" and its terminator, padded by one unspecified byte. -/
example : WireFormat.message 1 ⟨5, [.wstring [104, 105]]⟩ =
    [some 1, some 0, some 0, some 0, some 5, some 0, some 16, some 0,
      some 3, some 0, some 0, some 0, some 104, some 105, some 0, none] := by decide

end Append

end Waylander
