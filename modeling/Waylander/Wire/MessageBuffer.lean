import Mathlib.Algebra.Order.BigOperators.Group.List
import Waylander.Wire.MessageParser

/-!
# The message buffer

`message_buffer::append` translated operation by operation, and the bytes it
adds in closed form.  `buff_` is a `byte_vec`, whose `resize` leaves new
elements uninitialised.  Between two calls of `release_data` every position of
the buffer is created once, so the contents that new elements happen to have
are given by one function `stale` of the position.

Sizes are natural numbers: the sum that `msg_total_size` holds cannot pass
`2 ^ 64` before `resize` has to fail.
-/

namespace Waylander

open LittleEndian Buffer

structure MessageBuffer where
  buff : List Byte := []
  fdBuff : List Wfd := []
  deriving DecidableEq

/-- True if buffer does not contains any data. -/
def MessageBuffer.empty (b : MessageBuffer) : Bool :=
  b.buff.isEmpty && b.fdBuff.isEmpty

/-- The variables captured by `write_element_32aligned`. -/
structure AppendLocals where
  buffer : MessageBuffer
  msgTotalSize : ℕ

variable (build : Build) (stale : ℕ → Byte)

/-- The overload for `Wstring`. -/
def writeWstring (str : List Byte) (l : AppendLocals) : Except Fault AppendLocals := do
  let lengthOfStr := str.length + 1
  let elementSizeWithoutPad := 4 + lengthOfStr
  let elementSize := elementSizeWithoutPad + roundUptoMultipleOf 4 elementSizeWithoutPad
  let buffSizeBefore := l.buffer.buff.length
  let buff := resize stale l.buffer.buff (buffSizeBefore + elementSize)
  if 2 ^ 32 ≤ lengthOfStr then
    throw .assertion
  let buff ← memcpyInto build buff buffSizeBefore (toBytes 4 lengthOfStr)
  let buff ← memcpyInto build buff (buffSizeBefore + 4) str
  let buff ← memcpyInto build buff (buffSizeBefore + elementSizeWithoutPad - 1) [0]
  return { buffer := { l.buffer with buff := buff },
           msgTotalSize := l.msgTotalSize + elementSize }

/-- The overload for `Warray`. -/
def writeWarray (arr : List Byte) (l : AppendLocals) : Except Fault AppendLocals := do
  let elementSizeWithoutPad := 4 + arr.length
  let elementSize := elementSizeWithoutPad + roundUptoMultipleOf 4 elementSizeWithoutPad
  let buffSizeBefore := l.buffer.buff.length
  let buff := resize stale l.buffer.buff (buffSizeBefore + elementSize)
  if 2 ^ 32 ≤ arr.length then
    throw .assertion
  let buff ← memcpyInto build buff buffSizeBefore (toBytes 4 arr.length)
  let buff ← memcpyInto build buff (buffSizeBefore + 4) arr
  return { buffer := { l.buffer with buff := buff },
           msgTotalSize := l.msgTotalSize + elementSize }

/-- The overload for `Wfd`. -/
def writeWfd (fd : Wfd) (l : AppendLocals) : AppendLocals :=
  { l with buffer := { l.buffer with fdBuff := l.buffer.fdBuff ++ [fd] } }

/-- The overload for every other argument. -/
def writeStatic (p : StaticArgument) (l : AppendLocals) : Except Fault AppendLocals := do
  let pad := roundUptoMultipleOf 4 4
  let elementSize := 4 + pad
  let buffSizeBefore := l.buffer.buff.length
  let buff := resize stale l.buffer.buff (buffSizeBefore + elementSize)
  let buff ← memcpyInto build buff buffSizeBefore (toBytes 4 p.toWord.toNat)
  return { buffer := { l.buffer with buff := buff },
           msgTotalSize := l.msgTotalSize + elementSize }

def writeElement32aligned (l : AppendLocals) : Argument → Except Fault AppendLocals
  | .wstring str => writeWstring build stale str l
  | .warray arr => writeWarray build stale arr l
  | .wfd fd => return writeWfd fd l
  | .static p => writeStatic build stale p l

/-- `append`, up to the point where the header is written. -/
def appendArguments (buf : MessageBuffer) (msg : Message) : Except Fault AppendLocals :=
  -- Have room for the header.
  msg.arguments.foldlM (writeElement32aligned build stale)
    { buffer :=
        { buf with buff := resize stale buf.buff (buf.buff.length + messageHeaderSize) }
      msgTotalSize := messageHeaderSize }

def append (buf : MessageBuffer) (obj : Wobject) (msg : Message) :
    Except Fault MessageBuffer := do
  let beginOfHeaderIndex := buf.buff.length
  let l ← appendArguments build stale buf msg
  let narrowedMsgSize : WmessageSize := BitVec.ofNat 16 l.msgTotalSize
  let header : MessageHeader :=
    { objectId := obj, opcode := msg.opcode, size := narrowedMsgSize }
  let buff ← memcpyInto build l.buffer.buff beginOfHeaderIndex header.bytes
  return { l.buffer with buff := buff }

/-- Append every pair in order. -/
def appendAll (buf : MessageBuffer) (msgs : List (Wobject × Message)) :
    Except Fault MessageBuffer :=
  msgs.foldlM (fun b m => append build stale b m.1 m.2) buf

def releaseData (buf : MessageBuffer) : List Byte × MessageBuffer :=
  (buf.buff, { buf with buff := [] })

def releaseFds (buf : MessageBuffer) : List Wfd × MessageBuffer :=
  (buf.fdBuff, { buf with fdBuff := [] })

/-! ## The bytes of an argument -/

/-- The value that `append` asserts to be in the range of `size_type`. -/
def Argument.lengthWord : Argument → ℕ
  | .static _ => 0
  | .wstring str => str.length + 1
  | .warray arr => arr.length
  | .wfd _ => 0

/-- The bytes before the padding. -/
def Argument.contents : Argument → List Byte
  | .static p => toBytes 4 p.toWord.toNat
  | .wstring str => toBytes 4 (str.length + 1) ++ (str ++ [0])
  | .warray arr => toBytes 4 arr.length ++ arr
  | .wfd _ => []

/-- The number of padding bytes. -/
def Argument.padding (arg : Argument) : ℕ :=
  roundUptoMultipleOf 4 arg.contents.length

def Argument.encodedSize (arg : Argument) : ℕ :=
  arg.contents.length + arg.padding

def Argument.fds : Argument → List Wfd
  | .wfd fd => [fd]
  | _ => []

/-- What `write_element_32aligned` adds when the buffer holds `start` bytes. -/
def Argument.encode (start : ℕ) (arg : Argument) : List Byte :=
  arg.contents ++ fresh stale (start + arg.contents.length) arg.padding

@[simp] theorem Argument.encode_length (start : ℕ) (arg : Argument) :
    (arg.encode stale start).length = arg.encodedSize := by
  simp [encode, encodedSize]

/-- Storing a block over the first of the elements that a buffer was just
lengthened by. -/
theorem memcpyInto_fresh (v src : List Byte) {k : ℕ}
    (hk : build.boundsChecked = true → 0 < k) (h : src.length ≤ k) :
    memcpyInto build (v ++ fresh stale v.length k) v.length src =
      .ok (v ++ src ++ fresh stale (v ++ src).length (k - src.length)) := by
  have hi : build.boundsChecked = true → v.length < (v ++ fresh stale v.length k).length := by
    simpa using hk
  rw [memcpyInto_ok hi (by simpa using h), overwrite_append, fresh_drop]
  simp

theorem writeStatic_ok (p : StaticArgument) (l : AppendLocals) :
    writeStatic build stale p l =
      .ok
        { buffer :=
            { l.buffer with
              buff := l.buffer.buff ++
                (Argument.static p).encode stale l.buffer.buff.length }
          msgTotalSize := l.msgTotalSize + (Argument.static p).encodedSize } := by
  have hcopy := memcpyInto_fresh build stale l.buffer.buff (toBytes 4 p.toWord.toNat)
    (k := 4 + roundUptoMultipleOf 4 4) (by simp) (by simp)
  simp only [writeStatic, resize_add, hcopy]
  simp [Argument.encode, Argument.encodedSize, Argument.contents, Argument.padding, bind,
    Except.bind, pure, Except.pure]

/-- The subscript behind the length word of an empty array is one past the end. -/
theorem writeWarray_ok {arr : List Byte} (h : arr.length < 2 ^ 32)
    (hne : build.boundsChecked = true → arr ≠ []) (l : AppendLocals) :
    writeWarray build stale arr l =
      .ok
        { buffer :=
            { l.buffer with
              buff := l.buffer.buff ++
                (Argument.warray arr).encode stale l.buffer.buff.length }
          msgTotalSize := l.msgTotalSize + (Argument.warray arr).encodedSize } := by
  set v := l.buffer.buff with hv
  set size := 4 + arr.length + roundUptoMultipleOf 4 (4 + arr.length) with hsize
  have hlength := memcpyInto_fresh build stale v (toBytes 4 arr.length) (k := size)
    (by omega) (by rw [toBytes_length]; omega)
  have hpos : build.boundsChecked = true → 0 < size - 4 := by
    intro hchecked
    have hpos := List.length_pos_of_ne_nil (hne hchecked)
    omega
  have harr := memcpyInto_fresh build stale (v ++ toBytes 4 arr.length) arr
    (k := size - 4) hpos (by omega)
  simp only [List.length_append, toBytes_length] at hlength harr
  simp only [writeWarray, ← hv, ← hsize, resize_add, if_neg (Nat.not_le.mpr h)]
  simp only [hlength, harr, bind, Except.bind, pure, Except.pure]
  simp only [Argument.encode, Argument.encodedSize, Argument.contents, Argument.padding,
    List.length_append, toBytes_length, List.append_assoc]
  rw [show size - 4 - arr.length = roundUptoMultipleOf 4 (4 + arr.length) by omega,
    Nat.add_assoc v.length]

theorem writeWstring_ok {str : List Byte} (h : str.length + 1 < 2 ^ 32)
    (l : AppendLocals) :
    writeWstring build stale str l =
      .ok
        { buffer :=
            { l.buffer with
              buff := l.buffer.buff ++
                (Argument.wstring str).encode stale l.buffer.buff.length }
          msgTotalSize := l.msgTotalSize + (Argument.wstring str).encodedSize } := by
  set v := l.buffer.buff with hv
  set unpadded := 4 + (str.length + 1) with hunpadded
  set size := unpadded + roundUptoMultipleOf 4 unpadded with hsize
  have hlength := memcpyInto_fresh build stale v (toBytes 4 (str.length + 1)) (k := size)
    (by omega) (by rw [toBytes_length]; omega)
  have hstr := memcpyInto_fresh build stale (v ++ toBytes 4 (str.length + 1)) str
    (k := size - 4) (by omega) (by omega)
  have hnull := memcpyInto_fresh build stale (v ++ toBytes 4 (str.length + 1) ++ str) [0]
    (k := size - 4 - str.length) (by omega) (by rw [List.length_singleton]; omega)
  simp only [List.length_append, toBytes_length, List.length_singleton] at hlength hstr hnull
  simp only [writeWstring, ← hv, ← hunpadded, ← hsize, resize_add, if_neg (Nat.not_le.mpr h)]
  rw [show v.length + unpadded - 1 = v.length + 4 + str.length by omega]
  simp only [hlength, hstr, hnull, bind, Except.bind, pure, Except.pure]
  simp only [Argument.encode, Argument.encodedSize, Argument.contents, Argument.padding,
    List.length_append, toBytes_length, List.length_singleton, List.append_assoc]
  rw [show size - 4 - str.length - 1 = roundUptoMultipleOf 4 unpadded by omega,
    show v.length + 4 + str.length + 1 = v.length + unpadded by omega]

/-- What one argument adds.  A build with bounds-checked containers aborts on an
empty array. -/
theorem writeElement32aligned_ok {arg : Argument} (h : arg.lengthWord < 2 ^ 32)
    (hne : build.boundsChecked = true → arg ≠ .warray []) (l : AppendLocals) :
    writeElement32aligned build stale l arg =
      .ok
        { buffer :=
            { buff := l.buffer.buff ++ arg.encode stale l.buffer.buff.length
              fdBuff := l.buffer.fdBuff ++ arg.fds }
          msgTotalSize := l.msgTotalSize + arg.encodedSize } := by
  cases arg with
  | static p => simp [writeElement32aligned, writeStatic_ok, Argument.fds]
  | wstring str => simp [writeElement32aligned, writeWstring_ok build stale h, Argument.fds]
  | warray arr =>
      have harr : build.boundsChecked = true → arr ≠ [] := by
        rintro hchecked rfl
        exact hne hchecked rfl
      simp [writeElement32aligned, writeWarray_ok build stale h harr, Argument.fds]
  | wfd fd =>
      simp [writeElement32aligned, writeWfd, Argument.encode, Argument.encodedSize,
        Argument.contents, Argument.padding, Argument.fds, roundUptoMultipleOf, fresh, pure,
        Except.pure]

/-- An argument that trips an assertion is written by no build. -/
theorem lengthWord_lt_of_writeElement32aligned {l l' : AppendLocals} {arg : Argument}
    (h : writeElement32aligned .unchecked stale l arg = .ok l') :
    arg.lengthWord < 2 ^ 32 := by
  by_contra hlarge
  rw [Nat.not_lt] at hlarge
  cases arg with
  | static p => simp [Argument.lengthWord] at hlarge
  | wstring str =>
      rw [Argument.lengthWord] at hlarge
      simp only [writeElement32aligned, writeWstring, if_pos hlarge] at h
      cases h
  | warray arr =>
      rw [Argument.lengthWord] at hlarge
      simp only [writeElement32aligned, writeWarray, if_pos hlarge] at h
      cases h
  | wfd fd => simp [Argument.lengthWord] at hlarge

theorem completes_writeElement32aligned (l : AppendLocals) (arg : Argument) :
    Completes (writeElement32aligned build stale l arg)
      (writeElement32aligned .unchecked stale l arg) := by
  have hcopy := completes_memcpyInto build
  cases arg with
  | static p => exact (hcopy _ _ _).bind fun _ => .refl _
  | wstring str =>
      simp only [writeElement32aligned, writeWstring]
      split
      · intro l' hl'
        cases hl'
      · exact (hcopy _ _ _).bind fun _ => (hcopy _ _ _).bind fun _ =>
          (hcopy _ _ _).bind fun _ => .refl _
  | warray arr =>
      simp only [writeElement32aligned, writeWarray]
      split
      · intro l' hl'
        cases hl'
      · exact (hcopy _ _ _).bind fun _ => (hcopy _ _ _).bind fun _ => .refl _
  | wfd fd => exact .refl _

/-! ## The bytes of a message -/

/-- The arguments one after another. -/
def encodeArguments : ℕ → List Argument → List Byte
  | _, [] => []
  | start, arg :: args =>
      arg.encode stale start ++ encodeArguments (start + arg.encodedSize) args

/-- The number of bytes that the arguments need. -/
def argumentsSize (args : List Argument) : ℕ :=
  (args.map Argument.encodedSize).sum

/-- The number of bytes that the message needs, header included. -/
def Message.encodedSize (msg : Message) : ℕ :=
  messageHeaderSize + argumentsSize msg.arguments

/-- The header that `append` writes. -/
def Message.header (obj : Wobject) (msg : Message) : MessageHeader where
  objectId := obj
  opcode := msg.opcode
  size := BitVec.ofNat 16 msg.encodedSize

/-- What `append` adds when the buffer holds `start` bytes. -/
def Message.encode (start : ℕ) (obj : Wobject) (msg : Message) : List Byte :=
  (msg.header obj).bytes ++
    encodeArguments stale (start + messageHeaderSize) msg.arguments

/-- Every string and array of the message passes `append`'s assertions. -/
def Message.AssertionsPass (msg : Message) : Prop :=
  ∀ arg ∈ msg.arguments, arg.lengthWord < 2 ^ 32

@[simp] theorem encodeArguments_length (start : ℕ) (args : List Argument) :
    (encodeArguments stale start args).length = argumentsSize args := by
  induction args generalizing start with
  | nil => rfl
  | cons arg args ih => simp [encodeArguments, argumentsSize, ih]

@[simp] theorem Message.encode_length (start : ℕ) (obj : Wobject) (msg : Message) :
    (msg.encode stale start obj).length = msg.encodedSize := by
  simp [encode, encodedSize]

/-- No argument is an empty array, unless subscripts are not checked. -/
def Build.Addresses (build : Build) (args : List Argument) : Prop :=
  build.boundsChecked = true → .warray [] ∉ args

theorem addresses_unchecked (args : List Argument) : Build.unchecked.Addresses args := by
  intro hchecked
  cases hchecked

theorem foldlM_writeElement32aligned {args : List Argument}
    (hargs : ∀ arg ∈ args, arg.lengthWord < 2 ^ 32) (hne : build.Addresses args)
    (l : AppendLocals) :
    args.foldlM (writeElement32aligned build stale) l =
      .ok
        { buffer :=
            { buff := l.buffer.buff ++ encodeArguments stale l.buffer.buff.length args
              fdBuff := l.buffer.fdBuff ++ args.flatMap Argument.fds }
          msgTotalSize := l.msgTotalSize + argumentsSize args } := by
  induction args generalizing l with
  | nil => simp [encodeArguments, argumentsSize, pure, Except.pure]
  | cons arg args ih =>
      have hfirst : build.boundsChecked = true → arg ≠ .warray [] := by
        rintro hchecked rfl
        exact hne hchecked (by simp)
      have hothers : build.Addresses args := by
        intro hchecked hmem
        exact hne hchecked (by simp [hmem])
      have hhead := writeElement32aligned_ok build stale (hargs arg (by simp)) hfirst l
      have htail := ih (fun a ha => hargs a (by simp [ha])) hothers
      rw [List.foldlM_cons, hhead]
      refine (htail _).trans ?_
      simp [encodeArguments, argumentsSize, Nat.add_assoc]

theorem appendArguments_ok {msg : Message} (hmsg : msg.AssertionsPass)
    (hne : build.Addresses msg.arguments) (buf : MessageBuffer) :
    appendArguments build stale buf msg =
      .ok
        { buffer :=
            { buff := buf.buff ++ (fresh stale buf.buff.length messageHeaderSize ++
                encodeArguments stale (buf.buff.length + messageHeaderSize) msg.arguments)
              fdBuff := buf.fdBuff ++ msg.arguments.flatMap Argument.fds }
          msgTotalSize := msg.encodedSize } := by
  refine (foldlM_writeElement32aligned build stale hmsg hne _).trans ?_
  simp [resize_add, Message.encodedSize]

theorem append_eq {msg : Message} (hmsg : msg.AssertionsPass)
    (hne : build.Addresses msg.arguments) (buf : MessageBuffer) (obj : Wobject) :
    append build stale buf obj msg =
      .ok
        { buff := buf.buff ++ msg.encode stale buf.buff.length obj
          fdBuff := buf.fdBuff ++ msg.arguments.flatMap Argument.fds } := by
  have hroom : (fresh stale buf.buff.length messageHeaderSize).length =
      (msg.header obj).bytes.length := by simp
  have hpos : 0 < messageHeaderSize := by decide
  have hcopy : memcpyInto build
      (buf.buff ++ (fresh stale buf.buff.length messageHeaderSize ++
        encodeArguments stale (buf.buff.length + messageHeaderSize) msg.arguments))
      buf.buff.length (msg.header obj).bytes =
        .ok (buf.buff ++ msg.encode stale buf.buff.length obj) := by
    rw [memcpyInto_ok (by simp [hpos]) (by simp), overwrite_append, ← hroom, List.drop_left]
    rfl
  rw [Message.header] at hcopy
  simp only [append, appendArguments_ok build stale hmsg hne, hcopy, bind, Except.bind, pure,
    Except.pure]

/-- `append` in a build without bounds-checked containers. -/
theorem append_unchecked {msg : Message} (hmsg : msg.AssertionsPass) (buf : MessageBuffer)
    (obj : Wobject) :
    append .unchecked stale buf obj msg =
      .ok
        { buff := buf.buff ++ msg.encode stale buf.buff.length obj
          fdBuff := buf.fdBuff ++ msg.arguments.flatMap Argument.fds } :=
  append_eq .unchecked stale hmsg (addresses_unchecked _) buf obj

theorem completes_foldlM (args : List Argument) (l : AppendLocals) :
    Completes (args.foldlM (writeElement32aligned build stale) l)
      (args.foldlM (writeElement32aligned .unchecked stale) l) := by
  induction args generalizing l with
  | nil =>
      rw [List.foldlM_nil, List.foldlM_nil]
      exact .refl _
  | cons arg args ih =>
      rw [List.foldlM_cons, List.foldlM_cons]
      refine (completes_writeElement32aligned build stale l arg).bind fun l' => ?_
      exact ih l'

theorem completes_append (buf : MessageBuffer) (obj : Wobject) (msg : Message) :
    Completes (append build stale buf obj msg) (append .unchecked stale buf obj msg) :=
  (completes_foldlM build stale msg.arguments _).bind fun _ =>
    (completes_memcpyInto build _ _ _).bind fun _ => .refl _

theorem lengthWord_lt_of_foldlM {args : List Argument} {l l' : AppendLocals}
    (h : args.foldlM (writeElement32aligned .unchecked stale) l = .ok l') :
    ∀ arg ∈ args, arg.lengthWord < 2 ^ 32 := by
  induction args generalizing l with
  | nil => simp
  | cons arg args ih =>
      rw [List.foldlM_cons] at h
      cases hhead : writeElement32aligned .unchecked stale l arg with
      | error e =>
          rw [hhead] at h
          cases h
      | ok l'' =>
          rw [hhead] at h
          intro a ha
          rcases List.mem_cons.mp ha with rfl | ha
          · exact lengthWord_lt_of_writeElement32aligned stale hhead
          · exact ih h a ha

theorem AssertionsPass.of_append {buf buf' : MessageBuffer} {obj : Wobject} {msg : Message}
    (h : append .unchecked stale buf obj msg = .ok buf') : msg.AssertionsPass := by
  cases hargs : appendArguments .unchecked stale buf msg with
  | error e =>
      rw [append, hargs] at h
      cases h
  | ok l => exact lengthWord_lt_of_foldlM stale hargs

/-- What `append` does whenever it returns, in any build. -/
theorem append_ok {buf buf' : MessageBuffer} {obj : Wobject} {msg : Message}
    (h : append build stale buf obj msg = .ok buf') :
    msg.AssertionsPass ∧
      buf' =
        { buff := buf.buff ++ msg.encode stale buf.buff.length obj
          fdBuff := buf.fdBuff ++ msg.arguments.flatMap Argument.fds } := by
  have hunchecked := completes_append build stale buf obj msg buf' h
  have hmsg := AssertionsPass.of_append stale hunchecked
  rw [append_unchecked stale hmsg] at hunchecked
  exact ⟨hmsg, (Except.ok.inj hunchecked).symm⟩

/-! ## The size field -/

/-- The size field holds the size of the block reduced to 16 bits. -/
theorem sizeField_append {buf buf' : MessageBuffer} {obj : Wobject} {msg : Message}
    (h : append build stale buf obj msg = .ok buf') :
    sizeField (buf'.buff.drop buf.buff.length) = msg.encodedSize % 2 ^ 16 ∧
      buf'.buff.length = buf.buff.length + msg.encodedSize := by
  obtain ⟨-, rfl⟩ := append_ok build stale h
  constructor
  · rw [List.drop_left, Message.encode, sizeField_bytes, Message.header, BitVec.toNat_ofNat]
  · simp

/-- The size written in the header is the number of bytes that `append` adds,
exactly if that number fits the 16-bit field. -/
theorem sizeField_append_eq_iff (buf buf' : MessageBuffer) (obj : Wobject) (msg : Message)
    (h : append build stale buf obj msg = .ok buf') :
    sizeField (buf'.buff.drop buf.buff.length) = buf'.buff.length - buf.buff.length ↔
      msg.encodedSize < 2 ^ 16 := by
  obtain ⟨hsize, hlength⟩ := sizeField_append build stale h
  rw [hsize, hlength, Nat.add_sub_cancel_left]
  constructor
  · intro heq
    rw [← heq]
    exact Nat.mod_lt _ (by decide)
  · intro hlt
    exact Nat.mod_eq_of_lt hlt

theorem sizeField_append_eq_iff_wuint :
    sizeField ([1, 0, 0, 0, 0, 0, 12, 0, 7, 0, 0, 0].drop 0) = 12 - 0 ↔
      (⟨0, [.static (.wuint 7)]⟩ : Message).encodedSize < 2 ^ 16 :=
  sizeField_append_eq_iff .unchecked (fun _ => 0) {}
    { buff := [1, 0, 0, 0, 0, 0, 12, 0, 7, 0, 0, 0] } 1 ⟨0, [.static (.wuint 7)]⟩ (by rfl)

theorem exists_append_warray {arr : List Byte} (h : arr.length = 65536) :
    ∃ buf', append .unchecked stale {} 1 ⟨0, [.warray arr]⟩ = .ok buf' ∧
      buf'.buff.length = 65548 ∧ sizeField buf'.buff = 12 := by
  have hasserts : (⟨0, [.warray arr]⟩ : Message).AssertionsPass := by
    simp [Message.AssertionsPass, Argument.lengthWord, h]
  have hencoded : (⟨0, [.warray arr]⟩ : Message).encodedSize = 65548 := by
    simp [Message.encodedSize, argumentsSize, Argument.encodedSize, Argument.padding,
      Argument.contents, messageHeaderSize, roundUptoMultipleOf, h]
  obtain ⟨hsize, hadded⟩ := sizeField_append _ _ (append_unchecked stale hasserts {} 1)
  rw [hencoded] at hsize hadded
  exact ⟨_, append_unchecked stale hasserts {} 1, by simpa using hadded, by simpa using hsize⟩

/-- An array of 65536 bytes is appended with a size field that announces the
size of an array of no bytes. -/
theorem sizeField_append_truncated :
    ∃ buf', append .unchecked (fun _ => 0) {} 1
        ⟨0, [.warray (List.replicate 65536 0)]⟩ = .ok buf' ∧
      buf'.buff.length = 65548 ∧ sizeField buf'.buff = 12 :=
  exists_append_warray _ List.length_replicate

end Waylander
