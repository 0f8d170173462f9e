import Waylander.Support.Buffer
import Waylander.Support.Fallible
import Waylander.Support.LittleEndian

/-!
# Wayland protocol primitives

Messages, their arguments and the message header as `protocol_primitives.hpp`
declares them, together with the few operations on memory that the rest of the
model is written with.  Only a little-endian platform is supported by the
source, and so it is here.

An interface is a type-level tag that no function inspects, so object ids,
opcodes and new ids are represented by their `value` alone.
-/

namespace Waylander

open Fallible LittleEndian

abbrev Byte := BitVec 8

/-- `Wobject<T>`, represented by its `value`. -/
abbrev Wobject := BitVec 32

/-- `Wopcode<T>`, represented by its `value`. -/
abbrev Wopcode := BitVec 16

/-- `Wmessage_size_t`, represented by its `value`. -/
abbrev WmessageSize := BitVec 16

/-- A handle of gnulander that is only ever copied. -/
structure Wfd where
  value : ℕ
  deriving DecidableEq

/-! ## Fixed-size arguments -/

/-- Three bit-fields in one 32-bit unit. -/
structure Wfixed where
  isNegative : Bool
  mantissa : BitVec 23
  exponent : BitVec 8
  deriving DecidableEq

/-- Bit-fields are allocated from the least significant bit in declaration
order. -/
def Wfixed.toWord (f : Wfixed) : BitVec 32 :=
  f.exponent ++ (f.mantissa ++ BitVec.ofBool f.isNegative)

def Wfixed.ofWord (w : BitVec 32) : Wfixed where
  isNegative := w.getLsbD 0
  mantissa := w.extractLsb' 1 23
  exponent := w.extractLsb' 24 8

@[simp] theorem Wfixed.ofWord_toWord (f : Wfixed) : ofWord f.toWord = f := by
  rcases f with ⟨isNegative, mantissa, exponent⟩
  simp only [ofWord, toWord, Wfixed.mk.injEq]
  refine ⟨?_, ?_, ?_⟩
  · rw [BitVec.getLsbD_append, BitVec.getLsbD_append]
    simp
  · apply BitVec.eq_of_getLsbD_eq
    intro i hi
    simp only [BitVec.getLsbD_extractLsb', BitVec.getLsbD_append]
    simp [hi, show 1 + i < 24 by omega]
  · apply BitVec.eq_of_getLsbD_eq
    intro i hi
    simp only [BitVec.getLsbD_extractLsb', BitVec.getLsbD_append]
    simp [hi]

@[simp] theorem Wfixed.toWord_ofWord (w : BitVec 32) : (ofWord w).toWord = w := by
  apply BitVec.eq_of_getLsbD_eq
  intro i hi
  simp only [toWord, ofWord, BitVec.getLsbD_append, BitVec.getLsbD_extractLsb']
  by_cases hexponent : 24 ≤ i
  · simp [show ¬i < 23 + 1 by omega, show i - (23 + 1) < 8 by omega,
      show 24 + (i - (23 + 1)) = i by omega]
  · by_cases hmantissa : 1 ≤ i
    · simp [show i < 23 + 1 by omega, show ¬i < 1 by omega, show i - 1 < 23 by omega,
        show 1 + (i - 1) = i by omega]
    · obtain rfl : i = 0 := by omega
      simp

/-- The types satisfying `static_message_argument`. -/
inductive StaticType
  | wint
  | wuint
  | wfixed
  | wobject
  | wnewId
  | enumInt
  | enumUint
  deriving DecidableEq

/-- A value of a `static_message_argument`.  Enumerations are given by their
underlying 32-bit integer. -/
inductive StaticArgument
  | wint (value : BitVec 32)
  | wuint (value : BitVec 32)
  | wfixed (value : Wfixed)
  | wobject (value : Wobject)
  | wnewId (value : BitVec 32)
  | enumInt (value : BitVec 32)
  | enumUint (value : BitVec 32)
  deriving DecidableEq

def StaticArgument.type : StaticArgument → StaticType
  | wint _ => .wint
  | wuint _ => .wuint
  | wfixed _ => .wfixed
  | wobject _ => .wobject
  | wnewId _ => .wnewId
  | enumInt _ => .enumInt
  | enumUint _ => .enumUint

/-- The object representation, read as a 32-bit word. -/
def StaticArgument.toWord : StaticArgument → BitVec 32
  | wint value => value
  | wuint value => value
  | wfixed value => value.toWord
  | wobject value => value
  | wnewId value => value
  | enumInt value => value
  | enumUint value => value

/-- The value of the given type whose object representation is `w`. -/
def StaticType.ofWord : StaticType → BitVec 32 → StaticArgument
  | wint, w => .wint w
  | wuint, w => .wuint w
  | wfixed, w => .wfixed (.ofWord w)
  | wobject, w => .wobject w
  | wnewId, w => .wnewId w
  | enumInt, w => .enumInt w
  | enumUint, w => .enumUint w

@[simp] theorem StaticType.ofWord_toWord (a : StaticArgument) :
    a.type.ofWord a.toWord = a := by
  cases a <;> simp [StaticArgument.type, StaticArgument.toWord, StaticType.ofWord]

@[simp] theorem StaticType.toWord_ofWord (t : StaticType) (w : BitVec 32) :
    (t.ofWord w).toWord = w := by
  cases t <;> simp [StaticArgument.toWord, StaticType.ofWord]

@[simp] theorem StaticType.type_ofWord (t : StaticType) (w : BitVec 32) :
    (t.ofWord w).type = t := by
  cases t <;> rfl

/-! ## Messages -/

inductive ArgumentType
  | static (t : StaticType)
  | wstring
  | warray
  | wfd
  deriving DecidableEq

/-- An argument of a message.  Strings and arrays are views in the source; here
they are the bytes viewed. -/
inductive Argument
  | static (a : StaticArgument)
  | wstring (str : List Byte)
  | warray (arr : List Byte)
  | wfd (fd : Wfd)
  deriving DecidableEq

def Argument.type : Argument → ArgumentType
  | static a => .static a.type
  | wstring _ => .wstring
  | warray _ => .warray
  | wfd _ => .wfd

/-- A value of some message type: its static `opcode` member and its data
members in declaration order. -/
structure Message where
  opcode : Wopcode
  arguments : List Argument
  deriving DecidableEq

/-- The data members' types of the message's type. -/
def Message.types (msg : Message) : List ArgumentType :=
  msg.arguments.map Argument.type

/-- No data member is a `Wfd`. -/
def Message.FdFree (msg : Message) : Prop :=
  ArgumentType.wfd ∉ msg.types

/-! ## Message header -/

/-- `sizeof(message_header)`. -/
def messageHeaderSize : ℕ := 8

def opcodeOffset : ℕ := 4

def sizeOffset : ℕ := 6

structure MessageHeader where
  objectId : Wobject
  opcode : Wopcode
  size : WmessageSize

/-- The object representation of the header. -/
def MessageHeader.bytes (header : MessageHeader) : List Byte :=
  toBytes 4 header.objectId.toNat ++ toBytes 2 header.opcode.toNat ++
    toBytes 2 header.size.toNat

@[simp] theorem MessageHeader.bytes_length (header : MessageHeader) :
    header.bytes.length = messageHeaderSize := by
  simp [bytes, messageHeaderSize]

/-- The `n`-byte unsigned integer stored at index `i`. -/
def uintAt (bytes : List Byte) (i n : ℕ) : ℕ :=
  ofBytes ((bytes.drop i).take n)

/-- The size field of the header at the beginning of `bytes`. -/
def sizeField (bytes : List Byte) : ℕ :=
  uintAt bytes sizeOffset 2

theorem uintAt_drop (bytes : List Byte) (j i n : ℕ) :
    uintAt (bytes.drop j) i n = uintAt bytes (j + i) n := by
  simp [uintAt]

theorem uintAt_append {bytes : List Byte} {i n : ℕ} (h : i + n ≤ bytes.length)
    (rest : List Byte) : uintAt (bytes ++ rest) i n = uintAt bytes i n := by
  have hi : i ≤ bytes.length := by omega
  have hn : n ≤ (bytes.drop i).length := by
    rw [List.length_drop]
    omega
  rw [uintAt, uintAt, List.drop_append_of_le_length hi, List.take_append_of_le_length hn]

theorem uintAt_lt (bytes : List Byte) (i n : ℕ) : uintAt bytes i n < 256 ^ n := by
  have hlength : ((bytes.drop i).take n).length ≤ n := List.length_take_le _ _
  exact Nat.lt_of_lt_of_le (ofBytes_lt _) (Nat.pow_le_pow_right (by decide) hlength)

theorem uintAt_toBytes (left right : List Byte) {n v : ℕ} (hv : v < 256 ^ n) :
    uintAt (left ++ (toBytes n v ++ right)) left.length n = v := by
  have htake : (toBytes n v ++ right).take n = toBytes n v := by
    rw [List.take_append_of_le_length (by simp), List.take_of_length_le (by simp)]
  rw [uintAt, List.drop_left, htake, ofBytes_toBytes_of_lt hv]

section HeaderFields

variable (header : MessageHeader) (rest : List Byte)

@[simp] theorem uintAt_objectId :
    uintAt (header.bytes ++ rest) 0 4 = header.objectId.toNat := by
  have h : header.objectId.toNat < 256 ^ 4 := header.objectId.isLt
  simpa [MessageHeader.bytes] using uintAt_toBytes [] (toBytes 2 header.opcode.toNat ++
    (toBytes 2 header.size.toNat ++ rest)) h

@[simp] theorem uintAt_opcode :
    uintAt (header.bytes ++ rest) opcodeOffset 2 = header.opcode.toNat := by
  have h : header.opcode.toNat < 256 ^ 2 := header.opcode.isLt
  simpa [MessageHeader.bytes, opcodeOffset] using uintAt_toBytes
    (toBytes 4 header.objectId.toNat) (toBytes 2 header.size.toNat ++ rest) h

@[simp] theorem sizeField_bytes :
    sizeField (header.bytes ++ rest) = header.size.toNat := by
  have h : header.size.toNat < 256 ^ 2 := header.size.isLt
  simpa [MessageHeader.bytes, sizeField, sizeOffset] using uintAt_toBytes
    (toBytes 4 header.objectId.toNat ++ toBytes 2 header.opcode.toNat) rest h

end HeaderFields

/-! ## Memory -/

/-- Ways in which a call leaves the program instead of returning. -/
inductive Fault
  /-- An `assert` fails. -/
  | assertion
  /-- A bounds-checked container aborts on a subscript. -/
  | subscript
  /-- Memory outside the object is accessed: the behaviour is undefined. -/
  | outside
  /-- `interpert_message_payload` has no branch for the type: it does not
  compile. -/
  | noBranch
  deriving DecidableEq

/-- How the program is built. -/
structure Build where
  /-- Containers abort on a subscript that is not below their size. -/
  boundsChecked : Bool
  deriving DecidableEq

def Build.unchecked : Build := ⟨false⟩

def Build.checked : Build := ⟨true⟩

/-- Evaluate `std::addressof(v[i])` for a container of `size` elements. -/
def subscript (build : Build) (size i : ℕ) : Except Fault Unit :=
  if build.boundsChecked ∧ size ≤ i then .error .subscript else .ok ()

/-- `std::memcpy(std::addressof(v[i]), src.data(), src.size())`. -/
def memcpyInto (build : Build) (v : List Byte) (i : ℕ) (src : List Byte) :
    Except Fault (List Byte) := do
  subscript build v.length i
  if i + src.length ≤ v.length then
    return Buffer.overwrite v i src
  else
    throw .outside

/-- The `n` bytes from `std::addressof(v[i])` on. -/
def memcpyFrom (build : Build) (v : List Byte) (i n : ℕ) :
    Except Fault (List Byte) := do
  subscript build v.length i
  if i + n ≤ v.length then
    return (v.drop i).take n
  else
    throw .outside

section Copies

variable {build : Build}

theorem subscript_ok {size i : ℕ} (h : build.boundsChecked = true → i < size) :
    subscript build size i = .ok () := by
  rw [subscript, if_neg]
  rintro ⟨hchecked, hle⟩
  exact absurd (h hchecked) (Nat.not_lt.mpr hle)

@[simp] theorem subscript_unchecked (size i : ℕ) :
    subscript .unchecked size i = .ok () := by
  apply subscript_ok
  intro hchecked
  cases hchecked

theorem memcpyInto_ok {v src : List Byte} {i : ℕ}
    (hi : build.boundsChecked = true → i < v.length) (h : i + src.length ≤ v.length) :
    memcpyInto build v i src = .ok (Buffer.overwrite v i src) := by
  simp [memcpyInto, subscript_ok hi, h, bind, Except.bind, pure, Except.pure]

theorem memcpyFrom_ok {v : List Byte} {i n : ℕ}
    (hi : build.boundsChecked = true → i < v.length) (h : i + n ≤ v.length) :
    memcpyFrom build v i n = .ok ((v.drop i).take n) := by
  simp [memcpyFrom, subscript_ok hi, h, bind, Except.bind, pure, Except.pure]

end Copies

/-- Whatever `x` returns, `y` returns too. -/
def Completes {α : Type} (x y : Except Fault α) : Prop :=
  ∀ a, x = .ok a → y = .ok a

theorem Completes.refl {α : Type} (x : Except Fault α) : Completes x x :=
  fun _ h => h

theorem Completes.bind {α β : Type} {x y : Except Fault α} {f g : α → Except Fault β}
    (hxy : Completes x y) (hfg : ∀ a, Completes (f a) (g a)) :
    Completes (x >>= f) (y >>= g) := by
  intro b hb
  obtain ⟨a, hx, hfa⟩ := bind_eq_ok_iff.mp hb
  exact bind_eq_ok_iff.mpr ⟨a, hxy a hx, hfg a b hfa⟩

theorem completes_subscript (build : Build) (size i : ℕ) :
    Completes (subscript build size i) (subscript .unchecked size i) := by
  intro u _
  exact subscript_unchecked size i

/-- A copy that a bounds-checked build performs is performed by every build. -/
theorem completes_memcpyInto (build : Build) (v : List Byte) (i : ℕ) (src : List Byte) :
    Completes (memcpyInto build v i src) (memcpyInto .unchecked v i src) :=
  (completes_subscript build v.length i).bind fun _ => .refl _

/-! ## `sstd::round_upto_multiple_of` -/

/-- Returns `dx` such that `x + dx` is a multiple of `n` and `dx < n`. -/
def roundUptoMultipleOf (n x : ℕ) : ℕ :=
  (n - x % n) % n

theorem dvd_add_roundUptoMultipleOf {n : ℕ} (hn : 0 < n) (x : ℕ) :
    n ∣ x + roundUptoMultipleOf n x := by
  have hmod : x % n < n := Nat.mod_lt x hn
  rcases Nat.eq_zero_or_pos (x % n) with hzero | hpos
  · simpa [roundUptoMultipleOf, hzero] using Nat.dvd_of_mod_eq_zero hzero
  · have hpad : roundUptoMultipleOf n x = n - x % n := by
      rw [roundUptoMultipleOf, Nat.mod_eq_of_lt (by omega)]
    have hdiv := Nat.div_add_mod x n
    refine ⟨x / n + 1, ?_⟩
    rw [hpad, Nat.mul_add, Nat.mul_one]
    omega

example : roundUptoMultipleOf 4 5 = 3 := by decide

end Waylander
