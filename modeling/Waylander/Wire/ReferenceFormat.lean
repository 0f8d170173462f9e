import Waylander.Wire.MessageInterperter

/-!
# The wire format of payloads

A reference parser for the wire format of a payload, written from the format
and not from the code: from left to right, each argument takes a length word, as
many bytes as it says and the padding up to the next word.  A string of length
zero is the null string and has no further bytes.

`interpert_message_payload` follows this format up to the first null string.  It
does not step over the length word of a null string, so that word is read once
more as the next argument; the two agree on what follows when it consists of
zero words only.
-/

namespace Waylander

open Fallible LittleEndian

/-- An argument as it stands on the wire. -/
inductive WireArgument
  | word (t : StaticType) (w : BitVec 32)
  | nullString
  | string (str : List Byte)
  | array (arr : List Byte)
  deriving DecidableEq

/-- The value of the argument; null and empty strings are the same. -/
def WireArgument.value : WireArgument → Argument
  | word t w => .static (t.ofWord w)
  | nullString => .wstring []
  | string str => .wstring str
  | array arr => .warray arr

/-- A 32-bit word and the bytes behind it. -/
def takeWord (bytes : List Byte) : Option (ℕ × List Byte) :=
  if 4 ≤ bytes.length then some (ofBytes (bytes.take 4), bytes.drop 4) else none

/-- A block of `n` bytes padded to whole words and the bytes behind it. -/
def takePadded (n : ℕ) (bytes : List Byte) : Option (List Byte × List Byte) :=
  let paddedSize := (n + 3) / 4 * 4
  if paddedSize ≤ bytes.length then
    some (bytes.take n, bytes.drop paddedSize)
  else
    none

def parseWireArgument (bytes : List Byte) :
    ArgumentType → Option (WireArgument × List Byte)
  | .static t => do
      let (w, rest) ← takeWord bytes
      return (.word t (BitVec.ofNat 32 w), rest)
  | .wstring => do
      let (n, rest) ← takeWord bytes
      if n = 0 then
        return (.nullString, rest)
      else
        -- The length counts the terminating NUL.
        let (block, rest) ← takePadded n rest
        return (.string block.dropLast, rest)
  | .warray => do
      let (n, rest) ← takeWord bytes
      let (block, rest) ← takePadded n rest
      return (.array block, rest)
  | .wfd => none

/-- The arguments of a payload that is a valid encoding for the types. -/
def parseWirePayload : List ArgumentType → List Byte → Option (List WireArgument)
  | [], bytes => if bytes = [] then some [] else none
  | t :: types, bytes => do
      let (arg, rest) ← parseWireArgument bytes t
      let args ← parseWirePayload types rest
      return arg :: args

/-! ## What a successful parse says about the bytes -/

theorem takeWord_eq_some {bytes rest : List Byte} {n : ℕ}
    (h : takeWord bytes = some (n, rest)) :
    n < 2 ^ 32 ∧ bytes = toBytes 4 n ++ rest := by
  simp only [takeWord, Option.ite_none_right_eq_some, Option.some.injEq, Prod.mk.injEq] at h
  obtain ⟨hlength, rfl, rfl⟩ := h
  have hfour : (bytes.take 4).length = 4 := by
    rw [List.length_take]
    omega
  have hbytes : toBytes 4 (ofBytes (bytes.take 4)) = bytes.take 4 := by
    simpa only [hfour] using toBytes_ofBytes (bytes.take 4)
  constructor
  · have hlt := ofBytes_lt (bytes.take 4)
    rwa [hfour] at hlt
  · rw [hbytes, List.take_append_drop]

theorem takePadded_eq_some {bytes block rest : List Byte} {n : ℕ}
    (h : takePadded n bytes = some (block, rest)) :
    ∃ pad : List Byte, bytes = block ++ pad ++ rest ∧ block.length = n ∧
      pad.length = roundUptoMultipleOf 4 (4 + n) := by
  simp only [takePadded, Option.ite_none_right_eq_some, Option.some.injEq,
    Prod.mk.injEq] at h
  obtain ⟨hlength, rfl, rfl⟩ := h
  have hsplit : (n + 3) / 4 * 4 = n + ((n + 3) / 4 * 4 - n) := by omega
  refine ⟨(bytes.drop n).take ((n + 3) / 4 * 4 - n), ?_, ?_, ?_⟩
  · have hdrop : bytes.drop ((n + 3) / 4 * 4) =
        (bytes.drop n).drop ((n + 3) / 4 * 4 - n) := by
      rw [List.drop_drop, ← hsplit]
    rw [hdrop, List.append_assoc, List.take_append_drop, List.take_append_drop]
  · rw [List.length_take]
    omega
  · rw [List.length_take, List.length_drop, roundUptoMultipleOf]
    omega

/-- The bytes that stand on the wire for an argument. -/
inductive WireEncoding : ArgumentType → WireArgument → List Byte → Prop
  | word (t : StaticType) {n : ℕ} (hn : n < 2 ^ 32) :
      WireEncoding (.static t) (.word t (BitVec.ofNat 32 n)) (toBytes 4 n)
  | nullString : WireEncoding .wstring .nullString (toBytes 4 0)
  | string {block pad : List Byte} (hne : block ≠ []) (hn : block.length < 2 ^ 32)
      (hpad : pad.length = roundUptoMultipleOf 4 (4 + block.length)) :
      WireEncoding .wstring (.string block.dropLast)
        (toBytes 4 block.length ++ (block ++ pad))
  | array {arr pad : List Byte} (hn : arr.length < 2 ^ 32)
      (hpad : pad.length = roundUptoMultipleOf 4 (4 + arr.length)) :
      WireEncoding .warray (.array arr) (toBytes 4 arr.length ++ (arr ++ pad))

theorem exists_encoding_of_parse {bytes rest : List Byte} {t : ArgumentType}
    {arg : WireArgument} (h : parseWireArgument bytes t = some (arg, rest)) :
    ∃ enc, WireEncoding t arg enc ∧ bytes = enc ++ rest := by
  cases t with
  | static t =>
      simp only [parseWireArgument, Option.bind_eq_bind, Option.bind_eq_some_iff,
        Option.pure_def, Option.some.injEq, Prod.mk.injEq, Prod.exists] at h
      obtain ⟨n, rest', hword, rfl, rfl⟩ := h
      obtain ⟨hn, rfl⟩ := takeWord_eq_some hword
      exact ⟨_, .word t hn, rfl⟩
  | wstring =>
      simp only [parseWireArgument, Option.bind_eq_bind, Option.bind_eq_some_iff,
        Option.pure_def, Prod.exists] at h
      obtain ⟨n, rest', hword, h⟩ := h
      obtain ⟨hn, rfl⟩ := takeWord_eq_some hword
      by_cases hzero : n = 0
      · subst hzero
        simp only [if_true, Option.some.injEq, Prod.mk.injEq] at h
        obtain ⟨rfl, rfl⟩ := h
        exact ⟨_, .nullString, rfl⟩
      · simp only [if_neg hzero, Option.bind_eq_some_iff, Option.some.injEq,
          Prod.mk.injEq, Prod.exists] at h
        obtain ⟨block, rest'', hblock, rfl, rfl⟩ := h
        obtain ⟨pad, rfl, rfl, hpad⟩ := takePadded_eq_some hblock
        have hne : block ≠ [] := List.ne_nil_of_length_pos (Nat.pos_of_ne_zero hzero)
        exact ⟨_, .string hne hn hpad, by simp⟩
  | warray =>
      simp only [parseWireArgument, Option.bind_eq_bind, Option.bind_eq_some_iff,
        Option.pure_def, Option.some.injEq, Prod.mk.injEq, Prod.exists] at h
      obtain ⟨n, rest', hword, block, rest'', hblock, rfl, rfl⟩ := h
      obtain ⟨hn, rfl⟩ := takeWord_eq_some hword
      obtain ⟨pad, rfl, rfl, hpad⟩ := takePadded_eq_some hblock
      exact ⟨_, .array hn hpad, by simp⟩
  | wfd => simp [parseWireArgument] at h

theorem exists_of_parseWirePayload_cons {t : ArgumentType} {types : List ArgumentType}
    {bytes : List Byte} {args : List WireArgument}
    (h : parseWirePayload (t :: types) bytes = some args) :
    ∃ arg args' enc rest, args = arg :: args' ∧ bytes = enc ++ rest ∧
      WireEncoding t arg enc ∧ parseWirePayload types rest = some args' := by
  simp only [parseWirePayload, Option.bind_eq_bind, Option.bind_eq_some_iff, Option.pure_def,
    Option.some.injEq, Prod.exists] at h
  obtain ⟨arg, rest, hhead, args', htail, rfl⟩ := h
  obtain ⟨enc, henc, rfl⟩ := exists_encoding_of_parse hhead
  exact ⟨arg, args', enc, rest, rfl, rfl, henc, htail⟩

/-- What `read_element_32aligned` makes of the bytes of an argument.  Only a null
string is not stepped over. -/
theorem WireEncoding.readElement32aligned (build : Build) {t : ArgumentType}
    {arg : WireArgument} {enc : List Byte} (h : WireEncoding t arg enc)
    (left rest : List Byte)
    (hbehind : build.boundsChecked = true → arg = .array [] → rest ≠ []) :
    readElement32aligned build (left ++ (enc ++ rest)) left.length t =
      .ok (arg.value,
        if arg = .nullString then left.length else left.length + enc.length) := by
  cases h with
  | @word t n hn =>
      have hread := readElement32aligned_static build left rest t (BitVec.ofNat 32 n)
      rw [BitVec.toNat_ofNat, Nat.mod_eq_of_lt hn] at hread
      simp [hread, WireArgument.value]
  | nullString => simp [readElement32aligned_null, WireArgument.value]
  | @string block pad hne hn hpad =>
      have hstr : block.dropLast.length + 1 = block.length := by
        rw [List.length_dropLast]
        exact Nat.sub_add_cancel (List.length_pos_of_ne_nil hne)
      rw [← hstr] at hpad hn
      have hread := readElement32aligned_wstring build left rest hn (block.getLast hne) hpad
      have hsplit : block.dropLast ++ (block.getLast hne :: pad) = block ++ pad := by
        rw [List.append_cons, List.dropLast_append_getLast]
      rw [hsplit, hstr] at hread
      rw [List.append_assoc, hread]
      simp [WireArgument.value, Nat.add_assoc]
  | @array arr pad hn hpad =>
      have hbehind' : build.boundsChecked = true → arr ++ rest ≠ [] := by
        intro hchecked hnil
        obtain ⟨rfl, hrest⟩ := List.append_eq_nil_iff.mp hnil
        exact hbehind hchecked rfl hrest
      have hread := readElement32aligned_warray build left rest hn hpad hbehind'
      rw [List.append_assoc, hread]
      simp [WireArgument.value, Nat.add_assoc]

theorem readElements_cons_iff {build : Build} {payload : List Byte} {bytesRead next : ℕ}
    {t : ArgumentType} {arg : Argument}
    (h : readElement32aligned build payload bytesRead t = .ok (arg, next))
    (types : List ArgumentType) {values : List Argument} :
    readElements build payload bytesRead (t :: types) = .ok values ↔
      ∃ args, readElements build payload next types = .ok args ∧ arg :: args = values := by
  simp only [readElements, h, bind_eq_ok_iff, Except.ok.injEq, exists_eq_left', pure_eq_ok_iff]

theorem readElements_cons {build : Build} {payload : List Byte} {bytesRead next : ℕ}
    {t : ArgumentType} {arg : Argument}
    (h : readElement32aligned build payload bytesRead t = .ok (arg, next))
    (types : List ArgumentType) (args : List Argument) :
    readElements build payload bytesRead (t :: types) = .ok (arg :: args) ↔
      readElements build payload next types = .ok args := by
  rw [readElements_cons_iff h]
  simp

/-! ## Behind a null string -/

/-- The argument stands on the wire as one zero word. -/
def WireArgument.IsZeroWord : WireArgument → Prop
  | word _ w => w = 0
  | nullString => True
  | string _ => False
  | array arr => arr = []

/-- The arguments behind the first null string. -/
def afterNull : List WireArgument → List WireArgument
  | [] => []
  | arg :: args => if arg = .nullString then args else afterNull args

/-- The value that each type has at a zero word. -/
def ArgumentType.ofZero : ArgumentType → Argument
  | static t => .static (t.ofWord 0)
  | wstring => .wstring []
  | warray => .warray []
  | wfd => .wfd ⟨0⟩

/-- Reading a type from a zero word. -/
theorem readElement32aligned_zero (build : Build) {t : ArgumentType} (ht : t ≠ .wfd)
    (left right : List Byte) (hright : build.boundsChecked = true → right ≠ []) :
    readElement32aligned build (left ++ (toBytes 4 0 ++ right)) left.length t =
      .ok (t.ofZero, if t = .wstring then left.length else left.length + 4) := by
  cases t with
  | static t => exact readElement32aligned_static build left right t 0
  | wstring => exact readElement32aligned_null build left right
  | warray =>
      have hread := @readElement32aligned_warray build left right [] (by decide) [] rfl hright
      simpa [ArgumentType.ofZero] using hread
  | wfd => exact absurd rfl ht

theorem WireEncoding.type_ne_wfd {t : ArgumentType} {arg : WireArgument} {enc : List Byte}
    (h : WireEncoding t arg enc) : t ≠ .wfd := by
  rintro rfl
  cases h

theorem WireEncoding.eq_of_isZeroWord {t : ArgumentType} {arg : WireArgument}
    {enc : List Byte} (h : WireEncoding t arg enc) (hzero : arg.IsZeroWord) :
    enc = toBytes 4 0 := by
  cases h with
  | word t hn =>
      have hmod := congrArg BitVec.toNat hzero
      rw [BitVec.toNat_ofNat, Nat.mod_eq_of_lt hn] at hmod
      rw [hmod]
      rfl
  | nullString => rfl
  | string hne hn hpad => exact absurd hzero id
  | @array arr pad hn hpad =>
      rw [WireArgument.IsZeroWord] at hzero
      subst hzero
      have hnil : pad = [] := List.eq_nil_of_length_eq_zero hpad
      simp [hnil]

/-- Whether the zero word has the argument's value. -/
theorem WireEncoding.ofZero_eq_value_iff {t : ArgumentType} {arg : WireArgument}
    {enc : List Byte} (h : WireEncoding t arg enc) (hempty : arg ≠ .string []) :
    t.ofZero = arg.value ↔ arg.IsZeroWord := by
  cases h with
  | word t hn =>
      constructor
      · intro hvalue
        have hword := congrArg StaticArgument.toWord (Argument.static.inj hvalue)
        simpa [WireArgument.IsZeroWord] using hword.symm
      · intro hzero
        rw [WireArgument.IsZeroWord] at hzero
        rw [WireArgument.value, hzero]
        rfl
  | nullString => simp [ArgumentType.ofZero, WireArgument.value, WireArgument.IsZeroWord]
  | @string block pad hne hn hpad =>
      have hstr : ([] : List Byte) ≠ block.dropLast := by
        intro hnil
        exact hempty (by rw [hnil])
      simp [ArgumentType.ofZero, WireArgument.value, WireArgument.IsZeroWord, hstr]
  | array hn hpad =>
      simp [ArgumentType.ofZero, WireArgument.value, WireArgument.IsZeroWord, eq_comm]

/-- A zero word behind zero words may as well stand before them. -/
theorem flatten_replicate_append (k : ℕ) (word rest : List Byte) :
    (List.replicate k word).flatten ++ (word ++ rest) =
      word ++ ((List.replicate k word).flatten ++ rest) := by
  rw [← List.append_assoc, ← List.flatten_concat, ← List.replicate_succ',
    List.replicate_succ, List.flatten_cons, List.append_assoc]

/-- Behind a null string the code reads from a block of zero words that ends where
the remaining arguments begin. -/
theorem readElements_zeros {types : List ArgumentType} {bytes : List Byte}
    {args : List WireArgument} (h : parseWirePayload types bytes = some args)
    (hempty : .string [] ∉ args) (left : List Byte) (k : ℕ) :
    readElements .unchecked
        (left ++ (toBytes 4 0 ++ ((List.replicate k (toBytes 4 0)).flatten ++ bytes)))
        left.length types = .ok (args.map WireArgument.value) ↔
      ∀ arg ∈ args, arg.IsZeroWord := by
  induction types generalizing bytes args left k with
  | nil =>
      simp only [parseWirePayload, Option.ite_none_right_eq_some, Option.some.injEq] at h
      obtain ⟨-, rfl⟩ := h
      simp [readElements, pure, Except.pure]
  | cons t types ih =>
      obtain ⟨arg, args', enc, rest, rfl, rfl, henc, htail⟩ := exists_of_parseWirePayload_cons h
      rw [List.mem_cons, not_or] at hempty
      have hread := readElement32aligned_zero .unchecked henc.type_ne_wfd left
        ((List.replicate k (toBytes 4 0)).flatten ++ (enc ++ rest)) (by simp [Build.unchecked])
      have hvalue := henc.ofZero_eq_value_iff (Ne.symm hempty.1)
      rw [List.map_cons, List.forall_mem_cons, ← hvalue]
      by_cases hsame : t.ofZero = arg.value
      · have hzeros : (List.replicate k (toBytes 4 0)).flatten ++ (enc ++ rest) =
            toBytes 4 0 ++ ((List.replicate k (toBytes 4 0)).flatten ++ rest) := by
          rw [henc.eq_of_isZeroWord (hvalue.mp hsame), flatten_replicate_append]
        rw [← hsame, readElements_cons hread]
        simp only [true_and]
        rw [hzeros]
        by_cases hstring : t = .wstring
        · have hrest := ih htail hempty.2 left (k + 1)
          rw [List.replicate_succ, List.flatten_cons, List.append_assoc] at hrest
          rw [if_pos hstring, hrest]
        · have hrest := ih htail hempty.2 (left ++ toBytes 4 0) k
          rw [List.length_append, toBytes_length, List.append_assoc] at hrest
          rw [if_neg hstring, hrest]
      · simp only [hsame, false_and, iff_false]
        intro hread'
        simp only [readElements, hread, bind, Except.bind, pure, Except.pure] at hread'
        split at hread'
        · cases hread'
        · exact hsame (List.cons.inj (Except.ok.inj hread')).1

/-- Up to the first null string the code and the format are in step. -/
theorem readElements_of_parse {types : List ArgumentType} {bytes : List Byte}
    {args : List WireArgument} (h : parseWirePayload types bytes = some args)
    (left : List Byte) :
    (readElements .unchecked (left ++ bytes) left.length types =
        .ok (args.map WireArgument.value) →
      (∀ arg ∈ afterNull args, arg.IsZeroWord) ∨ .string [] ∈ afterNull args) ∧
    ((∀ arg ∈ afterNull args, arg.IsZeroWord) →
      readElements .unchecked (left ++ bytes) left.length types =
        .ok (args.map WireArgument.value)) := by
  induction types generalizing bytes args left with
  | nil =>
      simp only [parseWirePayload, Option.ite_none_right_eq_some, Option.some.injEq] at h
      obtain ⟨-, rfl⟩ := h
      simp [readElements, afterNull, pure, Except.pure]
  | cons t types ih =>
      obtain ⟨arg, args', enc, rest, rfl, rfl, henc, htail⟩ := exists_of_parseWirePayload_cons h
      have hread := henc.readElement32aligned .unchecked left rest (by simp [Build.unchecked])
      rw [List.map_cons, readElements_cons hread, afterNull]
      by_cases hnull : arg = .nullString
      · subst hnull
        rw [henc.eq_of_isZeroWord trivial, if_pos rfl, if_pos rfl]
        by_cases hempty : .string [] ∈ args'
        · constructor
          · intro _
            exact Or.inr hempty
          · intro hzero
            exact absurd (hzero _ hempty) id
        · have hzeros := readElements_zeros htail hempty left 0
          rw [List.replicate_zero, List.flatten_nil, List.nil_append] at hzeros
          exact ⟨fun hread' => Or.inl (hzeros.mp hread'), hzeros.mpr⟩
      · rw [if_neg hnull, if_neg hnull]
        have hrest := ih htail (left ++ enc)
        rwa [List.length_append, List.append_assoc] at hrest

/-- On a valid payload the code returns the reference parser's values if every
argument behind the first null string is a single zero word, and, unless an
empty string with its NUL stands there too, only then. -/
theorem interpertMessagePayload_of_parseWirePayload {types : List ArgumentType}
    {payload : List Byte} {args : List WireArgument}
    (h : parseWirePayload types payload = some args) :
    ((∀ arg ∈ afterNull args, arg.IsZeroWord) →
      interpertMessagePayload .unchecked payload types =
        .ok (args.map WireArgument.value)) ∧
    (interpertMessagePayload .unchecked payload types = .ok (args.map WireArgument.value) →
      (∀ arg ∈ afterNull args, arg.IsZeroWord) ∨ .string [] ∈ afterNull args) :=
  (readElements_of_parse h []).symm

theorem interpertMessagePayload_of_parseWirePayload_last :
    ((∀ arg ∈ afterNull [.word .wuint 7, .nullString], arg.IsZeroWord) →
      interpertMessagePayload .unchecked [7, 0, 0, 0, 0, 0, 0, 0] [.static .wuint, .wstring] =
        .ok [.static (.wuint 7), .wstring []]) ∧
    (interpertMessagePayload .unchecked [7, 0, 0, 0, 0, 0, 0, 0] [.static .wuint, .wstring] =
        .ok [.static (.wuint 7), .wstring []] →
      (∀ arg ∈ afterNull [.word .wuint 7, .nullString], arg.IsZeroWord) ∨
        .string [] ∈ afterNull [.word .wuint 7, .nullString]) :=
  interpertMessagePayload_of_parseWirePayload (by decide)

/-- A null string in front of the number 7: the code returns the null string's
length word as the number. -/
theorem interpertMessagePayload_null_wuint :
    parseWirePayload [.wstring, .static .wuint] [0, 0, 0, 0, 7, 0, 0, 0] =
        some [.nullString, .word .wuint 7] ∧
      interpertMessagePayload .unchecked [0, 0, 0, 0, 7, 0, 0, 0] [.wstring, .static .wuint] =
        .ok [.wstring [], .static (.wuint 0)] ∧
      [.wstring [], .static (.wuint 0)] ≠
        [WireArgument.nullString, .word .wuint 7].map WireArgument.value := by
  decide

end Waylander
