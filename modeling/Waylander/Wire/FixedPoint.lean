import Mathlib.Logic.Function.Iterate
import Waylander.Wire.ReferenceFormat
import Waylander.Wire.RoundTrip

/-!
# Fixed-point numbers

On the wire a fixed-point number has its sign in bit 31, its integer bits below
and its fraction in the low byte.  `Wfixed` declares its bit-fields in the order
sign, 23 bits, 8 bits, and the compiler allocates them from the other end of the
word.

Reading the fields of a word by the one layout or by the other are two views of
the same bits, related by a permutation of the bit positions.  It has a single
cycle, so the views agree on no words but those whose bits are all equal.
-/

namespace Waylander

open LittleEndian Buffer

/-- The fields of `f` are the bits of the 24.8 fixed-point word `w`. -/
structure Wfixed.FieldsOf (f : Wfixed) (w : BitVec 32) : Prop where
  isNegative : f.isNegative = w.getLsbD 31
  mantissa : f.mantissa = w.extractLsb' 8 23
  exponent : f.exponent = w.extractLsb' 0 8

/-- Where the wire has the bit that `Wfixed` has at position `i`. -/
def wirePosition (i : ℕ) : ℕ :=
  if i = 0 then 31 else if i < 24 then i + 7 else i - 24

theorem exists_iterate_wirePosition :
    ∀ i < 32, ∃ n < 32, wirePosition^[n] 0 = i := by
  decide

theorem wirePosition_lt {i : ℕ} (h : i < 32) : wirePosition i < 32 := by
  rw [wirePosition]
  split
  · omega
  · split <;> omega

theorem Wfixed.FieldsOf.getLsbD {w : BitVec 32} (h : (ofWord w).FieldsOf w) {i : ℕ}
    (hi : i < 32) : w.getLsbD (wirePosition i) = w.getLsbD i := by
  by_cases hzero : i = 0
  · subst hzero
    exact h.isNegative.symm
  · by_cases hmantissa : i < 24
    · have hbit := congrArg (fun b => b.getLsbD (i - 1)) h.mantissa
      simp only [ofWord, BitVec.getLsbD_extractLsb', show i - 1 < 23 by omega,
        decide_true, Bool.true_and] at hbit
      rw [show 1 + (i - 1) = i by omega, show 8 + (i - 1) = i + 7 by omega] at hbit
      rw [wirePosition, if_neg hzero, if_pos hmantissa, hbit]
    · have hbit := congrArg (fun b => b.getLsbD (i - 24)) h.exponent
      simp only [ofWord, BitVec.getLsbD_extractLsb', show i - 24 < 8 by omega,
        decide_true, Bool.true_and] at hbit
      rw [show 24 + (i - 24) = i by omega, Nat.zero_add] at hbit
      rw [wirePosition, if_neg hzero, if_neg hmantissa, hbit]

/-- All bits of the word are equal. -/
def IsUniform (w : BitVec 32) : Prop :=
  w = 0 ∨ w = BitVec.allOnes 32

instance (w : BitVec 32) : Decidable (IsUniform w) :=
  inferInstanceAs (Decidable (_ ∨ _))

theorem isUniform_of_getLsbD {w : BitVec 32} (h : ∀ i < 32, w.getLsbD i = w.getLsbD 0) :
    IsUniform w := by
  cases hzero : w.getLsbD 0 with
  | false =>
      left
      apply BitVec.eq_of_getLsbD_eq
      intro i hi
      rw [h i hi, hzero]
      simp
  | true =>
      right
      apply BitVec.eq_of_getLsbD_eq
      intro i hi
      rw [h i hi, hzero, BitVec.getLsbD_allOnes, decide_eq_true hi]

/-- The fields that the code reads from a word are those of the fixed-point number
exactly if all bits of the word are equal. -/
theorem Wfixed.fieldsOf_ofWord_iff (w : BitVec 32) : (ofWord w).FieldsOf w ↔ IsUniform w := by
  constructor
  · intro h
    apply isUniform_of_getLsbD
    intro i hi
    obtain ⟨n, -, rfl⟩ := exists_iterate_wirePosition i hi
    clear hi
    -- Along the cycle of positions the bit stays the same.
    have horbit : wirePosition^[n] 0 < 32 ∧ w.getLsbD (wirePosition^[n] 0) = w.getLsbD 0 := by
      induction n with
      | zero => exact ⟨by decide, rfl⟩
      | succ n ih =>
          rw [Function.iterate_succ_apply']
          exact ⟨wirePosition_lt ih.1, (h.getLsbD ih.1).trans ih.2⟩
    exact horbit.2
  · rintro (rfl | rfl)
    · exact ⟨by decide, by decide, by decide⟩
    · exact ⟨by decide, by decide, by decide⟩

/-! ## Messages -/

/-- The payload is interpreted, and each `Wfixed` among the values has the fields
of the word that stands for it on the wire. -/
def DecodesFixed (types : List ArgumentType) (payload : List Byte) (args : List WireArgument) :
    Prop :=
  ∃ values, interpertMessagePayload .unchecked payload types = .ok values ∧
    ∀ (i : ℕ) (w : BitVec 32), args[i]? = some (.word .wfixed w) →
      ∃ f, values[i]? = some (.static (.wfixed f)) ∧ f.FieldsOf w

/-- Of what was added to `buf`, the four bytes of each `Wfixed` are the word with
its fields. -/
def WritesFixed (buf buf' : MessageBuffer) (msg : Message) : Prop :=
  ∀ (i : ℕ) (f : Wfixed), msg.arguments[i]? = some (.static (.wfixed f)) →
    ∃ w, f.FieldsOf w ∧
      (buf'.buff.drop (buf.buff.length + messageHeaderSize +
        argumentsSize (msg.arguments.take i))).take 4 = toBytes 4 w.toNat

/-- The arguments in front of the first null string. -/
def beforeNull (args : List WireArgument) : List WireArgument :=
  args.takeWhile (· ≠ .nullString)

/-- Whatever the code returns begins with the values in front of the first null
string. -/
theorem beforeNull_isPrefix_of_readElements {types : List ArgumentType} {bytes : List Byte}
    {args : List WireArgument} (h : parseWirePayload types bytes = some args)
    (left : List Byte) {values : List Argument}
    (hread : readElements .unchecked (left ++ bytes) left.length types = .ok values) :
    (beforeNull args).map WireArgument.value <+: values := by
  induction types generalizing bytes args left values with
  | nil =>
      simp only [parseWirePayload, Option.ite_none_right_eq_some, Option.some.injEq] at h
      obtain ⟨-, rfl⟩ := h
      exact List.nil_prefix
  | cons t types ih =>
      obtain ⟨arg, args', enc, rest, rfl, rfl, henc, htail⟩ := exists_of_parseWirePayload_cons h
      by_cases hnull : arg = .nullString
      · simp [beforeNull, hnull]
      · have hfirst := henc.readElement32aligned .unchecked left rest (by simp [Build.unchecked])
        rw [if_neg hnull] at hfirst
        obtain ⟨values', hrest, rfl⟩ := (readElements_cons_iff hfirst types).mp hread
        rw [← List.length_append, ← List.append_assoc] at hrest
        have htake : beforeNull (arg :: args') = arg :: beforeNull args' :=
          List.takeWhile_cons_of_pos (by simpa using hnull)
        rw [htake, List.map_cons, List.cons_prefix_cons]
        exact ⟨rfl, ih htail (left ++ enc) hrest⟩

theorem getElem?_of_isPrefix {α : Type} {xs ys : List α} (h : xs <+: ys) {i : ℕ} {x : α}
    (hi : xs[i]? = some x) : ys[i]? = some x := by
  obtain ⟨hlt, -⟩ := List.getElem?_eq_some_iff.mp hi
  obtain ⟨rest, rfl⟩ := h
  rw [List.getElem?_append_left hlt, hi]

theorem getElem?_value {args : List WireArgument} {i : ℕ} {w : BitVec 32}
    (hi : args[i]? = some (.word .wfixed w)) :
    (args.map WireArgument.value)[i]? = some (.static (.wfixed (.ofWord w))) := by
  rw [List.getElem?_map, hi]
  rfl

/-- What is decoded in front of the first null string is right only if the words
there have equal bits. -/
theorem DecodesFixed.isUniform {types : List ArgumentType} {payload : List Byte}
    {args : List WireArgument} (hfixed : DecodesFixed types payload args)
    (h : parseWirePayload types payload = some args) {w : BitVec 32}
    (hw : .word .wfixed w ∈ beforeNull args) : IsUniform w := by
  obtain ⟨values, hvalues, hfields⟩ := hfixed
  obtain ⟨i, hi⟩ := List.mem_iff_getElem?.mp hw
  have hargs : args[i]? = some (.word .wfixed w) :=
    getElem?_of_isPrefix (List.takeWhile_prefix _) hi
  obtain ⟨f, hf, hfieldsOf⟩ := hfields i w hargs
  have hvalue := getElem?_of_isPrefix (beforeNull_isPrefix_of_readElements h [] hvalues)
    (getElem?_value hi)
  rw [hvalue] at hf
  cases hf
  exact (Wfixed.fieldsOf_ofWord_iff w).mp hfieldsOf

theorem mem_beforeNull_or_afterNull {args : List WireArgument} {arg : WireArgument}
    (hmem : arg ∈ args) :
    arg ∈ beforeNull args ∨ arg = .nullString ∨ arg ∈ afterNull args := by
  induction args with
  | nil => cases hmem
  | cons a args ih =>
      by_cases hnull : a = .nullString
      · subst hnull
        rw [afterNull, if_pos rfl]
        exact Or.inr (List.mem_cons.mp hmem)
      · have htake : beforeNull (a :: args) = a :: beforeNull args :=
          List.takeWhile_cons_of_pos (by simpa using hnull)
        rw [htake, afterNull, if_neg hnull]
        rcases List.mem_cons.mp hmem with rfl | hmem
        · exact Or.inl List.mem_cons_self
        · exact (ih hmem).imp_left (List.mem_cons_of_mem a)

/-- All bits of each word of a fixed-point number, received or to be written, are
equal, and nothing but zero words follows a null string that is received. -/
structure FixedSurvives (args : List WireArgument) (msg : Message) : Prop where
  received : ∀ w, .word .wfixed w ∈ args → IsUniform w
  behindNull : ∀ arg ∈ afterNull args, arg.IsZeroWord
  written : ∀ f, .static (.wfixed f) ∈ msg.arguments → IsUniform f.toWord

/-- Where only zero words follow a null string, the code reads the values on the
wire. -/
theorem decodesFixed_of_isUniform {types : List ArgumentType} {payload : List Byte}
    {args : List WireArgument} (h : parseWirePayload types payload = some args)
    (hnull : ∀ arg ∈ afterNull args, arg.IsZeroWord)
    (huniform : ∀ w, .word .wfixed w ∈ args → IsUniform w) :
    DecodesFixed types payload args := by
  refine ⟨_, (readElements_of_parse h []).2 hnull, ?_⟩
  intro i w hi
  have hw := huniform w (List.mem_iff_getElem?.mpr ⟨i, hi⟩)
  exact ⟨_, getElem?_value hi, (Wfixed.fieldsOf_ofWord_iff w).mpr hw⟩

theorem DecodesFixed.isUniform_of_afterNull {types : List ArgumentType} {payload : List Byte}
    {args : List WireArgument} (hfixed : DecodesFixed types payload args)
    (h : parseWirePayload types payload = some args)
    (hnull : ∀ arg ∈ afterNull args, arg.IsZeroWord) {w : BitVec 32}
    (hw : .word .wfixed w ∈ args) : IsUniform w := by
  rcases mem_beforeNull_or_afterNull hw with hbefore | hother | hafter
  · exact hfixed.isUniform h hbefore
  · cases hother
  · exact Or.inl (hnull _ hafter)

/-- Where an argument stands behind those before it. -/
theorem encodeArguments_drop (stale : ℕ → Byte) {args : List Argument} {i : ℕ}
    {arg : Argument} (h : args[i]? = some arg) (start : ℕ) :
    ∃ start' rest, (encodeArguments stale start args).drop (argumentsSize (args.take i)) =
      arg.encode stale start' ++ rest := by
  induction args generalizing i start with
  | nil => simp at h
  | cons a args ih =>
      cases i with
      | zero =>
          rw [List.getElem?_cons_zero, Option.some.injEq] at h
          subst h
          exact ⟨start, _, rfl⟩
      | succ i =>
          obtain ⟨start', rest, hdrop⟩ := ih h (start + a.encodedSize)
          refine ⟨start', rest, ?_⟩
          have hsize : argumentsSize ((a :: args).take (i + 1)) =
              (a.encode stale start).length + argumentsSize (args.take i) := by
            rw [List.take_succ_cons, Argument.encode_length]
            rfl
          rw [hsize, encodeArguments, ← List.drop_drop, List.drop_left, hdrop]

theorem take_static (stale : ℕ → Byte) (start : ℕ) (p : StaticArgument) (rest : List Byte) :
    ((Argument.static p).encode stale start ++ rest).take 4 = toBytes 4 p.toWord.toNat := by
  rw [Argument.encode, Argument.contents, List.append_assoc,
    List.take_append_of_le_length (by simp), List.take_of_length_le (by simp)]

theorem toBytes_toNat_inj {w w' : BitVec 32} (h : toBytes 4 w.toNat = toBytes 4 w'.toNat) :
    w = w' := by
  have hbytes := congrArg ofBytes h
  rw [ofBytes_toBytes_of_lt w.isLt, ofBytes_toBytes_of_lt w'.isLt] at hbytes
  exact BitVec.eq_of_toNat_eq hbytes

theorem writesFixed_iff {build : Build} {stale : ℕ → Byte} {buf buf' : MessageBuffer}
    {obj : Wobject} {msg : Message} (h : append build stale buf obj msg = .ok buf') :
    WritesFixed buf buf' msg ↔
      ∀ f, .static (.wfixed f) ∈ msg.arguments → IsUniform f.toWord := by
  obtain ⟨-, rfl⟩ := append_ok build stale h
  have hbytes : ∀ {i : ℕ} {f : Wfixed}, msg.arguments[i]? = some (.static (.wfixed f)) →
      ((buf.buff ++ msg.encode stale buf.buff.length obj).drop (buf.buff.length +
        messageHeaderSize + argumentsSize (msg.arguments.take i))).take 4 =
          toBytes 4 f.toWord.toNat := by
    intro i f hi
    obtain ⟨start, rest, hdrop⟩ :=
      encodeArguments_drop stale hi (buf.buff.length + messageHeaderSize)
    rw [Nat.add_assoc, ← List.drop_drop, List.drop_left, Message.encode, ← List.drop_drop,
      ← (msg.header obj).bytes_length, List.drop_left]
    rw [MessageHeader.bytes_length, hdrop]
    exact take_static stale start (.wfixed f) rest
  have hfields := fun f : Wfixed => Wfixed.fieldsOf_ofWord_iff f.toWord
  simp only [Wfixed.ofWord_toWord] at hfields
  constructor
  · intro hwrites f hf
    obtain ⟨i, hi⟩ := List.mem_iff_getElem?.mp hf
    obtain ⟨w, hw, htake⟩ := hwrites i f hi
    obtain rfl := toBytes_toNat_inj ((hbytes hi).symm.trans htake)
    exact (hfields f).mp hw
  · intro huniform i f hi
    have hf := huniform f (List.mem_iff_getElem?.mpr ⟨i, hi⟩)
    exact ⟨f.toWord, (hfields f).mpr hf, hbytes hi⟩

/-- The fields of fixed-point numbers survive decoding and encoding if all bits of
each of their words are equal and only zero words follow a null string.  For
encoding, and for decoding where only zero words follow a null string, this is also
necessary.  Where something else follows one, the code does not return the values
on the wire; there equal bits are still necessary in front of it. -/
theorem fixed_fields_iff {types : List ArgumentType} {payload : List Byte}
    {args : List WireArgument} (h : parseWirePayload types payload = some args)
    {build : Build} {stale : ℕ → Byte} {buf buf' : MessageBuffer} {obj : Wobject}
    {msg : Message} (happend : append build stale buf obj msg = .ok buf') :
    (FixedSurvives args msg → DecodesFixed types payload args ∧ WritesFixed buf buf' msg) ∧
    (DecodesFixed types payload args ∧ WritesFixed buf buf' msg →
      (∀ arg ∈ afterNull args, arg.IsZeroWord) → FixedSurvives args msg) ∧
    (DecodesFixed types payload args → ∀ w, .word .wfixed w ∈ beforeNull args → IsUniform w) ∧
    (WritesFixed buf buf' msg ↔
      ∀ f, .static (.wfixed f) ∈ msg.arguments → IsUniform f.toWord) := by
  have hwrites := writesFixed_iff happend
  refine ⟨?_, ?_, fun hfixed _ hw => hfixed.isUniform h hw, hwrites⟩
  · intro hsurvives
    exact ⟨decodesFixed_of_isUniform h hsurvives.behindNull hsurvives.received,
      hwrites.mpr hsurvives.written⟩
  · rintro ⟨hdecodes, hwritten⟩ hnull
    exact ⟨fun _ hw => hdecodes.isUniform_of_afterNull h hnull hw, hnull,
      hwrites.mp hwritten⟩

theorem fixed_fields_iff_negative :
    (FixedSurvives [.word .wuint 7, .word .wfixed 0xffffffff]
        ⟨0, [.static (.wfixed ⟨true, 0x7fffff, 0xff⟩)]⟩ →
      DecodesFixed [.static .wuint, .static .wfixed] [7, 0, 0, 0, 255, 255, 255, 255]
          [.word .wuint 7, .word .wfixed 0xffffffff] ∧
        WritesFixed {} { buff := [1, 0, 0, 0, 0, 0, 12, 0, 255, 255, 255, 255] }
          ⟨0, [.static (.wfixed ⟨true, 0x7fffff, 0xff⟩)]⟩) ∧
    (DecodesFixed [.static .wuint, .static .wfixed] [7, 0, 0, 0, 255, 255, 255, 255]
          [.word .wuint 7, .word .wfixed 0xffffffff] ∧
        WritesFixed {} { buff := [1, 0, 0, 0, 0, 0, 12, 0, 255, 255, 255, 255] }
          ⟨0, [.static (.wfixed ⟨true, 0x7fffff, 0xff⟩)]⟩ →
      (∀ arg ∈ afterNull [.word .wuint 7, .word .wfixed 0xffffffff], arg.IsZeroWord) →
        FixedSurvives [.word .wuint 7, .word .wfixed 0xffffffff]
          ⟨0, [.static (.wfixed ⟨true, 0x7fffff, 0xff⟩)]⟩) ∧
    (DecodesFixed [.static .wuint, .static .wfixed] [7, 0, 0, 0, 255, 255, 255, 255]
        [.word .wuint 7, .word .wfixed 0xffffffff] →
      ∀ w, .word .wfixed w ∈ beforeNull [.word .wuint 7, .word .wfixed 0xffffffff] →
        IsUniform w) ∧
    (WritesFixed {} { buff := [1, 0, 0, 0, 0, 0, 12, 0, 255, 255, 255, 255] }
        ⟨0, [.static (.wfixed ⟨true, 0x7fffff, 0xff⟩)]⟩ ↔
      ∀ f, .static (.wfixed f) ∈ [Argument.static (.wfixed ⟨true, 0x7fffff, 0xff⟩)] →
        IsUniform f.toWord) :=
  fixed_fields_iff (by decide)
    (show append .unchecked (fun _ => 0) {} 1 ⟨0, _⟩ = .ok _ by decide)

/-- The number 1 comes with 128 in the 23-bit field, and a number with 1 in that
field is written as the word 2. -/
theorem not_fields_one :
    parseWirePayload [.static .wfixed] [0, 1, 0, 0] = some [.word .wfixed 256] ∧
      interpertMessagePayload .unchecked [0, 1, 0, 0] [.static .wfixed] =
        .ok [.static (.wfixed ⟨false, 128, 0⟩)] ∧
      ¬DecodesFixed [.static .wfixed] [0, 1, 0, 0] [.word .wfixed 256] ∧
      append .unchecked (fun _ => 0) {} 1 ⟨0, [.static (.wfixed ⟨false, 1, 0⟩)]⟩ =
        .ok { buff := [1, 0, 0, 0, 0, 0, 12, 0, 2, 0, 0, 0] } ∧
      ¬WritesFixed {} { buff := [1, 0, 0, 0, 0, 0, 12, 0, 2, 0, 0, 0] }
        ⟨0, [.static (.wfixed ⟨false, 1, 0⟩)]⟩ := by
  have hread : interpertMessagePayload .unchecked [0, 1, 0, 0] [.static .wfixed] =
      .ok [.static (.wfixed ⟨false, 128, 0⟩)] := by decide
  refine ⟨by decide, hread, ?_, by decide, ?_⟩
  · rintro ⟨values, hvalues, hfields⟩
    obtain rfl := Except.ok.inj (hread.symm.trans hvalues)
    obtain ⟨f, hf, hfieldsOf⟩ := hfields 0 256 rfl
    cases hf
    exact absurd hfieldsOf.mantissa (by decide)
  · intro hwrites
    obtain ⟨w, hfieldsOf, hbytes⟩ := hwrites 0 ⟨false, 1, 0⟩ rfl
    obtain rfl := toBytes_toNat_inj (w := 2) hbytes
    exact absurd hfieldsOf.mantissa (by decide)

end Waylander
