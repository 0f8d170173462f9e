import Mathlib.Data.List.TakeWhile
import Waylander.Wire.ReferenceFormat

/-!
# Subscripts

Where `append` and `interpert_message_payload` evaluate a subscript, also one
that only an address is taken from.  In a build with bounds-checked containers
a subscript that is not below the size aborts, so such a build tells whether one
is evaluated.

Both functions take the address of the first byte of an array before they look
at its length.  For an empty array `append` has no byte there at all, and the
interpretation has one only if another argument follows.
-/

namespace Waylander

open LittleEndian Buffer

/-! ## The encoder -/

section Append

variable (build : Build) (stale : ℕ → Byte)

/-- `append`'s assertion about the length of a string or an array holds. -/
def Argument.FitsLengthWord (arg : Argument) : Prop :=
  arg.lengthWord < 2 ^ 32

instance (arg : Argument) : Decidable arg.FitsLengthWord :=
  inferInstanceAs (Decidable (_ < _))

/-- Every subscript that `append` evaluates is below the size of the buffer at
that moment, and in every build each range it copies to lies in the buffer. -/
def AppendsInside (buf : MessageBuffer) (obj : Wobject) (msg : Message) : Prop :=
  append .checked stale buf obj msg ≠ .error .subscript ∧
    ∀ build, append build stale buf obj msg ≠ .error .outside

theorem writeElement32aligned_too_long {arg : Argument} (h : ¬arg.FitsLengthWord)
    (l : AppendLocals) :
    writeElement32aligned build stale l arg = .error .assertion := by
  rw [Argument.FitsLengthWord, Nat.not_lt] at h
  cases arg with
  | static p => simp [Argument.lengthWord] at h
  | wstring str =>
      rw [Argument.lengthWord] at h
      simp only [writeElement32aligned, writeWstring, if_pos h]
      rfl
  | warray arr =>
      rw [Argument.lengthWord] at h
      simp only [writeElement32aligned, writeWarray, if_pos h]
      rfl
  | wfd fd => simp [Argument.lengthWord] at h

/-- The first byte of an empty array is looked for right behind the buffer. -/
theorem writeElement32aligned_empty (l : AppendLocals) :
    writeElement32aligned .checked stale l (.warray []) = .error .subscript := by
  set v := l.buffer.buff with hv
  have hlength := memcpyInto_fresh .checked stale v (toBytes 4 0) (k := 4)
    (by simp) (by simp)
  have hempty : memcpyInto .checked
      (v ++ toBytes 4 0 ++ fresh stale (v ++ toBytes 4 0).length (4 - (toBytes 4 0).length))
      (v.length + 4) [] = .error .subscript := by
    simp [memcpyInto, subscript, Build.checked, bind, Except.bind]
  have hsize : 4 + ([] : List Byte).length +
      roundUptoMultipleOf 4 (4 + ([] : List Byte).length) = 4 := rfl
  have hfits : ¬2 ^ 32 ≤ ([] : List Byte).length := by simp
  simp only [writeElement32aligned, writeWarray, ← hv, hsize, resize_add, if_neg hfits]
  simp only [List.length_nil, hlength, hempty, bind, Except.bind]

/-- Which subscript of an argument's bytes aborts. -/
theorem writeElement32aligned_checked (l : AppendLocals) {arg : Argument}
    (h : arg.FitsLengthWord) :
    writeElement32aligned .checked stale l arg = .error .subscript ↔ arg = .warray [] := by
  constructor
  · intro herror
    by_contra hne
    rw [writeElement32aligned_ok .checked stale h (fun _ => hne)] at herror
    cases herror
  · rintro rfl
    exact writeElement32aligned_empty stale l

/-- The first argument that is too long trips the assertion, and no later one is
written. -/
theorem foldlM_checked (args : List Argument) (l : AppendLocals) :
    args.foldlM (writeElement32aligned .checked stale) l = .error .subscript ↔
      .warray [] ∈ args.takeWhile fun arg => arg.FitsLengthWord := by
  induction args generalizing l with
  | nil => simp [pure, Except.pure]
  | cons arg args ih =>
      rw [List.foldlM_cons]
      by_cases hfits : arg.FitsLengthWord
      · have hchecked := writeElement32aligned_checked stale l hfits
        rw [List.takeWhile_cons_of_pos (by simpa using hfits), List.mem_cons]
        by_cases hempty : arg = .warray []
        · subst hempty
          simp [writeElement32aligned_empty, bind, Except.bind]
        · rw [writeElement32aligned_ok .checked stale hfits (fun _ => hempty)]
          have hne : .warray [] ≠ arg := Ne.symm hempty
          simp only [hne, false_or]
          exact ih _
      · rw [List.takeWhile_cons_of_neg (by simpa using hfits),
          writeElement32aligned_too_long .checked stale hfits]
        simp [bind, Except.bind]

theorem foldlM_ne_outside (args : List Argument) (l : AppendLocals) :
    args.foldlM (writeElement32aligned build stale) l ≠ .error .outside := by
  induction args generalizing l with
  | nil => simp [pure, Except.pure]
  | cons arg args ih =>
      rw [List.foldlM_cons]
      by_cases hfits : arg.FitsLengthWord
      · by_cases hempty : build.boundsChecked = true ∧ arg = .warray []
        · obtain ⟨hchecked, rfl⟩ := hempty
          obtain rfl : build = .checked := congrArg Build.mk hchecked
          simp [writeElement32aligned_empty, bind, Except.bind]
        · rw [writeElement32aligned_ok build stale hfits (fun hc he => hempty ⟨hc, he⟩)]
          exact ih _
      · rw [writeElement32aligned_too_long build stale hfits]
        simp [bind, Except.bind]

/-- The room for the header is there when it is written. -/
theorem append_eq_error_iff (buf : MessageBuffer) (obj : Wobject) (msg : Message)
    (e : Fault) :
    append build stale buf obj msg = .error e ↔
      appendArguments build stale buf msg = .error e := by
  cases hargs : appendArguments build stale buf msg with
  | error e' => simp [append, hargs, bind, Except.bind]
  | ok l =>
      have hunchecked := completes_foldlM build stale msg.arguments _ l hargs
      have hmsg : msg.AssertionsPass := lengthWord_lt_of_foldlM stale hunchecked
      have hl := appendArguments_ok .unchecked stale hmsg (addresses_unchecked _) buf
      obtain rfl := Except.ok.inj (hunchecked.symm.trans hl)
      have hpos : 0 < messageHeaderSize := by decide
      simp only [append, hargs, bind, Except.bind]
      rw [memcpyInto_ok (by simp [hpos]) (by simp)]
      simp [pure, Except.pure]

/-- A bounds-checked build runs `append` to its end or to its assertion exactly
if no array that it writes is empty. -/
theorem appendsInside_iff (buf : MessageBuffer) (obj : Wobject) (msg : Message) :
    AppendsInside stale buf obj msg ↔
      .warray [] ∉ msg.arguments.takeWhile fun arg => arg.FitsLengthWord := by
  have houtside : ∀ build, append build stale buf obj msg ≠ .error .outside := by
    intro build
    rw [Ne, append_eq_error_iff]
    exact foldlM_ne_outside build stale _ _
  have hsubscript : append .checked stale buf obj msg = .error .subscript ↔
      .warray [] ∈ msg.arguments.takeWhile fun arg => arg.FitsLengthWord := by
    rw [append_eq_error_iff]
    exact foldlM_checked stale _ _
  rw [AppendsInside, Ne, hsubscript]
  exact and_iff_left houtside

/-- Which arguments are written, and what they add. -/
theorem foldlM_eq_ok_iff {args : List Argument} {l l' : AppendLocals} :
    args.foldlM (writeElement32aligned build stale) l = .ok l' ↔
      (∀ arg ∈ args, arg.FitsLengthWord) ∧ build.Addresses args ∧
        l' =
          { buffer :=
              { buff := l.buffer.buff ++ encodeArguments stale l.buffer.buff.length args
                fdBuff := l.buffer.fdBuff ++ args.flatMap Argument.fds }
            msgTotalSize := l.msgTotalSize + argumentsSize args } := by
  constructor
  · intro h
    have hargs := lengthWord_lt_of_foldlM stale (completes_foldlM build stale args l l' h)
    have hne : build.Addresses args := by
      intro hchecked hmem
      obtain rfl : build = .checked := congrArg Build.mk hchecked
      have htake : args.takeWhile (fun arg => arg.FitsLengthWord) = args := by
        rw [List.takeWhile_eq_self_iff]
        intro arg harg
        exact decide_eq_true (hargs arg harg)
      have haborts := (foldlM_checked stale args l).mpr (by rwa [htake])
      rw [haborts] at h
      cases h
    rw [foldlM_writeElement32aligned build stale hargs hne] at h
    exact ⟨hargs, hne, (Except.ok.inj h).symm⟩
  · rintro ⟨hargs, hne, rfl⟩
    exact foldlM_writeElement32aligned build stale hargs hne l

/-- In which builds and for which messages `append` returns. -/
theorem append_returns_iff (buf : MessageBuffer) (obj : Wobject) (msg : Message) :
    (∃ buf', append build stale buf obj msg = .ok buf') ↔
      msg.AssertionsPass ∧ build.Addresses msg.arguments := by
  constructor
  · rintro ⟨buf', hbuf'⟩
    obtain ⟨l, hl, -⟩ := Fallible.bind_eq_ok_iff.mp hbuf'
    obtain ⟨hmsg, hne, -⟩ := (foldlM_eq_ok_iff build stale).mp hl
    exact ⟨hmsg, hne⟩
  · rintro ⟨hmsg, hne⟩
    exact ⟨_, append_eq build stale hmsg hne buf obj⟩

end Append

/-- A message with one empty array, appended to an empty buffer. -/
theorem not_appendsInside_empty :
    append .checked (fun _ => 0) {} 1 ⟨0, [.warray []]⟩ = .error .subscript ∧
      ¬AppendsInside (fun _ => 0) {} 1 ⟨0, [.warray []]⟩ := by
  have haborts : append .checked (fun _ => 0) {} 1 ⟨0, [.warray []]⟩ = .error .subscript := by
    decide
  exact ⟨haborts, fun hinside => hinside.1 haborts⟩

/-! ## The decoder -/

section Interpert

/-- A build with a bounds-checked span interprets the payload without aborting. -/
def DecodesInside (types : List ArgumentType) (payload : List Byte) : Prop :=
  ∃ values, interpertMessagePayload .checked payload types = .ok values

/-- The argument is a `static_message_argument`. -/
def WireArgument.IsWord (arg : WireArgument) : Prop :=
  ∃ t w, arg = .word t w

/-- The arguments are zero words, and perhaps one more that only words follow. -/
inductive Trailing : List WireArgument → Prop
  | nil : Trailing []
  | zero {arg : WireArgument} {args : List WireArgument} (hzero : arg.IsZeroWord)
      (hargs : Trailing args) : Trailing (arg :: args)
  | words {arg : WireArgument} {args : List WireArgument}
      (hargs : ∀ a ∈ args, a.IsWord) : Trailing (arg :: args)

/-- No empty array stands at the end, and behind the first null string, where the
code is one argument behind, nothing but `Trailing` arguments. -/
def SubscriptsInside (args : List WireArgument) : Prop :=
  Trailing (afterNull args) ∧ (.nullString ∉ args → args.getLast? ≠ some (.array []))

theorem readElements_ok {build : Build} {payload : List Byte} {bytesRead next : ℕ}
    {t : ArgumentType} {arg : Argument}
    (h : readElement32aligned build payload bytesRead t = .ok (arg, next))
    (types : List ArgumentType) :
    (∃ values, readElements build payload bytesRead (t :: types) = .ok values) ↔
      ∃ values, readElements build payload next types = .ok values := by
  simp only [readElements_cons_iff h]
  simp

theorem WireEncoding.length_pos {t : ArgumentType} {arg : WireArgument} {enc : List Byte}
    (h : WireEncoding t arg enc) : 0 < enc.length := by
  cases h <;> simp

theorem parseWirePayload_nil {types : List ArgumentType} {args : List WireArgument}
    (h : parseWirePayload types [] = some args) : types = [] ∧ args = [] := by
  cases types with
  | nil => simpa [parseWirePayload, eq_comm] using h
  | cons t types =>
      obtain ⟨arg, args', enc, rest, -, hbytes, henc, -⟩ := exists_of_parseWirePayload_cons h
      have hlength := congrArg List.length hbytes
      rw [List.length_nil, List.length_append] at hlength
      have hpos := henc.length_pos
      omega

theorem parseWirePayload_eq_nil {types : List ArgumentType} {bytes : List Byte}
    (h : parseWirePayload types bytes = some []) : bytes = [] := by
  cases types with
  | nil => simpa [parseWirePayload] using h
  | cons t types => simp [parseWirePayload, Option.bind_eq_some_iff] at h

/-- Words are read from any bytes, if there are enough. -/
theorem exists_readElements_words (build : Build) (payload : List Byte) {bytes : List Byte}
    {types : List ArgumentType} {args : List WireArgument}
    (h : parseWirePayload types bytes = some args) (hargs : ∀ a ∈ args, a.IsWord)
    (bytesRead : ℕ) (hsize : bytesRead + bytes.length ≤ payload.length) :
    ∃ values, readElements build payload bytesRead types = .ok values := by
  induction types generalizing bytes args bytesRead with
  | nil => exact ⟨[], rfl⟩
  | cons t types ih =>
      obtain ⟨arg, args', enc, rest, rfl, rfl, henc, htail⟩ := exists_of_parseWirePayload_cons h
      obtain ⟨t', w, rfl⟩ := hargs arg (by simp)
      cases henc with
      | @word t n hn =>
          simp only [List.length_append, toBytes_length] at hsize
          have hcopy : memcpyFrom build payload bytesRead 4 =
              .ok ((payload.drop bytesRead).take 4) :=
            memcpyFrom_ok (fun _ => by omega) (by omega)
          have hread : readElement32aligned build payload bytesRead (.static t') =
              .ok (.static (t'.ofWord (BitVec.ofNat 32
                (ofBytes ((payload.drop bytesRead).take 4)))), bytesRead + 4) := by
            simp [readElement32aligned, readStatic, hcopy, roundUptoMultipleOf, bind,
              Except.bind, pure, Except.pure]
          rw [readElements_ok hread]
          exact ih htail (fun a ha => hargs a (by simp [ha])) _ (by omega)

/-- Behind a null string the code reads each argument from the zero words in front
of it. -/
theorem exists_readElements_trailing {types : List ArgumentType} {bytes : List Byte}
    {args : List WireArgument} (h : parseWirePayload types bytes = some args)
    (hargs : Trailing args) (left : List Byte) (k : ℕ) :
    ∃ values, readElements .checked
      (left ++ (toBytes 4 0 ++ ((List.replicate k (toBytes 4 0)).flatten ++ bytes)))
      left.length types = .ok values := by
  induction types generalizing bytes args left k with
  | nil => exact ⟨[], rfl⟩
  | cons t types ih =>
      obtain ⟨arg, args', enc, rest, rfl, rfl, henc, htail⟩ := exists_of_parseWirePayload_cons h
      have hpos := henc.length_pos
      have hbehind : (List.replicate k (toBytes 4 0)).flatten ++ (enc ++ rest) ≠ [] := by
        apply List.ne_nil_of_length_pos
        simp only [List.length_append]
        omega
      have hread := readElement32aligned_zero .checked henc.type_ne_wfd left _
        (fun _ => hbehind)
      rw [readElements_ok hread]
      cases hargs with
      | zero hzero hargs =>
          rw [henc.eq_of_isZeroWord hzero, flatten_replicate_append]
          by_cases hstring : t = .wstring
          · have hrest := ih htail hargs left (k + 1)
            rw [List.replicate_succ, List.flatten_cons, List.append_assoc] at hrest
            rwa [if_pos hstring]
          · have hrest := ih htail hargs (left ++ toBytes 4 0) k
            rw [List.length_append, toBytes_length, List.append_assoc] at hrest
            rwa [if_neg hstring]
      | words hargs =>
          apply exists_readElements_words .checked _ htail hargs
          simp only [List.length_append, toBytes_length]
          split <;> omega

theorem readElement32aligned_empty_last (left : List Byte) :
    readElement32aligned .checked (left ++ toBytes 4 0) left.length .warray =
      .error .subscript := by
  obtain ⟨bytes, hcopy, -⟩ :=
    memcpyFrom_toBytes .checked left [] (n := 4) (v := 0) (by decide) (by decide)
  rw [List.append_nil] at hcopy
  have hend : subscript .checked (left ++ toBytes 4 0).length (left.length + 4) =
      .error .subscript := by
    simp [subscript, Build.checked]
  simp only [readElement32aligned, readWarray, hcopy, hend, bind, Except.bind]

/-- An argument that is not an empty array at the end of the payload moves the
condition on to the arguments behind it. -/
theorem subscriptsInside_cons {arg : WireArgument} {args : List WireArgument}
    (hnull : arg ≠ .nullString) (hlast : args = [] → arg ≠ .array []) :
    SubscriptsInside (arg :: args) ↔ SubscriptsInside args := by
  have hmem : .nullString ∈ arg :: args ↔ .nullString ∈ args := by
    simp [Ne.symm hnull]
  rw [SubscriptsInside, SubscriptsInside, afterNull, if_neg hnull, hmem]
  by_cases hargs : args = []
  · subst hargs
    simp [afterNull, hlast rfl]
  · rw [List.getLast?_cons_of_ne_nil hargs]

theorem readElements_checked {types : List ArgumentType} {bytes : List Byte}
    {args : List WireArgument} (h : parseWirePayload types bytes = some args)
    (left : List Byte) :
    (SubscriptsInside args →
      ∃ values, readElements .checked (left ++ bytes) left.length types = .ok values) ∧
    (afterNull args = [] →
      (∃ values, readElements .checked (left ++ bytes) left.length types = .ok values) →
        SubscriptsInside args) := by
  induction types generalizing bytes args left with
  | nil =>
      simp only [parseWirePayload, Option.ite_none_right_eq_some, Option.some.injEq] at h
      obtain ⟨-, rfl⟩ := h
      constructor
      · intro _
        exact ⟨[], rfl⟩
      · intro _ _
        exact ⟨.nil, by simp⟩
  | cons t types ih =>
      obtain ⟨arg, args', enc, rest, rfl, rfl, henc, htail⟩ := exists_of_parseWirePayload_cons h
      by_cases hend : arg = .array [] ∧ rest = []
      · -- The empty array is all that is left of the payload.
        obtain ⟨rfl, rfl⟩ := hend
        obtain ⟨rfl, rfl⟩ := parseWirePayload_nil htail
        obtain rfl : t = .warray := by
          cases henc
          rfl
        have hread := readElement32aligned_empty_last left
        rw [henc.eq_of_isZeroWord rfl, List.append_nil]
        simp [readElements, hread, SubscriptsInside, bind, Except.bind]
      · have hbehind : arg = .array [] → rest ≠ [] := fun harg hrest => hend ⟨harg, hrest⟩
        have hread := henc.readElement32aligned .checked left rest (fun _ => hbehind)
        rw [readElements_ok hread]
        by_cases hnull : arg = .nullString
        · subst hnull
          rw [if_pos rfl, henc.eq_of_isZeroWord trivial]
          constructor
          · rintro ⟨htrailing, -⟩
            rw [afterNull, if_pos rfl] at htrailing
            simpa using exists_readElements_trailing htail htrailing left 0
          · intro hafter _
            exact ⟨hafter ▸ .nil, by simp⟩
        · have hlast : args' = [] → arg ≠ .array [] := by
            rintro rfl harg
            exact hbehind harg (parseWirePayload_eq_nil htail)
          have hrest := ih htail (left ++ enc)
          rw [List.length_append, List.append_assoc] at hrest
          rw [subscriptsInside_cons hnull hlast, afterNull, if_neg hnull, if_neg hnull]
          exact hrest

/-- A valid payload is interpreted with every subscript inside if no empty array
stands at its end and no string but a trailing one is null; where no argument
follows a null string, only then. -/
theorem decodesInside_of_parseWirePayload {types : List ArgumentType}
    {payload : List Byte} {args : List WireArgument}
    (h : parseWirePayload types payload = some args) :
    (SubscriptsInside args → DecodesInside types payload) ∧
      (afterNull args = [] → DecodesInside types payload → SubscriptsInside args) :=
  readElements_checked h []

theorem decodesInside_of_parseWirePayload_two :
    (SubscriptsInside [.array [], .word .wuint 7] →
      DecodesInside [.warray, .static .wuint] [0, 0, 0, 0, 7, 0, 0, 0]) ∧
    (afterNull [.array [], .word .wuint 7] = [] →
      DecodesInside [.warray, .static .wuint] [0, 0, 0, 0, 7, 0, 0, 0] →
        SubscriptsInside [.array [], .word .wuint 7]) :=
  decodesInside_of_parseWirePayload (by decide)

/-- An empty array that is the last argument is looked for behind the payload. -/
theorem not_decodesInside_empty :
    parseWirePayload [.warray] [0, 0, 0, 0] = some [.array []] ∧
      interpertMessagePayload .checked [0, 0, 0, 0] [.warray] = .error .subscript ∧
      ¬DecodesInside [.warray] [0, 0, 0, 0] := by
  have haborts : interpertMessagePayload .checked [0, 0, 0, 0] [.warray] =
      .error .subscript := by decide
  refine ⟨by decide, haborts, ?_⟩
  rintro ⟨values, hvalues⟩
  rw [haborts] at hvalues
  cases hvalues

end Interpert

end Waylander
