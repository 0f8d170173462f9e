import Waylander.Wire.ReferenceEncoder
import Waylander.Wire.ReferenceFormat

/-!
# Encoding what was decoded

A valid payload is interpreted and the message that comes out is appended again.
The encoder has one form for a string, with a length word that counts the
terminating NUL, so a null string comes back as an empty one.  Every other
argument comes back as it stood on the wire, but for its padding.
-/

namespace Waylander

open LittleEndian Buffer

namespace WireFormat

/-- What the format lays down for an argument that stands on the wire. -/
def wireArgument : WireArgument → WireFormat
  | .word _ w => word w
  | .nullString => word 0
  | .string str => word (BitVec.ofNat 32 (str.length + 1)) ++ block (str ++ [0])
  | .array arr => word (BitVec.ofNat 32 arr.length) ++ block arr

def wirePayload (args : List WireArgument) : WireFormat :=
  args.flatMap wireArgument

/-- Two byte strings are equally long and have the same bytes, but for those that
the format leaves unspecified. -/
def SameOutsidePadding (format : WireFormat) (bytes bytes' : List Byte) : Prop :=
  bytes.length = bytes'.length ∧
    ∀ (i : ℕ) (b : Byte), format[i]? = some (some b) → bytes[i]? = bytes'[i]?

theorem Agrees.getElem? {format : WireFormat} {bytes : List Byte} (h : Agrees format bytes)
    {i : ℕ} {b : Byte} (hi : format[i]? = some (some b)) : bytes[i]? = some b := by
  induction h generalizing i with
  | nil => simp at hi
  | @cons specified byte format bytes hhead htail ih =>
      cases i with
      | zero =>
          rw [List.getElem?_cons_zero, Option.some.injEq] at hi
          rw [List.getElem?_cons_zero, hhead b hi]
      | succ i =>
          rw [List.getElem?_cons_succ] at hi ⊢
          exact ih hi

theorem agrees_of_getElem? {format : WireFormat} {bytes : List Byte}
    (hlength : format.length = bytes.length)
    (h : ∀ (i : ℕ) (b : Byte), format[i]? = some (some b) → bytes[i]? = some b) :
    Agrees format bytes := by
  rw [Agrees, List.forall₂_iff_get]
  refine ⟨hlength, ?_⟩
  intro i hi hi' b hb
  have hspecified := h i b (by rw [List.getElem?_eq_getElem hi]; exact congrArg some hb)
  rw [List.getElem?_eq_getElem hi'] at hspecified
  exact Option.some.inj hspecified

/-- Agreement with a format that a byte string has. -/
theorem Agrees.sameOutsidePadding_iff {format : WireFormat} {bytes bytes' : List Byte}
    (h : Agrees format bytes) :
    SameOutsidePadding format bytes bytes' ↔ Agrees format bytes' := by
  constructor
  · rintro ⟨hlength, hsame⟩
    apply agrees_of_getElem? (h.length_eq.trans hlength)
    intro i b hi
    rw [← hsame i b hi]
    exact h.getElem? hi
  · intro h'
    refine ⟨h.length_eq.symm.trans h'.length_eq, ?_⟩
    intro i b hi
    rw [h.getElem? hi, h'.getElem? hi]

theorem Agrees.of_append {format format' : WireFormat} {bytes bytes' : List Byte}
    (h : Agrees (format ++ format') (bytes ++ bytes')) (hlength : format.length = bytes.length) :
    Agrees format bytes ∧ Agrees format' bytes' := by
  have hleft := List.forall₂_take_append _ _ _ h
  have hright := List.forall₂_drop_append _ _ _ h
  rw [← hlength, List.take_left] at hleft
  rw [← hlength, List.drop_left] at hright
  exact ⟨hleft, hright⟩

theorem argument_value {arg : WireArgument} (h : arg ≠ .nullString) :
    argument arg.value = wireArgument arg := by
  cases arg with
  | word t w => simp [argument, WireArgument.value, wireArgument]
  | nullString => exact absurd rfl h
  | string str => rfl
  | array arr => rfl

end WireFormat

open WireFormat

/-! ## Payloads with terminated strings -/

/-- Every string that is not null ends in NUL. -/
def StringsTerminated : List ArgumentType → List Byte → Prop
  | [], _ => True
  | t :: types, bytes =>
      (t = .wstring → uintAt bytes 0 4 ≠ 0 → bytes[4 + uintAt bytes 0 4 - 1]? = some 0) ∧
        match parseWireArgument bytes t with
        | some (_, rest) => StringsTerminated types rest
        | none => True

theorem WireEncoding.agrees {t : ArgumentType} {arg : WireArgument} {enc : List Byte}
    (h : WireEncoding t arg enc) (rest : List Byte)
    (hnul : t = .wstring → uintAt (enc ++ rest) 0 4 ≠ 0 →
      (enc ++ rest)[4 + uintAt (enc ++ rest) 0 4 - 1]? = some 0) :
    Agrees (wireArgument arg) enc := by
  cases h with
  | @word t n hn => exact agrees_length_word hn
  | nullString => exact agrees_word 0
  | @string block pad hne hn hpad =>
      have hlength : uintAt (toBytes 4 block.length ++ (block ++ pad) ++ rest) 0 4 =
          block.length := by
        simpa using uintAt_toBytes [] (block ++ pad ++ rest) (n := 4) hn
      have hpos := List.length_pos_of_ne_nil hne
      rw [hlength] at hnul
      have hlast := hnul rfl (Nat.ne_of_gt hpos)
      have hindex : 4 + block.length - 1 = (toBytes 4 block.length).length +
          (block.length - 1) := by
        rw [toBytes_length]
        omega
      rw [hindex, List.append_assoc, List.append_assoc, List.getElem?_append_right (by omega),
        Nat.add_sub_cancel_left, List.getElem?_append_left (by omega),
        ← List.getLast?_eq_getElem?, List.getLast?_eq_some_getLast hne, Option.some.injEq] at hlast
      have hstr : block.dropLast.length + 1 = block.length := by
        rw [List.length_dropLast]
        omega
      have hblock : block.dropLast ++ [0] = block := by
        rw [← hlast, List.dropLast_append_getLast]
      rw [wireArgument, hstr, hblock]
      exact (agrees_length_word hn).append (agrees_block block hpad)
  | array hn hpad => exact (agrees_length_word hn).append (agrees_block _ hpad)

/-- A valid payload has the bytes that the format lays down for its arguments. -/
theorem agrees_of_parse {types : List ArgumentType} {payload : List Byte}
    {args : List WireArgument} (h : parseWirePayload types payload = some args)
    (hnul : StringsTerminated types payload) : Agrees (wirePayload args) payload := by
  induction types generalizing payload args with
  | nil =>
      simp only [parseWirePayload, Option.ite_none_right_eq_some, Option.some.injEq] at h
      obtain ⟨rfl, rfl⟩ := h
      exact .nil
  | cons t types ih =>
      simp only [parseWirePayload, Option.bind_eq_bind, Option.bind_eq_some_iff,
        Option.pure_def, Option.some.injEq, Prod.exists] at h
      obtain ⟨arg, rest, hhead, args', htail, rfl⟩ := h
      obtain ⟨hfirst, hothers⟩ := hnul
      rw [hhead] at hothers
      obtain ⟨enc, henc, rfl⟩ := exists_encoding_of_parse hhead
      rw [wirePayload, List.flatMap_cons]
      exact (henc.agrees rest hfirst).append (ih htail hothers)

/-! ## Decoding and encoding -/

theorem WireEncoding.lengthWord_lt {t : ArgumentType} {arg : WireArgument} {enc : List Byte}
    (h : WireEncoding t arg enc) : arg.value.lengthWord < 2 ^ 32 := by
  cases h with
  | word t hn => simp [WireArgument.value, Argument.lengthWord]
  | nullString => simp [WireArgument.value, Argument.lengthWord]
  | @string block pad hne hn hpad =>
      have hpos := List.length_pos_of_ne_nil hne
      simp only [WireArgument.value, Argument.lengthWord, List.length_dropLast]
      omega
  | array hn hpad => exact hn

theorem lengthWord_lt_of_parse {types : List ArgumentType} {payload : List Byte}
    {args : List WireArgument} (h : parseWirePayload types payload = some args) :
    ∀ arg ∈ args, arg.value.lengthWord < 2 ^ 32 := by
  induction types generalizing payload args with
  | nil =>
      simp only [parseWirePayload, Option.ite_none_right_eq_some, Option.some.injEq] at h
      obtain ⟨-, rfl⟩ := h
      simp
  | cons t types ih =>
      obtain ⟨arg, args', enc, rest, rfl, rfl, henc, htail⟩ := exists_of_parseWirePayload_cons h
      rw [List.forall_mem_cons]
      exact ⟨henc.lengthWord_lt, ih htail⟩

theorem afterNull_eq_nil {args : List WireArgument} (h : .nullString ∉ args) :
    afterNull args = [] := by
  induction args with
  | nil => rfl
  | cons arg args ih =>
      rw [List.mem_cons, not_or] at h
      rw [afterNull, if_neg (Ne.symm h.1), ih h.2]

/-- A payload without a null string is interpreted as the values of its
arguments. -/
theorem interpertMessagePayload_of_notMem {types : List ArgumentType} {payload : List Byte}
    {args : List WireArgument} (h : parseWirePayload types payload = some args)
    (hnull : .nullString ∉ args) :
    interpertMessagePayload .unchecked payload types = .ok (args.map WireArgument.value) := by
  apply (readElements_of_parse h []).2
  rw [afterNull_eq_nil hnull]
  simp

theorem flatMap_argument_value {args : List WireArgument} (h : .nullString ∉ args) :
    (args.map WireArgument.value).flatMap argument = wirePayload args := by
  rw [wirePayload, List.flatMap_map]
  apply List.flatMap_congr
  intro arg harg
  apply argument_value
  rintro rfl
  exact h harg

/-- The payload is interpreted, and what `append` adds for the message that comes
out is a header and the same payload again, but for padding. -/
def ReEncodes (types : List ArgumentType) (payload : List Byte) (args : List WireArgument) :
    Prop :=
  ∃ values, interpertMessagePayload .unchecked payload types = .ok values ∧
    ∀ (stale : ℕ → Byte) (buf : MessageBuffer) (obj : Wobject) (opcode : Wopcode),
      ∃ payload', append .unchecked stale buf obj ⟨opcode, values⟩ =
          .ok
            { buff := buf.buff ++ (MessageHeader.bytes
                ⟨obj, opcode, BitVec.ofNat 16 (messageHeaderSize + payload.length)⟩ ++ payload')
              fdBuff := buf.fdBuff } ∧
        SameOutsidePadding (wirePayload args) payload payload'

theorem fds_values (args : List WireArgument) :
    (args.map WireArgument.value).flatMap Argument.fds = [] := by
  rw [List.flatMap_map, List.flatMap_eq_nil_iff]
  intro arg _
  cases arg <;> rfl

theorem reEncodes_of_notMem {types : List ArgumentType} {payload : List Byte}
    {args : List WireArgument} (h : parseWirePayload types payload = some args)
    (hnul : StringsTerminated types payload) (hnull : .nullString ∉ args) :
    ReEncodes types payload args := by
  have hpayload := agrees_of_parse h hnul
  refine ⟨_, interpertMessagePayload_of_notMem h hnull, ?_⟩
  intro stale buf obj opcode
  have hmsg : (⟨opcode, args.map WireArgument.value⟩ : Message).AssertionsPass := by
    simpa [Message.AssertionsPass] using lengthWord_lt_of_parse h
  have hagrees := agrees_encodeArguments stale hmsg (buf.buff.length + messageHeaderSize)
  rw [flatMap_argument_value hnull] at hagrees
  have hlength : argumentsSize (args.map WireArgument.value) = payload.length := by
    rw [← hpayload.length_eq, hagrees.length_eq, encodeArguments_length]
  refine ⟨_, ?_, hpayload.sameOutsidePadding_iff.mpr hagrees⟩
  rw [append_unchecked stale hmsg, fds_values, List.append_nil, Message.encode, Message.header,
    Message.encodedSize, hlength]

/-- What comes back for a null string is not its length word. -/
theorem not_agrees_of_null {types : List ArgumentType} {bytes : List Byte}
    {args : List WireArgument} (h : parseWirePayload types bytes = some args)
    (left : List Byte) {values : List Argument}
    (hread : readElements .unchecked (left ++ bytes) left.length types = .ok values)
    (stale : ℕ → Byte) (start : ℕ)
    (hagrees : Agrees (wirePayload args) (encodeArguments stale start values)) :
    .nullString ∉ args := by
  induction types generalizing bytes args left values start with
  | nil =>
      simp only [parseWirePayload, Option.ite_none_right_eq_some, Option.some.injEq] at h
      obtain ⟨-, rfl⟩ := h
      simp
  | cons t types ih =>
      obtain ⟨arg, args', enc, rest, rfl, rfl, henc, htail⟩ := exists_of_parseWirePayload_cons h
      have hhead := henc.readElement32aligned .unchecked left rest (by simp [Build.unchecked])
      obtain ⟨values', hread', rfl⟩ := (readElements_cons_iff hhead types).mp hread
      rw [wirePayload, List.flatMap_cons, encodeArguments] at hagrees
      by_cases hnull : arg = .nullString
      · subst hnull
        -- The length word of an empty string counts its terminator.
        have hfirst : some (1 : Byte) = some 0 := hagrees.getElem? (i := 0) (b := 0) rfl
        exact absurd hfirst (by decide)
      · have hlength : (wireArgument arg).length = (arg.value.encode stale start).length := by
          rw [← argument_value hnull, length_argument, Argument.encode_length]
        obtain ⟨-, hothers⟩ := hagrees.of_append hlength
        rw [if_neg hnull, ← List.length_append, ← List.append_assoc] at hread'
        rw [List.mem_cons, not_or]
        exact ⟨Ne.symm hnull, ih htail _ hread' _ hothers⟩

/-- The payloads are interpreted as messages that `append` adds alike. -/
def ReEncodeAlike (types : List ArgumentType) (payload payload' : List Byte) : Prop :=
  ∃ values values', interpertMessagePayload .unchecked payload types = .ok values ∧
    interpertMessagePayload .unchecked payload' types = .ok values' ∧
    ∃ (stale : ℕ → Byte) (buf : MessageBuffer) (obj : Wobject) (opcode : Wopcode),
      append .unchecked stale buf obj ⟨opcode, values⟩ =
        append .unchecked stale buf obj ⟨opcode, values'⟩

theorem WireEncoding.type_value {t : ArgumentType} {arg : WireArgument} {enc : List Byte}
    (h : WireEncoding t arg enc) : arg.value.type = t := by
  cases h with
  | word t hn => exact congrArg ArgumentType.static (t.type_ofWord _)
  | nullString => rfl
  | string hne hn hpad => rfl
  | array hn hpad => rfl

theorem types_of_parse {types : List ArgumentType} {payload : List Byte}
    {args : List WireArgument} (h : parseWirePayload types payload = some args) :
    (args.map WireArgument.value).map Argument.type = types ∧ ArgumentType.wfd ∉ types := by
  induction types generalizing payload args with
  | nil =>
      simp only [parseWirePayload, Option.ite_none_right_eq_some, Option.some.injEq] at h
      obtain ⟨-, rfl⟩ := h
      simp
  | cons t types ih =>
      obtain ⟨arg, args', enc, rest, rfl, rfl, henc, htail⟩ := exists_of_parseWirePayload_cons h
      obtain ⟨htypes, hfd⟩ := ih htail
      rw [List.map_cons, List.map_cons, henc.type_value, htypes, List.mem_cons, not_or]
      exact ⟨rfl, Ne.symm henc.type_ne_wfd, hfd⟩

/-- The values of a payload are the only ones of their types that are appended as
they are. -/
theorem values_eq_of_append_eq {types : List ArgumentType} {payload payload' : List Byte}
    {args args' : List WireArgument} (h : parseWirePayload types payload = some args)
    (h' : parseWirePayload types payload' = some args') {stale : ℕ → Byte} {buf : MessageBuffer}
    {obj : Wobject} {opcode : Wopcode}
    (happend : append .unchecked stale buf obj ⟨opcode, args.map WireArgument.value⟩ =
      append .unchecked stale buf obj ⟨opcode, args'.map WireArgument.value⟩) :
    args.map WireArgument.value = args'.map WireArgument.value := by
  obtain ⟨htypes, hfd⟩ := types_of_parse h
  obtain ⟨htypes', -⟩ := types_of_parse h'
  generalize hvalues : args.map WireArgument.value = values at happend htypes
  generalize hvalues' : args'.map WireArgument.value = values' at happend htypes'
  have hmsg : (⟨opcode, values⟩ : Message).AssertionsPass := by
    simpa [← hvalues, Message.AssertionsPass] using lengthWord_lt_of_parse h
  have hmsg' : (⟨opcode, values'⟩ : Message).AssertionsPass := by
    simpa [← hvalues', Message.AssertionsPass] using lengthWord_lt_of_parse h'
  have hfree : (⟨opcode, values⟩ : Message).FdFree := by rwa [Message.FdFree, Message.types, htypes]
  have hfree' : (⟨opcode, values'⟩ : Message).FdFree := by
    rwa [Message.FdFree, Message.types, htypes']
  have hread := interpertMessagePayload_encodeArguments stale hfree hmsg
    (buf.buff.length + messageHeaderSize)
  have hread' := interpertMessagePayload_encodeArguments stale hfree' hmsg'
    (buf.buff.length + messageHeaderSize)
  rw [append_unchecked stale hmsg, append_unchecked stale hmsg', Except.ok.injEq,
    MessageBuffer.mk.injEq, List.append_right_inj, Message.encode, Message.encode] at happend
  obtain ⟨-, hbytes⟩ := List.append_inj happend.1 (by simp)
  rw [Message.types, htypes] at hread
  rw [Message.types, htypes', ← hbytes, hread] at hread'
  exact Except.ok.inj hread'

/-- A valid payload comes back, but for its padding, exactly if it has no null
string, and payloads without null strings that come back alike differ in their
padding only. -/
theorem reEncodes_iff {types : List ArgumentType} {payload : List Byte}
    {args : List WireArgument} (h : parseWirePayload types payload = some args)
    (hnul : StringsTerminated types payload) :
    (ReEncodes types payload args ↔ .nullString ∉ args) ∧
      ∀ payload' args', parseWirePayload types payload' = some args' →
        StringsTerminated types payload' → .nullString ∉ args → .nullString ∉ args' →
          ReEncodeAlike types payload payload' →
            SameOutsidePadding (wirePayload args) payload payload' := by
  refine ⟨⟨?_, reEncodes_of_notMem h hnul⟩, ?_⟩
  · rintro ⟨values, hread, happend⟩
    obtain ⟨payload', hok, hsame⟩ := happend (fun _ => 0) {} 0 0
    obtain ⟨-, hbuff⟩ := append_ok .unchecked _ hok
    rw [MessageBuffer.mk.injEq, List.append_right_inj, Message.encode] at hbuff
    obtain ⟨-, rfl⟩ := List.append_inj hbuff.1 (by simp)
    exact not_agrees_of_null h [] hread _ _
      ((agrees_of_parse h hnul).sameOutsidePadding_iff.mp hsame)
  · intro payload' args' h' hnul' hnull hnull' halike
    obtain ⟨values, values', hread, hread', _, _, _, _, happend⟩ := halike
    obtain rfl := Except.ok.inj ((interpertMessagePayload_of_notMem h hnull).symm.trans hread)
    obtain rfl := Except.ok.inj ((interpertMessagePayload_of_notMem h' hnull').symm.trans hread')
    have hvalues := values_eq_of_append_eq h h' happend
    have hformat : wirePayload args = wirePayload args' := by
      rw [← flatMap_argument_value hnull, ← flatMap_argument_value hnull', hvalues]
    rw [(agrees_of_parse h hnul).sameOutsidePadding_iff, hformat]
    exact agrees_of_parse h' hnul'

theorem reEncodes_iff_string :
    (ReEncodes [.wstring, .static .wuint] [2, 0, 0, 0, 104, 0, 0, 0, 7, 0, 0, 0]
        [.string [104], .word .wuint 7] ↔
          WireArgument.nullString ∉ [.string [104], .word .wuint 7]) ∧
      ∀ payload' args', parseWirePayload [.wstring, .static .wuint] payload' = some args' →
        StringsTerminated [.wstring, .static .wuint] payload' →
          WireArgument.nullString ∉ [.string [104], .word .wuint 7] → .nullString ∉ args' →
            ReEncodeAlike [.wstring, .static .wuint] [2, 0, 0, 0, 104, 0, 0, 0, 7, 0, 0, 0]
                payload' →
              SameOutsidePadding (wirePayload [.string [104], .word .wuint 7])
                [2, 0, 0, 0, 104, 0, 0, 0, 7, 0, 0, 0] payload' :=
  reEncodes_iff (by decide) ⟨fun _ _ => by decide, by simp, trivial⟩

/-- A null string comes back as an empty one. -/
theorem not_reEncodes_null :
    parseWirePayload [.wstring] [0, 0, 0, 0] = some [.nullString] ∧
      StringsTerminated [.wstring] [0, 0, 0, 0] ∧
      ¬ReEncodes [.wstring] [0, 0, 0, 0] [.nullString] ∧
      ReEncodeAlike [.wstring] [0, 0, 0, 0] [1, 0, 0, 0, 0, 0, 0, 0] := by
  have hread : interpertMessagePayload .unchecked [0, 0, 0, 0] [.wstring] = .ok [.wstring []] := by
    decide
  refine ⟨by decide, ⟨fun _ hlength => absurd rfl hlength, trivial⟩, ?_, ?_⟩
  · rintro ⟨values, hvalues, happend⟩
    obtain rfl := Except.ok.inj (hread.symm.trans hvalues)
    obtain ⟨payload', hok, hlength, -⟩ := happend (fun _ => 0) {} 1 0
    have hbytes : append .unchecked (fun _ => 0) {} 1 ⟨0, [.wstring []]⟩ =
        .ok { buff := [1, 0, 0, 0, 0, 0, 16, 0, 1, 0, 0, 0, 0, 0, 0, 0] } := by decide
    rw [hbytes, Except.ok.injEq, MessageBuffer.mk.injEq] at hok
    have hsize := congrArg List.length hok.1
    simp only [List.length_append, MessageHeader.bytes_length, ← hlength] at hsize
    exact absurd hsize (by decide)
  · exact ⟨_, _, hread, by decide, fun _ => 0, {}, 1, 0, rfl⟩

end Waylander
