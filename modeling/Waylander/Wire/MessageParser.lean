import Waylander.Support.Framing
import Waylander.Wire.Primitives

/-!
# The message parser

`parsed_message_generator` cuts a byte string into messages by following the
size fields.  The generator is a coroutine that parses one message at a time.
As the bytes it reads do not change while it runs, it is represented by the
messages it yields and by the exception that ends it, if any.

The size field makes whole messages the frames of a framing in the sense of
`Framing`, and the parser is related to it here.
-/

namespace Waylander

open LittleEndian

/-- The exceptions that the receiving side throws or lets through. -/
inductive Exception
  | runtimeError (what : String)
  | logicError (what : String)
  /-- Thrown by gnulander on a socket error. -/
  | systemError
  /-- Thrown by a callback of the user. -/
  | callbackError
  deriving DecidableEq

structure ParsedMessage where
  objectId : Wobject
  opcode : Wopcode
  arguments : List Byte
  deriving DecidableEq

/-- `parse_NUM`, where `unparsed` are the bytes from `NUM_begin` to the end. -/
def parseNUM (unparsed : List Byte) : Except Exception ParsedMessage :=
  if unparsed.length < 8 then
    .error (.logicError
      "Trying to interpert less than 8 bytes as Wayland message header.")
  else
    let numSize := sizeField unparsed
    if numSize < 8 then
      .error (.logicError "Wayland message size is less than 8 bytes.")
    else if unparsed.length < numSize then
      .error (.logicError "Wayland message size is more than bytes available.")
    else
      .ok
        { objectId := BitVec.ofNat 32 (uintAt unparsed 0 4)
          opcode := BitVec.ofNat 16 (uintAt unparsed opcodeOffset 2)
          arguments :=
            (unparsed.drop messageHeaderSize).take (numSize - messageHeaderSize) }

/-- What `parse_NUM` returning a message means. -/
theorem parseNUM_ok {unparsed : List Byte} {msg : ParsedMessage}
    (h : parseNUM unparsed = .ok msg) :
    8 ≤ sizeField unparsed ∧ sizeField unparsed ≤ unparsed.length ∧
      msg.objectId = BitVec.ofNat 32 (uintAt unparsed 0 4) ∧
      msg.opcode = BitVec.ofNat 16 (uintAt unparsed opcodeOffset 2) ∧
      msg.arguments = (unparsed.drop 8).take (sizeField unparsed - 8) := by
  simp only [parseNUM] at h
  split at h
  · cases h
  · split at h
    · cases h
    · split at h
      · cases h
      · cases h
        exact ⟨by omega, by omega, rfl, rfl, rfl⟩

theorem parseNUM_arguments_length {unparsed : List Byte} {msg : ParsedMessage}
    (h : parseNUM unparsed = .ok msg) :
    messageHeaderSize + msg.arguments.length = sizeField unparsed := by
  obtain ⟨hlow, hhigh, -, -, hargs⟩ := parseNUM_ok h
  rw [hargs, messageHeaderSize, List.length_take, List.length_drop]
  omega

/-- The messages the generator yields and the exception it ends with. -/
def parsedMessageGenerator (buff : List Byte) :
    List ParsedMessage × Option Exception :=
  if buff = [] then
    ([], none)
  else
    match _h : parseNUM buff with
    | .error e => ([], some e)
    | .ok msg =>
        let totSize := messageHeaderSize + msg.arguments.length
        let next := parsedMessageGenerator (buff.drop totSize)
        (msg :: next.1, next.2)
termination_by buff.length
decreasing_by
  have hlength := parseNUM_arguments_length _h
  obtain ⟨hlow, hhigh, -⟩ := parseNUM_ok _h
  rw [List.length_drop]
  omega

/-- The parser object owns a copy of the bytes. -/
structure MessageParser where
  unparsedMessages : List Byte
  deriving DecidableEq

def MessageParser.messageGenerator (parser : MessageParser) :
    List ParsedMessage × Option Exception :=
  parsedMessageGenerator parser.unparsedMessages

@[simp] theorem parsedMessageGenerator_nil :
    parsedMessageGenerator [] = ([], none) := by
  rw [parsedMessageGenerator, if_pos rfl]

theorem parsedMessageGenerator_error {buff : List Byte} {e : Exception}
    (hbuff : buff ≠ []) (h : parseNUM buff = .error e) :
    parsedMessageGenerator buff = ([], some e) := by
  rw [parsedMessageGenerator, if_neg hbuff]
  split
  · simp_all
  · simp_all

theorem parsedMessageGenerator_ok {buff : List Byte} {msg : ParsedMessage}
    (h : parseNUM buff = .ok msg) :
    parsedMessageGenerator buff =
      (msg :: (parsedMessageGenerator (buff.drop (sizeField buff))).1,
        (parsedMessageGenerator (buff.drop (sizeField buff))).2) := by
  have hbuff : buff ≠ [] := by
    rintro rfl
    simp [parseNUM] at h
  rw [parsedMessageGenerator, if_neg hbuff]
  split
  · simp_all
  · rename_i msg' h'
    obtain rfl : msg' = msg := by
      rw [h] at h'
      exact (Except.ok.inj h').symm
    simp only [parseNUM_arguments_length h]

/-! ## Frames -/

/-- A whole message on the wire is a string whose size field is its length. -/
def wire : Framing Byte where
  header := messageHeaderSize
  header_pos := by decide
  size := sizeField
  size_append := fun _ ys h => uintAt_append h ys

@[simp] theorem wire_header : wire.header = messageHeaderSize := rfl

@[simp] theorem wire_size : wire.size = sizeField := rfl

/-- The bytes of a message with the given object id, opcode and arguments. -/
def ParsedMessage.frame (msg : ParsedMessage) : List Byte :=
  MessageHeader.bytes
      { objectId := msg.objectId
        opcode := msg.opcode
        size := BitVec.ofNat 16 (messageHeaderSize + msg.arguments.length) } ++
    msg.arguments

/-- The message a frame stands for. -/
def ParsedMessage.ofFrame (f : List Byte) : ParsedMessage where
  objectId := BitVec.ofNat 32 (uintAt f 0 4)
  opcode := BitVec.ofNat 16 (uintAt f opcodeOffset 2)
  arguments := f.drop messageHeaderSize

theorem parseNUM_frame {f : List Byte} (hf : wire.IsFrame f) (rest : List Byte) :
    parseNUM (f ++ rest) = .ok (.ofFrame f) := by
  obtain ⟨hheader, hsize⟩ := hf
  rw [wire_header, messageHeaderSize] at hheader
  rw [wire_size] at hsize
  have hsizeAppend : sizeField (f ++ rest) = f.length := by
    rw [← hsize]
    exact uintAt_append (by rw [sizeOffset]; omega) rest
  have hlength : (f ++ rest).length = f.length + rest.length := List.length_append
  simp only [parseNUM, hsizeAppend]
  rw [if_neg (by omega), if_neg (by omega), if_neg (by omega)]
  simp only [ParsedMessage.ofFrame, messageHeaderSize, opcodeOffset]
  rw [uintAt_append (by omega), uintAt_append (by omega),
    List.drop_append_of_le_length hheader, List.take_append_of_le_length (by simp),
    List.take_of_length_le (by simp)]

/-- `parse_NUM` returning a message means that a whole frame is in front. -/
theorem exists_frame_of_parseNUM {unparsed : List Byte} {msg : ParsedMessage}
    (h : parseNUM unparsed = .ok msg) :
    ∃ f rest, wire.IsFrame f ∧ unparsed = f ++ rest ∧ msg = .ofFrame f := by
  obtain ⟨hcover, hfits, -⟩ := parseNUM_ok h
  have hframe : wire.IsFrame (unparsed.take (sizeField unparsed)) :=
    Framing.isFrame_take hcover hfits
  have hmsg := parseNUM_frame hframe (unparsed.drop (sizeField unparsed))
  rw [List.take_append_drop, h] at hmsg
  exact ⟨_, _, hframe, (List.take_append_drop _ _).symm, Except.ok.inj hmsg⟩

/-- The parser yields the message of each frame in order, and goes on behind
the last of them. -/
theorem parsedMessageGenerator_frames {fs : List (List Byte)}
    (hfs : ∀ f ∈ fs, wire.IsFrame f) (rest : List Byte) :
    parsedMessageGenerator (fs.flatten ++ rest) =
      (fs.map ParsedMessage.ofFrame ++ (parsedMessageGenerator rest).1,
        (parsedMessageGenerator rest).2) := by
  induction fs with
  | nil => simp
  | cons f fs ih =>
      have hf := hfs f (by simp)
      have hsize : sizeField (f ++ (fs.flatten ++ rest)) = f.length :=
        hf.size_append _
      rw [List.flatten_cons, List.append_assoc, parsedMessageGenerator_ok (parseNUM_frame hf _),
        hsize, List.drop_left, ih fun g hg => hfs g (by simp [hg])]
      simp

theorem parsedMessageGenerator_flatten {fs : List (List Byte)}
    (hfs : ∀ f ∈ fs, wire.IsFrame f) :
    parsedMessageGenerator fs.flatten = (fs.map ParsedMessage.ofFrame, none) := by
  simpa using parsedMessageGenerator_frames hfs []

/-- `parse_NUM` throws only where no whole frame is in front. -/
theorem parseNUM_error {unparsed : List Byte} {e : Exception}
    (h : parseNUM unparsed = .error e) :
    (∃ what, e = .logicError what) ∧ wire.NoFrame unparsed := by
  constructor
  · simp only [parseNUM] at h
    split at h
    · exact ⟨_, (Except.error.inj h).symm⟩
    · split at h
      · exact ⟨_, (Except.error.inj h).symm⟩
      · split at h
        · exact ⟨_, (Except.error.inj h).symm⟩
        · cases h
  · rintro f hf ⟨rest, rfl⟩
    rw [parseNUM_frame hf] at h
    cases h

/-- How the parser ends when the bytes `rest` are left behind the last message
that it yields. -/
inductive EndsAt : List Byte → Option Exception → Prop
  | finishes : EndsAt [] none
  | throws {rest : List Byte} {what : String} (hne : rest ≠ []) (hrest : wire.NoFrame rest) :
      EndsAt rest (some (.logicError what))

theorem EndsAt.noFrame {rest : List Byte} {e : Option Exception} (h : EndsAt rest e) :
    wire.NoFrame rest := by
  cases h with
  | finishes => exact Framing.noFrame_nil
  | throws hne hrest => exact hrest

/-- On any input the parser yields the messages of frames that tile a prefix. -/
theorem exists_frames_parsedMessageGenerator (buff : List Byte) :
    ∃ (fs : List (List Byte)) (rest : List Byte), (∀ f ∈ fs, wire.IsFrame f) ∧
      buff = fs.flatten ++ rest ∧
      (parsedMessageGenerator buff).1 = fs.map ParsedMessage.ofFrame ∧
      EndsAt rest (parsedMessageGenerator buff).2 := by
  induction hn : buff.length using Nat.strongRecOn generalizing buff with
  | ind n ih =>
      by_cases hnil : buff = []
      · subst hnil
        refine ⟨[], [], by simp, rfl, by simp, ?_⟩
        rw [parsedMessageGenerator_nil]
        exact .finishes
      · cases hparse : parseNUM buff with
        | error e =>
            obtain ⟨⟨what, rfl⟩, hrest⟩ := parseNUM_error hparse
            rw [parsedMessageGenerator_error hnil hparse]
            exact ⟨[], buff, by simp, rfl, rfl, .throws hnil hrest⟩
        | ok msg =>
            obtain ⟨f, rest, hf, rfl, rfl⟩ := exists_frame_of_parseNUM hparse
            have hpos := List.length_pos_of_ne_nil hf.ne_nil
            obtain ⟨fs, rest', hfs, rfl, hmsgs, hend⟩ :=
              ih rest.length (by rw [← hn, List.length_append]; omega) rest rfl
            have hsingle : ∀ g ∈ [f], wire.IsFrame g := by simpa using hf
            have hstep := parsedMessageGenerator_frames hsingle (fs.flatten ++ rest')
            rw [List.flatten_singleton] at hstep
            refine ⟨f :: fs, rest', ?_, by simp, ?_, ?_⟩
            · simpa using ⟨hf, hfs⟩
            · rw [hstep, hmsgs]
              rfl
            · rw [hstep]
              exact hend

/-- The parser yields one message for each frame of the longest sequence of frames
that tiles a prefix of the input, and then finishes if that prefix is the whole
input and throws otherwise. -/
theorem parsedMessageGenerator_longest (buff : List Byte) :
    ∃ (fs : List (List Byte)) (rest : List Byte), (∀ f ∈ fs, wire.IsFrame f) ∧
      buff = fs.flatten ++ rest ∧
      (∀ gs, (∀ g ∈ gs, wire.IsFrame g) → gs.flatten <+: buff → gs <+: fs) ∧
      (parsedMessageGenerator buff).1 = fs.map ParsedMessage.ofFrame ∧
      (rest = [] ∧ (parsedMessageGenerator buff).2 = none ∨
        rest ≠ [] ∧ ∃ what, (parsedMessageGenerator buff).2 = some (.logicError what)) := by
  obtain ⟨fs, rest, hfs, hbuff, hmsgs, hend⟩ := exists_frames_parsedMessageGenerator buff
  refine ⟨fs, rest, hfs, hbuff, ?_, hmsgs, ?_⟩
  · rintro gs hgs ⟨r, hr⟩
    exact Framing.isPrefix_of_flatten_eq hfs hgs hend.noFrame (hbuff.symm.trans hr.symm)
  · generalize (parsedMessageGenerator buff).2 = e at hend
    cases hend with
    | finishes => exact Or.inl ⟨rfl, rfl⟩
    | throws hne hrest => exact Or.inr ⟨hne, _, rfl⟩

/-- Writing the parsed fields back gives the frame. -/
theorem ParsedMessage.frame_ofFrame {f : List Byte} (hf : wire.IsFrame f) :
    (ofFrame f).frame = f := by
  obtain ⟨hheader, hsize⟩ := hf
  rw [wire_header, messageHeaderSize] at hheader
  rw [wire_size, sizeField, sizeOffset] at hsize
  have hsplit : f = f.take 4 ++ ((f.drop 4).take 2 ++ ((f.drop 6).take 2 ++ f.drop 8)) := by
    conv_lhs => rw [← List.take_append_drop 4 f, ← List.take_append_drop 2 (f.drop 4),
      ← List.take_append_drop 2 ((f.drop 4).drop 2)]
    simp
  have hid : toBytes 4 (uintAt f 0 4) = f.take 4 := by
    have hlength : (f.take 4).length = 4 := by
      rw [List.length_take]
      omega
    simpa only [uintAt, List.drop_zero, hlength] using toBytes_ofBytes (f.take 4)
  have hfield : ∀ i, i + 2 ≤ 8 → toBytes 2 (uintAt f i 2) = (f.drop i).take 2 := by
    intro i hi
    have hlength : ((f.drop i).take 2).length = 2 := by
      rw [List.length_take, List.length_drop]
      omega
    simpa only [uintAt, hlength] using toBytes_ofBytes ((f.drop i).take 2)
  have hargs : messageHeaderSize + (f.drop messageHeaderSize).length = uintAt f 6 2 := by
    rw [hsize, messageHeaderSize, List.length_drop]
    omega
  have hword : (BitVec.ofNat 32 (uintAt f 0 4)).toNat = uintAt f 0 4 := by
    rw [BitVec.toNat_ofNat]
    exact Nat.mod_eq_of_lt (uintAt_lt f 0 4)
  have hhalf : ∀ i, (BitVec.ofNat 16 (uintAt f i 2)).toNat = uintAt f i 2 := by
    intro i
    rw [BitVec.toNat_ofNat]
    exact Nat.mod_eq_of_lt (uintAt_lt f i 2)
  simp only [frame, ofFrame, MessageHeader.bytes, opcodeOffset, hargs]
  rw [hword, hhalf, hhalf, hid, hfield 4 (by omega), hfield 6 (by omega)]
  conv_rhs => rw [hsplit]
  simp [messageHeaderSize]

theorem map_frame_ofFrame {fs : List (List Byte)} (hfs : ∀ f ∈ fs, wire.IsFrame f) :
    (fs.map ParsedMessage.ofFrame).map ParsedMessage.frame = fs := by
  induction fs with
  | nil => rfl
  | cons f fs ih =>
      rw [List.map_cons, List.map_cons, ParsedMessage.frame_ofFrame (hfs f (by simp)),
        ih fun g hg => hfs g (by simp [hg])]

/-- A header followed by as many bytes as its size field announces. -/
theorem isFrame_bytes {header : MessageHeader} {args : List Byte}
    (h : header.size.toNat = messageHeaderSize + args.length) :
    wire.IsFrame (header.bytes ++ args) := by
  refine ⟨?_, ?_⟩
  · simp
  · simp [h]

@[simp] theorem ParsedMessage.ofFrame_bytes (header : MessageHeader) (args : List Byte) :
    ofFrame (header.bytes ++ args) = ⟨header.objectId, header.opcode, args⟩ := by
  have hdrop : (header.bytes ++ args).drop messageHeaderSize = args := by
    rw [← header.bytes_length, List.drop_left]
  simp [ofFrame, hdrop]

end Waylander
