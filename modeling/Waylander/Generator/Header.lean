import Waylander.Generator.Declarations
import Waylander.Support.CxxComments

/-!
# The generated header

`write_cxx_header` in full.  The header consists of lines of code, some of them
under a comment that is made of summaries, descriptions and the copyright.  No
documentation ever becomes code: what the compiler is left with are the lines of
code, without the ones whose comment ends in a backslash.
-/

namespace Waylander

open Fallible CxxComments

/-! ## Writing the header -/

def WlEnum.asCxxEnumClassDecleration (e : WlEnum) (indentInSpaces : ℕ) : String :=
  indent indentInSpaces ++ "enum class " ++ e.name ++ " : " ++ e.underlyingType ++ ";\n"

/-- Of a request or an event. -/
def WlMessage.asCxxMemberStructDecleration (m : WlMessage) (indentInSpaces : ℕ) : String :=
  indent indentInSpaces ++ "struct " ++ m.name ++ ";\n"

def WlInterface.asCxxStructWithoutDefinitions (i : WlInterface) : String :=
  let header := "struct " ++ i.name ++ " \x7b\n"
  let body :=
    String.join (i.enums.map fun enum => enum.asCxxEnumClassDecleration 4) ++
      (if i.enums.length ≠ 0 then "\n" else "") ++
      (indent 4 ++ "struct request \x7b\n") ++
      String.join (i.requests.map fun request => request.asCxxMemberStructDecleration 8) ++
      (indent 4 ++ "\x7d;\n\n") ++
      (indent 4 ++ "struct event \x7b\n") ++
      String.join (i.events.map fun event => event.asCxxMemberStructDecleration 8) ++
      (indent 4 ++ "\x7d;\n")
  header ++ body ++ "\x7d;\n"

/-- The comments at the beginning of the file. -/
def WlProtocol.fileComment (p : WlProtocol) : String :=
  "// Generated from Wayland xml protocol: " ++ p.name ++ "\n\n" ++
    (match p.description with
      | some d => d.asSphinxComment "@file\n/// " 0
      | none => "/// @file\n/// " ++ p.name ++ " xml protocol\n") ++
    (if truthy p.copyright then "///\n" ++ (commentify (p.copyright.getD "") "///" ++ "\n") else "")

def WlProtocol.headerContent (p : WlProtocol) : Except PyException String := do
  let definitions ← p.cxxDefinitions
  return p.fileComment ++ "#pragma once\n\n" ++
    "#include \"waylander/wayland/protocol_primitives.hpp\"\n\n" ++
    "namespace waylander \x7b\n" ++ "namespace wl \x7b\n" ++ "namespace protocols \x7b\n\n" ++
    "/// Declare everything before they might be used.\n\n" ++
    String.join (p.interfaces.map WlInterface.asCxxStructWithoutDefinitions) ++
    definitions ++
    "\x7d // namespace protocols\n" ++ "\x7d // namespace wl\n" ++ "\x7d // namespace waylander\n"

/-- The name of the file that is written, and what is written to it. -/
def WlProtocol.writeCxxHeader (p : WlProtocol) (pathPrefix : String) :
    Except PyException (String × String) := do
  let content ← p.headerContent
  return (pathPrefix ++ p.name ++ "_protocol.hpp", content)

/-! ## Lines under comments -/

/-- A line of code and the comment above it. -/
structure DocLine where
  comment : String
  line : String

def commentLines (comment : String) : List (List Char) :=
  (comment.toList.splitOn '\n').dropLast

def DocLine.documented (d : DocLine) : Documented where
  comment := commentLines d.comment
  line := d.line.toList

/-- The text is made of comment lines and empty lines. -/
def CommentText (text : String) : Prop :=
  ∃ lines : List (List Char), text.toList = unlines lines ∧
    (∀ l ∈ lines, Vanishing l) ∧ ∀ l ∈ lines, '\n' ∉ l

theorem CommentText.commentLines {text : String} (h : CommentText text) :
    unlines (commentLines text) = text.toList ∧
      (∀ l ∈ commentLines text, Vanishing l) ∧ ∀ l ∈ commentLines text, '\n' ∉ l := by
  obtain ⟨lines, htext, hvanish, hnewline⟩ := h
  have hlines : Waylander.commentLines text = lines := by
    have hsplit := splitOn_unlines hnewline []
    rw [List.append_nil, List.splitOn_nil] at hsplit
    rw [Waylander.commentLines, htext, hsplit, List.dropLast_concat]
  rw [hlines]
  exact ⟨htext.symm, hvanish, hnewline⟩

theorem commentText_empty : CommentText "" :=
  ⟨[], rfl, by simp, by simp⟩

theorem CommentText.append {text text' : String} (h : CommentText text) (h' : CommentText text') :
    CommentText (text ++ text') := by
  obtain ⟨lines, htext, hvanish, hnewline⟩ := h
  obtain ⟨lines', htext', hvanish', hnewline'⟩ := h'
  refine ⟨lines ++ lines', ?_, ?_, ?_⟩
  · rw [String.toList_append, htext, htext', unlines, unlines, unlines, List.flatMap_append]
  · intro l hl
    rcases List.mem_append.mp hl with hl | hl
    · exact hvanish l hl
    · exact hvanish' l hl
  · intro l hl
    rcases List.mem_append.mp hl with hl | hl
    · exact hnewline l hl
    · exact hnewline' l hl

theorem CommentText.join {texts : List String} (h : ∀ text ∈ texts, CommentText text) :
    CommentText (String.join texts) := by
  induction texts with
  | nil => exact commentText_empty
  | cons text texts ih =>
      rw [String.join_cons]
      exact (h text (by simp)).append (ih fun t ht => h t (by simp [ht]))

theorem commentText_newline : CommentText "\n" :=
  ⟨[[]], rfl, by simp [Vanishing], by simp⟩

/-- One line that begins with slashes. -/
theorem commentText_line {text : String} (spaces : ℕ) (line : List Char)
    (htext : text.toList = List.replicate spaces ' ' ++ '/' :: '/' :: line ++ ['\n'])
    (hnewline : '\n' ∉ line) : CommentText text := by
  refine ⟨[List.replicate spaces ' ' ++ '/' :: '/' :: line], ?_, ?_, ?_⟩
  · simp [htext, unlines]
  · intro l hl
    rw [List.mem_singleton.mp hl]
    exact Or.inl ⟨_, _, rfl, by simp [isBlank]⟩
  · intro l hl
    rw [List.mem_singleton.mp hl]
    simpa using hnewline

/-! ## Comments of the generator -/

theorem not_mem_of_mem_splitOn {xs l : List Char} {c : Char} (h : l ∈ xs.splitOn c) : c ∉ l := by
  induction xs generalizing l with
  | nil =>
      rw [List.splitOn_nil, List.mem_singleton] at h
      simp [h]
  | cons x xs ih =>
      rw [List.splitOn_cons_eq_if_modifyHead] at h
      split at h
      · rcases List.mem_cons.mp h with rfl | h
        · simp
        · exact ih h
      · rename_i hne
        cases hsplit : xs.splitOn c with
        | nil => exact absurd hsplit (List.splitOn_ne_nil _ _)
        | cons first rest =>
            rw [hsplit, List.modifyHead_cons] at h
            rcases List.mem_cons.mp h with rfl | h
            · have hfirst := ih (l := first) (by simp [hsplit])
              simp only [beq_iff_eq] at hne
              simpa [hfirst] using fun heq => hne heq.symm
            · exact ih (by simp [hsplit, h])

theorem indent_toList (spaces : ℕ) : (indent spaces).toList = List.replicate spaces ' ' :=
  String.toList_ofList

theorem commentText_commentify (s : String) (spaces : ℕ) :
    CommentText (commentify s (indent spaces ++ "///")) := by
  rw [commentify]
  apply CommentText.join
  intro text htext
  obtain ⟨line, hline, rfl⟩ := List.mem_map.mp htext
  have hmem : line ∈ splitLines s := List.mem_of_mem_take (List.mem_of_mem_drop hline)
  obtain ⟨chars, hchars, rfl⟩ := List.mem_map.mp hmem
  have hnewline : '\n' ∉ (lstrip (String.ofList chars)).toList := by
    rw [lstrip, String.toList_ofList, String.toList_ofList]
    exact fun hin => not_mem_of_mem_splitOn hchars ((List.dropWhile_sublist _).subset hin)
  by_cases hempty : lstrip (String.ofList chars) = ""
  · refine commentText_line spaces ['/'] ?_ (by decide)
    simp [hempty, indent_toList]
  · refine commentText_line spaces ('/' :: ' ' :: (lstrip (String.ofList chars)).toList) ?_ ?_
    · simp [hempty, indent_toList]
    · simpa using hnewline

/-- The summary is written in one line. -/
def OneLine (s : String) : Prop :=
  '\n' ∉ s.toList

instance (s : String) : Decidable (OneLine s) :=
  inferInstanceAs (Decidable (_ ∉ _))

theorem WlDescription.commentText {d : WlDescription} (h : OneLine d.summary) (spaces : ℕ) :
    CommentText (d.asSphinxComment "" spaces) := by
  have hheader : CommentText (indent spaces ++ "/// " ++ "" ++ d.summary ++ "\n") := by
    refine commentText_line spaces ('/' :: ' ' :: d.summary.toList) ?_ ?_
    · simp [indent_toList]
    · simpa [OneLine] using h
  have hspacer : CommentText (indent spaces ++ "///\n") :=
    commentText_line spaces ['/'] (by simp [indent_toList]) (by decide)
  rw [asSphinxComment]
  split
  · exact hheader
  · split
    · exact hheader
    · exact (hheader.append hspacer).append (commentText_commentify _ spaces)

/-- The summaries that are written above an argument or an entry. -/
def memberSummaries (summary : Option String) (description : Option WlDescription) :
    List String :=
  match description with
  | some d => [d.summary]
  | none => summary.toList

theorem commentText_memberComment {summary : Option String} {description : Option WlDescription}
    (h : ∀ s ∈ memberSummaries summary description, OneLine s) (spaces : ℕ) :
    CommentText (memberComment summary description spaces) := by
  cases description with
  | some d =>
      have hone : OneLine d.summary := h _ (by simp [memberSummaries])
      exact (d.commentText hone spaces).append commentText_newline
  | none =>
      simp only [memberComment]
      split
      · rename_i htruthy
        obtain ⟨s, rfl, -⟩ := (Option.any_eq_true _ _).mp htruthy
        have hone : OneLine s := h s (by simp [memberSummaries])
        refine commentText_line spaces ('/' :: ' ' :: s.toList) ?_ ?_
        · simp [indent_toList]
        · simpa [OneLine] using hone
      · exact commentText_empty

theorem commentText_definitionComment {description : Option WlDescription}
    (h : ∀ d ∈ description, OneLine d.summary) (spaces : ℕ) :
    CommentText (definitionComment description spaces) := by
  cases description with
  | some d => exact d.commentText (h d rfl) spaces
  | none => exact commentText_empty

/-! ## The lines of declarations -/

def CxxMember.docLine (m : CxxMember) : DocLine where
  comment := m.comment
  line := indent 4 ++ m.type.text ++ " " ++ m.name ++ ";"

def CxxStruct.docLines (s : CxxStruct) : List DocLine :=
  [⟨s.comment, "struct " ++ s.interface ++ "::" ++ s.kind.tag ++ "::" ++ s.name ++ " \x7b"⟩,
    ⟨"", indent 4 ++ "static constexpr Wopcode<" ++ s.interface ++ "> opcode\x7b " ++
      toString s.opcode ++ " \x7d;"⟩] ++
    s.members.map CxxMember.docLine ++ [⟨"", "\x7d;"⟩]

def CxxEnumerator.docLine (e : CxxEnumerator) (last : Bool) : DocLine where
  comment := e.comment
  line := indent 4 ++ e.name ++ " = " ++ toString e.value ++ (if last then "" else ",")

def CxxEnum.docLines (e : CxxEnum) : List DocLine :=
  [⟨e.comment, "enum class " ++ e.interface ++ "::" ++ e.name ++ " : " ++
      (e.underlying.text ++ "::integral_type") ++ " \x7b"⟩] ++
    (e.enumerators.dropLast.map fun enumerator => enumerator.docLine false) ++
    (e.enumerators.getLast?.toList.map fun last => last.docLine true) ++ [⟨"", "\x7d;"⟩]

/-- The struct of an interface, without definitions. -/
def WlInterface.forwardLines (i : WlInterface) : List DocLine :=
  [⟨"", "struct " ++ i.name ++ " \x7b"⟩] ++
    (i.enums.map fun e =>
      ⟨"", indent 4 ++ "enum class " ++ e.name ++ " : " ++ e.underlyingType ++ ";"⟩) ++
    [⟨if i.enums.length ≠ 0 then "\n" else "", indent 4 ++ "struct request \x7b"⟩] ++
    (i.requests.map fun r => ⟨"", indent 8 ++ "struct " ++ r.name ++ ";"⟩) ++
    [⟨"", indent 4 ++ "\x7d;"⟩, ⟨"\n", indent 4 ++ "struct event \x7b"⟩] ++
    (i.events.map fun e => ⟨"", indent 8 ++ "struct " ++ e.name ++ ";"⟩) ++
    [⟨"", indent 4 ++ "\x7d;"⟩, ⟨"", "\x7d;"⟩]

def DocLine.text (d : DocLine) : String :=
  d.comment ++ d.line ++ "\n"

def docText (ds : List DocLine) : String :=
  String.join (ds.map DocLine.text)

@[simp] theorem docText_nil : docText [] = "" := rfl

@[simp] theorem docText_append (ds ds' : List DocLine) :
    docText (ds ++ ds') = docText ds ++ docText ds' := by
  simp [docText]

@[simp] theorem docText_cons (d : DocLine) (ds : List DocLine) :
    docText (d :: ds) = d.text ++ docText ds := by
  simp [docText]

theorem docText_map {α : Type} {f : α → DocLine} {g : α → String} (h : ∀ a, (f a).text = g a)
    (l : List α) : docText (l.map f) = String.join (l.map g) := by
  simp [docText, Function.comp_def, h]

theorem CxxMember.docLine_text (m : CxxMember) : m.docLine.text = m.text := by
  rw [← String.toList_inj]
  simp [docLine, DocLine.text, text]

theorem CxxEnumerator.docLine_text (e : CxxEnumerator) (last : Bool) :
    (e.docLine last).text = e.text last := by
  rw [← String.toList_inj]
  simp [docLine, DocLine.text, text]

theorem CxxStruct.docLines_text (s : CxxStruct) : s.text = docText s.docLines ++ "\n" := by
  rw [docLines, docText_append, docText_append, docText_map CxxMember.docLine_text,
    ← String.toList_inj]
  simp [CxxStruct.text, DocLine.text, cxxOpcodeStaticMember]

theorem CxxEnum.docLines_text (e : CxxEnum) : e.text = docText e.docLines ++ "\n" := by
  rw [docLines, docText_append, docText_append, docText_append,
    docText_map fun en => en.docLine_text false, docText_map fun en => en.docLine_text true,
    ← String.toList_inj]
  simp [CxxEnum.text, DocLine.text]

theorem WlInterface.forwardLines_text (i : WlInterface) :
    i.asCxxStructWithoutDefinitions = docText i.forwardLines := by
  have henums : docText (i.enums.map fun e => (⟨"", indent 4 ++ "enum class " ++ e.name ++ " : " ++
      e.underlyingType ++ ";"⟩ : DocLine)) =
      String.join (i.enums.map fun e => e.asCxxEnumClassDecleration 4) := by
    apply docText_map
    intro e
    rw [← String.toList_inj]
    simp [DocLine.text, WlEnum.asCxxEnumClassDecleration]
  have hmessages (ms : List WlMessage) :
      docText (ms.map fun m => (⟨"", indent 8 ++ "struct " ++ m.name ++ ";"⟩ : DocLine)) =
        String.join (ms.map fun m => m.asCxxMemberStructDecleration 8) := by
    apply docText_map
    intro m
    rw [← String.toList_inj]
    simp [DocLine.text, WlMessage.asCxxMemberStructDecleration]
  rw [forwardLines, docText_append, docText_append, docText_append, docText_append,
    docText_append, docText_append, henums, hmessages, hmessages, ← String.toList_inj]
  simp [asCxxStructWithoutDefinitions, DocLine.text]

/-! ## Names -/

/-- The text is plain code wherever it stands. -/
def PlainText (s : String) : Prop :=
  Plain s.toList

instance (s : String) : Decidable (PlainText s) :=
  inferInstanceAs (Decidable (Plain _))

@[simp] theorem plainText_append_iff {s t : String} :
    PlainText (s ++ t) ↔ PlainText s ∧ PlainText t := by
  rw [PlainText, String.toList_append]
  exact List.forall_mem_append

@[simp] theorem plainText_indent (spaces : ℕ) : PlainText (indent spaces) := by
  intro c hc
  rw [indent_toList] at hc
  rw [List.eq_of_mem_replicate hc]
  decide

@[simp] theorem plainText_repr (n : ℕ) : PlainText n.repr := by
  intro c hc
  rw [Nat.toList_repr] at hc
  have hdigit := Nat.isDigit_of_mem_toDigits (by decide) (by decide) hc
  refine ⟨?_, ?_, ?_, ?_, ?_⟩
  all_goals
    rintro rfl
    exact absurd hdigit (by decide)

@[simp] theorem plainText_intRepr (n : ℤ) : PlainText n.repr := by
  cases n with
  | ofNat m => exact plainText_repr m
  | negSucc m =>
      rw [Int.repr, plainText_append_iff]
      exact ⟨by decide, plainText_repr _⟩

theorem plainText_replaceDots {s : String} (h : PlainText s) : PlainText (replaceDots s) := by
  intro c hc
  rw [replaceDots, String.toList_ofList, List.mem_flatMap] at hc
  obtain ⟨d, hd, hc⟩ := hc
  split at hc
  · have hcolon : c = ':' := by simpa using hc
    subst hcolon
    decide
  · rw [List.mem_singleton.mp hc]
    exact h d hd

def WlArg.names (a : WlArg) : List String :=
  a.name :: (a.interface.toList ++ a.enum.toList)

def WlMessage.names (m : WlMessage) : List String :=
  m.name :: m.args.flatMap WlArg.names

def WlEnum.names (e : WlEnum) : List String :=
  e.name :: e.entries.map WlEnumEntry.name

def WlInterface.names (i : WlInterface) : List String :=
  i.name :: (i.enums.flatMap WlEnum.names ++ i.requests.flatMap WlMessage.names ++
    i.events.flatMap WlMessage.names)

/-- All names that the generator writes. -/
def WlProtocol.names (p : WlProtocol) : List String :=
  p.name :: p.interfaces.flatMap WlInterface.names

theorem plainText_cxxType {type : WlArgType} {interface : Option String}
    (h : ∀ i ∈ interface, PlainText i) : PlainText (type.cxxType interface).text := by
  have horEmpty : PlainText (orEmpty interface) := by
    cases interface with
    | none => decide
    | some i =>
        rw [orEmpty]
        split
        · exact h i rfl
        · decide
  cases type with
  | wlObject => simp +decide [WlArgType.cxxType, CxxType.text, horEmpty]
  | wlNewId => simp +decide [WlArgType.cxxType, CxxType.text, horEmpty]
  | _ =>
      dsimp only [WlArgType.cxxType, CxxType.text]
      decide

theorem plainText_enumPath {interface enum : String} (hinterface : PlainText interface)
    (henum : PlainText enum) : PlainText (enumPath interface enum) := by
  rw [enumPath]
  split
  · exact plainText_replaceDots henum
  · simp +decide [hinterface, henum]

theorem WlArg.plainText_type {a : WlArg} {interface : String} (hinterface : PlainText interface)
    (h : ∀ name ∈ a.names, PlainText name) : PlainText (a.cxxMember interface).type.text := by
  rw [cxxMember]
  dsimp only
  split
  · rename_i htruthy
    obtain ⟨enum, henum, -⟩ := (Option.any_eq_true _ _).mp htruthy
    rw [henum]
    exact plainText_enumPath hinterface (h enum (by simp [names, henum]))
  · exact plainText_cxxType fun i hi => h i (by simp [names, Option.mem_def.mp hi])

/-! ## Well-formed lines -/

def DocLine.WellFormed (d : DocLine) : Prop :=
  CommentText d.comment ∧ Verbatim d.line.toList ∧ notBlank d.line.toList = true

theorem DocLine.WellFormed.documented {d : DocLine} (h : d.WellFormed) :
    d.documented.WellFormed where
  comment := h.1.commentLines.2.1
  newline := h.1.commentLines.2.2
  verbatim := h.2.1
  notBlank := h.2.2

/-- A line that begins with a letter or ends in a semicolon or the like is not
blank. -/
theorem notBlank_of_mem {line : List Char} {c : Char} (hmem : c ∈ line)
    (hc : isBlank c = false) : notBlank line = true := by
  rw [notBlank, Bool.not_eq_true', List.all_eq_false]
  exact ⟨c, hmem, by simp [hc]⟩

theorem DocLine.wellFormed_of_plain {d : DocLine} {c : Char} (hcomment : CommentText d.comment)
    (hplain : PlainText d.line) (hmem : c ∈ d.line.toList) (hc : isBlank c = false) :
    d.WellFormed :=
  ⟨hcomment, Plain.verbatim hplain, notBlank_of_mem hmem hc⟩

theorem renders_docText {ds : List DocLine} (h : ∀ d ∈ ds, d.WellFormed) :
    Renders (docText ds).toList (shown (ds.map DocLine.documented)) := by
  have htext : (docText ds).toList =
      (ds.map DocLine.documented).flatMap Documented.text := by
    induction ds with
    | nil => rfl
    | cons d ds ih =>
        have hcomment := (h d (by simp)).1.commentLines.1
        rw [docText_cons, String.toList_append, ih fun d' hd' => h d' (by simp [hd']),
          List.map_cons, List.flatMap_cons]
        simp [DocLine.text, Documented.text, DocLine.documented, hcomment]
  rw [htext]
  apply renders_documented
  intro d hd
  obtain ⟨d', hd', rfl⟩ := List.mem_map.mp hd
  exact (h d' hd').documented

theorem CxxMember.docLine_wellFormed {m : CxxMember} (hcomment : CommentText m.comment)
    (htype : PlainText m.type.text) (hname : PlainText m.name) : m.docLine.WellFormed := by
  refine DocLine.wellFormed_of_plain (c := ';') hcomment ?_ (by simp [docLine]) (by decide)
  simp +decide [docLine, htype, hname]

theorem CxxStruct.docLines_wellFormed {s : CxxStruct} (hcomment : CommentText s.comment)
    (hinterface : PlainText s.interface) (hname : PlainText s.name)
    (hmembers : ∀ m ∈ s.members, m.docLine.WellFormed) : ∀ d ∈ s.docLines, d.WellFormed := by
  have htag : PlainText s.kind.tag := by
    cases s.kind
    · decide
    · decide
  have hheader : PlainText ("struct " ++ s.interface ++ "::" ++ s.kind.tag ++ "::" ++ s.name ++
      " \x7b") := by
    simp +decide [hinterface, htag, hname]
  have hopcode : PlainText (indent 4 ++ "static constexpr Wopcode<" ++ s.interface ++
      "> opcode\x7b " ++ toString s.opcode ++ " \x7d;") := by
    simp +decide [hinterface]
  intro d hd
  simp only [docLines, List.mem_append, List.mem_cons, List.not_mem_nil, or_false,
    List.mem_map] at hd
  rcases hd with ((rfl | rfl) | ⟨m, hm, rfl⟩) | rfl
  · exact DocLine.wellFormed_of_plain (c := 's') hcomment hheader (by simp) (by decide)
  · exact DocLine.wellFormed_of_plain (c := ';') commentText_empty hopcode (by simp) (by decide)
  · exact hmembers m hm
  · exact DocLine.wellFormed_of_plain (c := ';') commentText_empty (by decide) (by decide)
      (by decide)

theorem CxxEnumerator.docLine_wellFormed {e : CxxEnumerator} (hcomment : CommentText e.comment)
    (hname : PlainText e.name) (last : Bool) : (e.docLine last).WellFormed := by
  refine DocLine.wellFormed_of_plain (c := '=') hcomment ?_ (by simp [docLine]) (by decide)
  cases last
  · simp +decide [docLine, hname]
  · simp +decide [docLine, hname]

theorem CxxEnum.docLines_wellFormed {e : CxxEnum} (hcomment : CommentText e.comment)
    (hinterface : PlainText e.interface) (hname : PlainText e.name)
    (hunderlying : PlainText e.underlying.text)
    (henumerators : ∀ enumerator ∈ e.enumerators, ∀ last, (enumerator.docLine last).WellFormed) :
    ∀ d ∈ e.docLines, d.WellFormed := by
  have hheader : PlainText ("enum class " ++ e.interface ++ "::" ++ e.name ++ " : " ++
      (e.underlying.text ++ "::integral_type") ++ " \x7b") := by
    simp +decide [hinterface, hname, hunderlying]
  intro d hd
  simp only [docLines, List.mem_append, List.mem_singleton, List.mem_map,
    Option.mem_toList] at hd
  rcases hd with ((rfl | ⟨enumerator, hmem, rfl⟩) | ⟨enumerator, hmem, rfl⟩) | rfl
  · exact DocLine.wellFormed_of_plain (c := 'e') hcomment hheader (by simp) (by decide)
  · exact henumerators enumerator (List.mem_of_mem_dropLast hmem) false
  · exact henumerators enumerator (List.mem_of_getLast? hmem) true
  · exact DocLine.wellFormed_of_plain (c := ';') commentText_empty (by decide) (by decide)
      (by decide)

/-! ## Documentation -/

def descriptionSummaries (description : Option WlDescription) : List String :=
  (description.map WlDescription.summary).toList

def WlArg.summaries (a : WlArg) : List String :=
  memberSummaries a.summary a.description

def WlEnumEntry.summaries (e : WlEnumEntry) : List String :=
  memberSummaries e.summary e.description

def WlMessage.summaries (m : WlMessage) : List String :=
  descriptionSummaries m.description ++ m.args.flatMap WlArg.summaries

def WlEnum.summaries (e : WlEnum) : List String :=
  descriptionSummaries e.description ++ e.entries.flatMap WlEnumEntry.summaries

def WlInterface.summaries (i : WlInterface) : List String :=
  i.enums.flatMap WlEnum.summaries ++ i.requests.flatMap WlMessage.summaries ++
    i.events.flatMap WlMessage.summaries

/-- All summaries that the generator writes. -/
def WlProtocol.summaries (p : WlProtocol) : List String :=
  descriptionSummaries p.description ++ p.interfaces.flatMap WlInterface.summaries

/-- Names and summaries as they stand in the attributes of an XML file: names without slashes,
quotes and backslashes, and summaries in one line. -/
structure WlProtocol.PlainAttributes (p : WlProtocol) : Prop where
  names : ∀ name ∈ p.names, PlainText name
  summaries : ∀ summary ∈ p.summaries, OneLine summary

theorem commentText_descriptionSummaries {description : Option WlDescription}
    (h : ∀ s ∈ descriptionSummaries description, OneLine s) (spaces : ℕ) :
    CommentText (definitionComment description spaces) :=
  commentText_definitionComment
    (fun d hd => h _ (by simp [descriptionSummaries, Option.mem_def.mp hd])) spaces

/-! ## The lines of an interface -/

theorem WlArg.docLine_wellFormed {a : WlArg} {interface : String}
    (hinterface : PlainText interface) (hnames : ∀ name ∈ a.names, PlainText name)
    (hsummaries : ∀ s ∈ a.summaries, OneLine s) :
    (a.cxxMember interface).docLine.WellFormed :=
  CxxMember.docLine_wellFormed (commentText_memberComment hsummaries 4)
    (a.plainText_type hinterface hnames) (hnames _ (by simp [names, cxxMember]))

theorem WlMessage.docLines_wellFormed {m : WlMessage} {interface : String}
    (hinterface : PlainText interface) (hnames : ∀ name ∈ m.names, PlainText name)
    (hsummaries : ∀ s ∈ m.summaries, OneLine s) (kind : MessageKind) (opcode : ℕ) :
    ∀ d ∈ (m.cxxStruct kind interface opcode).docLines, d.WellFormed := by
  simp only [names, List.forall_mem_cons] at hnames
  simp only [summaries, List.forall_mem_append] at hsummaries
  apply CxxStruct.docLines_wellFormed
  · exact commentText_descriptionSummaries hsummaries.1 0
  · exact hinterface
  · exact hnames.1
  · intro member hmember
    obtain ⟨a, ha, rfl⟩ := List.mem_map.mp hmember
    exact WlArg.docLine_wellFormed hinterface
      (fun name hname => hnames.2 name (List.mem_flatMap_of_mem ha hname))
      (fun s hs => hsummaries.2 s (List.mem_flatMap_of_mem ha hs))

theorem WlEnum.docLines_wellFormed {e : WlEnum} {interface : String}
    (hinterface : PlainText interface) (hnames : ∀ name ∈ e.names, PlainText name)
    (hsummaries : ∀ s ∈ e.summaries, OneLine s) :
    ∀ d ∈ (e.cxxEnum interface).docLines, d.WellFormed := by
  simp only [names, List.forall_mem_cons] at hnames
  simp only [summaries, List.forall_mem_append] at hsummaries
  apply CxxEnum.docLines_wellFormed
  · exact commentText_descriptionSummaries hsummaries.1 0
  · exact hinterface
  · exact hnames.1
  · rw [cxxEnum]
    dsimp only
    split
    · decide
    · decide
  · intro enumerator henumerator last
    obtain ⟨entry, hentry, rfl⟩ := List.mem_map.mp henumerator
    have hname : PlainText entry.name := hnames.2 _ (List.mem_map_of_mem hentry)
    apply CxxEnumerator.docLine_wellFormed
    · exact commentText_memberComment
        (fun s hs => hsummaries.2 s (List.mem_flatMap_of_mem hentry hs)) 4
    · simp +decide [WlEnumEntry.cxxEnumerator, hname]

theorem WlInterface.forwardLines_wellFormed {i : WlInterface}
    (hnames : ∀ name ∈ i.names, PlainText name) : ∀ d ∈ i.forwardLines, d.WellFormed := by
  simp only [names, List.forall_mem_cons, List.forall_mem_append] at hnames
  obtain ⟨hname, ⟨henums, hrequests⟩, hevents⟩ := hnames
  have hmessage (ms : List WlMessage) (hms : ∀ n ∈ ms.flatMap WlMessage.names, PlainText n)
      (m : WlMessage) (hm : m ∈ ms) :
      (⟨"", indent 8 ++ "struct " ++ m.name ++ ";"⟩ : DocLine).WellFormed := by
    have hplain : PlainText m.name :=
      hms _ (List.mem_flatMap_of_mem hm (by simp [WlMessage.names]))
    exact DocLine.wellFormed_of_plain (c := ';') commentText_empty (by simp +decide [hplain])
      (by simp) (by decide)
  have hclosing (spaces : ℕ) : (⟨"", indent spaces ++ "\x7d;"⟩ : DocLine).WellFormed :=
    DocLine.wellFormed_of_plain (c := ';') commentText_empty (by simp +decide) (by simp)
      (by decide)
  intro d hd
  simp only [forwardLines, List.mem_append, List.mem_cons, List.not_mem_nil, or_false,
    List.mem_map] at hd
  rcases hd with (((((rfl | ⟨e, he, rfl⟩) | rfl) | ⟨m, hm, rfl⟩) | rfl | rfl) | ⟨m, hm, rfl⟩) |
    rfl | rfl
  · exact DocLine.wellFormed_of_plain (c := 's') commentText_empty (by simp +decide [hname])
      (by simp) (by decide)
  · have hplain : PlainText e.name :=
      henums _ (List.mem_flatMap_of_mem he (by simp [WlEnum.names]))
    have hunderlying : PlainText e.underlyingType := by
      rw [WlEnum.underlyingType]
      split
      · decide
      · decide
    exact DocLine.wellFormed_of_plain (c := ';') commentText_empty
      (by simp +decide [hplain, hunderlying]) (by simp) (by decide)
  · refine DocLine.wellFormed_of_plain (c := 's') ?_ (by simp +decide) (by simp) (by decide)
    dsimp only
    split
    · exact commentText_newline
    · exact commentText_empty
  · exact hmessage _ hrequests m hm
  · exact hclosing 4
  · exact DocLine.wellFormed_of_plain (c := 's') commentText_newline (by decide) (by decide)
      (by decide)
  · exact hmessage _ hevents m hm
  · exact hclosing 4
  · exact hclosing 0

theorem WlProtocol.PlainAttributes.interfaces {p : WlProtocol} (h : p.PlainAttributes)
    {i : WlInterface} (hi : i ∈ p.interfaces) :
    (∀ name ∈ i.names, PlainText name) ∧ ∀ s ∈ i.summaries, OneLine s :=
  ⟨fun name hname => h.names name
      (List.mem_cons_of_mem _ (List.mem_flatMap_of_mem hi hname)),
    fun s hs => h.summaries s (List.mem_append_right _ (List.mem_flatMap_of_mem hi hs))⟩

theorem renders_newline : Renders "\n".toList [] := by
  have hline : Renders ([] ++ ['\n']) _ := renders_line (by decide) (by decide)
  exact hline

/-- Declarations with an empty line behind each. -/
theorem renders_join {α : Type} {text : α → String} {lines : α → List DocLine} {items : List α}
    (htext : ∀ a, text a = docText (lines a) ++ "\n")
    (h : ∀ a ∈ items, ∀ d ∈ lines a, d.WellFormed) :
    Renders (String.join (items.map text)).toList
      (shown ((items.flatMap lines).map DocLine.documented)) := by
  have hjoin : (String.join (items.map text)).toList = items.flatMap fun a => (text a).toList := by
    rw [String.toList_join, List.flatMap_map]
  rw [hjoin, List.map_flatMap, shown_flatMap]
  apply renders_flatMap
  intro a ha
  rw [htext, String.toList_append]
  simpa using (renders_docText (h a ha)).append renders_newline

/-- The lines of the definitions of an interface. -/
def WlInterface.definitionLines (i : WlInterface) : List DocLine :=
  i.cxxEnums.flatMap CxxEnum.docLines ++
    (i.cxxStructs .request ++ i.cxxStructs .event).flatMap CxxStruct.docLines

theorem WlInterface.cxxStructs_wellFormed {i : WlInterface}
    (hnames : ∀ name ∈ i.names, PlainText name) (hsummaries : ∀ s ∈ i.summaries, OneLine s)
    (kind : MessageKind) : ∀ s ∈ i.cxxStructs kind, ∀ d ∈ s.docLines, d.WellFormed := by
  simp only [names, List.forall_mem_cons, List.forall_mem_append] at hnames
  simp only [summaries, List.forall_mem_append] at hsummaries
  obtain ⟨hname, ⟨-, hrequests⟩, hevents⟩ := hnames
  have hmessages (ms : List WlMessage) (hms : ∀ n ∈ ms.flatMap WlMessage.names, PlainText n)
      (hss : ∀ s ∈ ms.flatMap WlMessage.summaries, OneLine s) (opcode : ℕ) (m : WlMessage)
      (hm : m ∈ ms) : ∀ d ∈ (m.cxxStruct kind i.name opcode).docLines, d.WellFormed :=
    WlMessage.docLines_wellFormed hname (fun n hn => hms n (List.mem_flatMap_of_mem hm hn))
      (fun s hs => hss s (List.mem_flatMap_of_mem hm hs)) kind opcode
  intro s hs
  cases kind with
  | request =>
      obtain ⟨⟨opcode, m⟩, hmem, rfl⟩ := List.mem_map.mp hs
      exact hmessages _ hrequests hsummaries.1.2 opcode m (List.of_mem_zip hmem).2
  | event =>
      obtain ⟨⟨opcode, m⟩, hmem, rfl⟩ := List.mem_map.mp hs
      exact hmessages _ hevents hsummaries.2 opcode m (List.of_mem_zip hmem).2

theorem WlInterface.renders_definitionsText {i : WlInterface}
    (hnames : ∀ name ∈ i.names, PlainText name) (hsummaries : ∀ s ∈ i.summaries, OneLine s) :
    Renders i.definitionsText.toList (shown (i.definitionLines.map DocLine.documented)) := by
  have henums : ∀ e ∈ i.cxxEnums, ∀ d ∈ e.docLines, d.WellFormed := by
    intro e he
    obtain ⟨enum, henum, rfl⟩ := List.mem_map.mp he
    simp only [names, List.forall_mem_cons, List.forall_mem_append] at hnames
    simp only [summaries, List.forall_mem_append] at hsummaries
    exact WlEnum.docLines_wellFormed hnames.1
      (fun n hn => hnames.2.1.1 n (List.mem_flatMap_of_mem henum hn))
      (fun s hs => hsummaries.1.1 s (List.mem_flatMap_of_mem henum hs))
  have hstructs : ∀ s ∈ i.cxxStructs .request ++ i.cxxStructs .event,
      ∀ d ∈ s.docLines, d.WellFormed :=
    List.forall_mem_append.mpr ⟨cxxStructs_wellFormed hnames hsummaries .request,
      cxxStructs_wellFormed hnames hsummaries .event⟩
  have hlines : shown (i.definitionLines.map DocLine.documented) =
      shown ((i.cxxEnums.flatMap CxxEnum.docLines).map DocLine.documented) ++
        shown (((i.cxxStructs .request ++ i.cxxStructs .event).flatMap CxxStruct.docLines).map
          DocLine.documented) := by
    rw [definitionLines, List.map_append, shown_append]
  rw [definitionsText, String.toList_append, hlines]
  exact (renders_join CxxEnum.docLines_text henums).append
    (renders_join CxxStruct.docLines_text hstructs)

/-! ## The header -/

/-- The lines in front of the declarations. -/
def WlProtocol.preambleLines (p : WlProtocol) : List DocLine :=
  [⟨p.fileComment, "#pragma once"⟩,
    ⟨"\n", "#include \"waylander/wayland/protocol_primitives.hpp\""⟩,
    ⟨"\n", "namespace waylander \x7b"⟩, ⟨"", "namespace wl \x7b"⟩,
    ⟨"", "namespace protocols \x7b"⟩]

/-- The lines of code that the generator writes, each with its comment. -/
def WlProtocol.docLines (p : WlProtocol) : List DocLine :=
  p.preambleLines ++ p.interfaces.flatMap WlInterface.forwardLines ++
    p.interfaces.flatMap WlInterface.definitionLines

/-- What is left of the lines that close the namespaces. -/
def closingLines : List (List Char) :=
  List.replicate 3 "\x7d  ".toList

theorem WlDescription.asSphinxComment_file (d : WlDescription) :
    d.asSphinxComment "@file\n/// " 0 = "/// @file\n" ++ d.asSphinxComment "" 0 := by
  rw [← String.toList_inj, asSphinxComment, asSphinxComment]
  cases d.description with
  | none => simp [indent_zero]
  | some text =>
      by_cases hempty : text = ""
      · simp [indent_zero, hempty]
      · simp [indent_zero, hempty]

theorem WlProtocol.commentText_fileComment {p : WlProtocol} (h : p.PlainAttributes) :
    CommentText p.fileComment := by
  have hname : '\n' ∉ p.name.toList := fun hmem =>
    (h.names p.name (by simp [names]) _ hmem).2.2.2.2 rfl
  have hfile : CommentText "/// @file\n" :=
    commentText_line 0 "/ @file".toList (by simp) (by decide)
  have hspacer : CommentText "///\n" := commentText_line 0 ['/'] (by simp) (by decide)
  have hgenerated : CommentText
      ("// Generated from Wayland xml protocol: " ++ p.name ++ "\n\n") := by
    have hline : CommentText ("// Generated from Wayland xml protocol: " ++ p.name ++ "\n") :=
      commentText_line 0 (" Generated from Wayland xml protocol: ".toList ++ p.name.toList)
        (by simp) (by simpa using hname)
    convert hline.append commentText_newline using 1
    simp [← String.toList_inj]
  unfold fileComment
  refine (hgenerated.append ?_).append ?_
  · cases hdescription : p.description with
    | none =>
        have hline : CommentText ("/// " ++ p.name ++ " xml protocol\n") :=
          commentText_line 0 ("/ ".toList ++ p.name.toList ++ " xml protocol".toList)
            (by simp) (by simpa using hname)
        convert hfile.append hline using 1
        simp [← String.toList_inj]
    | some d =>
        have hone : OneLine d.summary :=
          h.summaries _ (by simp [summaries, descriptionSummaries, hdescription])
        dsimp only
        rw [d.asSphinxComment_file]
        exact hfile.append (d.commentText hone 0)
  · split
    · exact hspacer.append ((commentText_commentify _ 0).append commentText_newline)
    · exact commentText_empty

/-- The comment in front of the first interface. -/
def declareComment : String :=
  "\n/// Declare everything before they might be used.\n\n"

/-- The lines that close the namespaces. -/
def tailText : String :=
  "\x7d // namespace protocols\n" ++ "\x7d // namespace wl\n" ++ "\x7d // namespace waylander\n"

theorem renders_declareComment : Renders declareComment.toList [] := by
  have hcomment : declareComment.toList =
      unlines [[], "/// Declare everything before they might be used.".toList, []] := by
    decide
  rw [hcomment]
  apply renders_comment
  · intro c hc
    simp only [List.mem_cons, List.not_mem_nil, or_false] at hc
    rcases hc with rfl | rfl | rfl
    · exact .inr rfl
    · exact .inl ⟨[], "/ Declare everything before they might be used.".toList, by decide, rfl⟩
    · exact .inr rfl
  · decide
  · decide

theorem renders_tailText : Renders tailText.toList closingLines := by
  have hline (line : List Char) (h : Closed line) (hnewline : '\n' ∉ line)
      (hcode : [(scan .code line).2].filter notBlank = ["\x7d  ".toList]) :
      Renders (line ++ ['\n']) ["\x7d  ".toList] :=
    hcode ▸ renders_line h hnewline
  have hprotocols := hline "\x7d // namespace protocols".toList (by decide) (by decide) (by decide)
  have hwl := hline "\x7d // namespace wl".toList (by decide) (by decide) (by decide)
  have hwaylander := hline "\x7d // namespace waylander".toList (by decide) (by decide) (by decide)
  have htext : tailText.toList = "\x7d // namespace protocols".toList ++ ['\n'] ++
      ("\x7d // namespace wl".toList ++ ['\n']) ++
      ("\x7d // namespace waylander".toList ++ ['\n']) := by
    decide +kernel
  rw [htext]
  exact (hprotocols.append hwl).append hwaylander

def WlProtocol.preambleText (p : WlProtocol) : String :=
  docText p.preambleLines ++ declareComment

theorem WlProtocol.preambleText_eq (p : WlProtocol) :
    p.preambleText = p.fileComment ++ "#pragma once\n\n" ++
      "#include \"waylander/wayland/protocol_primitives.hpp\"\n\n" ++
      "namespace waylander \x7b\n" ++ "namespace wl \x7b\n" ++ "namespace protocols \x7b\n\n" ++
      "/// Declare everything before they might be used.\n\n" := by
  have htail : "#pragma once" ++ "\n" ++ docText p.preambleLines.tail ++ declareComment =
      "#pragma once\n\n" ++ "#include \"waylander/wayland/protocol_primitives.hpp\"\n\n" ++
      "namespace waylander \x7b\n" ++ "namespace wl \x7b\n" ++ "namespace protocols \x7b\n\n" ++
      "/// Declare everything before they might be used.\n\n" := by
    rw [preambleLines, List.tail_cons]
    decide +kernel
  calc
    _ = p.fileComment ++
        ("#pragma once" ++ "\n" ++ docText p.preambleLines.tail ++ declareComment) := by
      simp only [preambleText, preambleLines, docText_cons, List.tail_cons, DocLine.text,
        String.append_assoc]
    _ = _ := by
      rw [htail]
      simp only [String.append_assoc]

theorem WlProtocol.headerContent_text {p : WlProtocol} {content : String}
    (h : p.headerContent = .ok content) :
    content = p.preambleText ++ docText (p.interfaces.flatMap WlInterface.forwardLines) ++
      String.join (p.interfaces.map WlInterface.definitionsText) ++ tailText := by
  obtain ⟨definitions, hdefinitions, h⟩ := bind_eq_ok_iff.mp h
  obtain rfl := pure_eq_ok_iff.mp h
  rw [WlProtocol.eq_definitionsText hdefinitions]
  have hforward : String.join (p.interfaces.map WlInterface.asCxxStructWithoutDefinitions) =
      docText (p.interfaces.flatMap WlInterface.forwardLines) := by
    rw [funext WlInterface.forwardLines_text]
    induction p.interfaces with
    | nil => rfl
    | cons i is ih => rw [List.map_cons, String.join_cons, ih, List.flatMap_cons, docText_append]
  rw [hforward, p.preambleText_eq]
  unfold tailText
  simp only [String.append_assoc]

theorem WlProtocol.PlainAttributes.renders {p : WlProtocol} (h : p.PlainAttributes)
    {content : String} (hcontent : p.headerContent = .ok content) :
    Renders content.toList (shown (p.docLines.map DocLine.documented) ++ closingLines) := by
  have hpreamble : ∀ d ∈ p.preambleLines, d.WellFormed := by
    intro d hd
    simp only [preambleLines, List.mem_cons, List.not_mem_nil, or_false] at hd
    rcases hd with rfl | rfl | rfl | rfl | rfl
    · exact DocLine.wellFormed_of_plain (c := '#') (p.commentText_fileComment h) (by simp +decide)
        (by simp) (by decide)
    · -- the only line with a literal
      exact ⟨commentText_newline, ⟨by decide, by decide, by decide⟩, by decide⟩
    · exact DocLine.wellFormed_of_plain (c := '\x7b') commentText_newline (by decide) (by decide)
        (by decide)
    · exact DocLine.wellFormed_of_plain (c := '\x7b') commentText_empty (by decide) (by decide)
        (by decide)
    · exact DocLine.wellFormed_of_plain (c := '\x7b') commentText_empty (by decide) (by decide)
        (by decide)
  have hforward : ∀ d ∈ p.interfaces.flatMap WlInterface.forwardLines, d.WellFormed := by
    intro d hd
    obtain ⟨i, hi, hd⟩ := List.mem_flatMap.mp hd
    exact WlInterface.forwardLines_wellFormed (h.interfaces hi).1 d hd
  have hdefinitions : Renders (String.join (p.interfaces.map WlInterface.definitionsText)).toList
      (shown ((p.interfaces.flatMap WlInterface.definitionLines).map DocLine.documented)) := by
    rw [String.toList_join, List.flatMap_map, List.map_flatMap, shown_flatMap]
    apply renders_flatMap
    intro i hi
    exact WlInterface.renders_definitionsText (h.interfaces hi).1 (h.interfaces hi).2
  have hall := ((((renders_docText hpreamble).append renders_declareComment).append
    (renders_docText hforward)).append hdefinitions).append renders_tailText
  rw [List.append_nil, ← shown_append, ← List.map_append, ← shown_append, ← List.map_append] at hall
  rw [headerContent_text hcontent, preambleText]
  simpa only [String.toList_append, docLines] using hall

/-- A description that ends in a backslash. -/
def pathsProtocol : WlProtocol where
  name := "paths"
  copyright := none
  description := none
  interfaces := [{
    name := "paths"
    version := 1
    description := none
    requests := [{
      name := "open"
      messageType := none
      sinceVersion := none
      description := some ⟨"open a file", some "\n  The separator is \\\n"⟩
      args := [{
        name := "path"
        argType := .wlString
        summary := some "path of the file"
        interface := none
        allowNull := none
        enum := none
        description := none }] }]
    events := []
    enums := []
    requestOpcodes := [0]
    eventOpcodes := [] }]

example : (pathsProtocol.docLines.filter fun d => !closes (commentLines d.comment)).map
    DocLine.line = ["struct paths::request::open \x7b"] := by
  decide +kernel

end Waylander
