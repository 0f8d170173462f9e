import Mathlib.Data.List.Basic

/-!
# Comments in C++ text

The first translation phases of C++, as far as they decide which characters of a
text are code: a line that ends in a backslash is spliced with the next one, and
then comments are taken out, outside of string and character literals.  Raw string
literals are not considered.

A text renders some lines of code if it contributes just these lines wherever it
stands between two lines.  Texts that do can be put one after another.
-/

namespace CxxComments

/-- White space other than the end of a line. -/
def isBlank (c : Char) : Bool :=
  c == ' ' || c == '\t' || c == '\x0b' || c == '\x0c' || c == '\r'

/-! ## Splicing -/

/-- Only white space follows the last backslash of the line. -/
def continues (line : List Char) : Bool :=
  (line.reverse.dropWhile isBlank).head? == some '\\'

/-- A line that continues, without its last backslash and what follows it. -/
def spliced (line : List Char) : List Char :=
  (line.reverse.dropWhile isBlank).tail.reverse

def logicalLines : List (List Char) → List (List Char)
  | [] => []
  | line :: rest =>
      if continues line then
        match logicalLines rest with
        | [] => [spliced line]
        | next :: more => (spliced line ++ next) :: more
      else
        line :: logicalLines rest

/-! ## Taking comments out -/

/-- What the characters before have begun. -/
inductive Mode
  | code
  /-- A slash that may begin a comment. -/
  | slash
  | lineComment
  | blockComment
  /-- An asterisk that may end a block comment. -/
  | asterisk
  | literal (quote : Char)
  /-- A backslash in a literal. -/
  | escape (quote : Char)
  deriving DecidableEq

/-- One character: the next mode and the characters of code. -/
def step : Mode → Char → Mode × List Char
  | .code, c =>
      if c = '/' then (.slash, [])
      else if c = '"' ∨ c = '\'' then (.literal c, [c])
      else (.code, [c])
  | .slash, c =>
      if c = '/' then (.lineComment, [' '])
      else if c = '*' then (.blockComment, [' '])
      else if c = '"' ∨ c = '\'' then (.literal c, ['/', c])
      else (.code, ['/', c])
  | .lineComment, _ => (.lineComment, [])
  | .blockComment, c => (if c = '*' then .asterisk else .blockComment, [])
  | .asterisk, c =>
      (if c = '/' then .code else if c = '*' then .asterisk else .blockComment, [])
  | .literal quote, c =>
      (if c = quote then .code else if c = '\\' then .escape quote else .literal quote, [c])
  | .escape quote, c => (.literal quote, [c])

/-- The end of a line.  A literal does not go on on the next line. -/
def endLine : Mode → Mode × List Char
  | .slash => (.code, ['/'])
  | .blockComment => (.blockComment, [])
  | .asterisk => (.blockComment, [])
  | _ => (.code, [])

def scan : Mode → List Char → Mode × List Char
  | mode, [] => endLine mode
  | mode, c :: cs => ((scan (step mode c).1 cs).1, (step mode c).2 ++ (scan (step mode c).1 cs).2)

def scanLines : Mode → List (List Char) → List (List Char)
  | _, [] => []
  | mode, line :: rest => (scan mode line).2 :: scanLines (scan mode line).1 rest

def notBlank (line : List Char) : Bool :=
  !line.all isBlank

/-- The lines of code that the lines make up. -/
def codeOf (lines : List (List Char)) : List (List Char) :=
  (scanLines .code (logicalLines lines)).filter notBlank

/-- The lines of a text that are not blank when the comments are taken out. -/
def codeLines (text : List Char) : List (List Char) :=
  codeOf (text.splitOn '\n')

example : codeLines "int a; // b \\\nint c;\nint d; /* e\n*/ int f;".toList =
    ["int a;  ".toList, "int d;  ".toList, " int f;".toList] := by
  decide

/-! ## Lines that stand alone -/

/-- The line is not spliced with the next one and leaves no comment open. -/
def Closed (line : List Char) : Prop :=
  continues line = false ∧ (scan .code line).1 = .code

instance (line : List Char) : Decidable (Closed line) :=
  inferInstanceAs (Decidable (_ ∧ _))

theorem codeOf_cons {line : List Char} (h : Closed line) (rest : List (List Char)) :
    codeOf (line :: rest) = [(scan .code line).2].filter notBlank ++ codeOf rest := by
  rw [codeOf, logicalLines, h.1]
  simp only [Bool.false_eq_true, if_false, scanLines, h.2, codeOf]
  rw [← List.filter_append]
  rfl

/-- No character of the line begins a comment, a literal or an escape. -/
def Plain (line : List Char) : Prop :=
  ∀ c ∈ line, c ≠ '/' ∧ c ≠ '"' ∧ c ≠ '\'' ∧ c ≠ '\\' ∧ c ≠ '\n'

instance (line : List Char) : Decidable (Plain line) :=
  List.decidableBAll _ line

theorem Plain.append {xs ys : List Char} (hxs : Plain xs) (hys : Plain ys) : Plain (xs ++ ys) := by
  intro c hc
  rcases List.mem_append.mp hc with hc | hc
  · exact hxs c hc
  · exact hys c hc

theorem Plain.not_continues {line : List Char} (h : Plain line) : continues line = false := by
  rw [continues, beq_eq_false_iff_ne]
  intro hhead
  have hmem := List.mem_of_mem_head? hhead
  have hline := List.mem_reverse.mp ((List.dropWhile_sublist _).subset hmem)
  exact (h '\\' hline).2.2.2.1 rfl

theorem Plain.scan {line : List Char} (h : Plain line) : scan .code line = (.code, line) := by
  induction line with
  | nil => rfl
  | cons c cs ih =>
      obtain ⟨hslash, hquote, hapostrophe, -, -⟩ := h c (by simp)
      have hstep : step .code c = (.code, [c]) := by
        simp [step, hslash, hquote, hapostrophe]
      rw [CxxComments.scan, hstep, ih fun d hd => h d (by simp [hd])]
      rfl

/-- The line is code as it stands. -/
structure Verbatim (line : List Char) : Prop where
  not_continues : continues line = false
  scan : scan .code line = (.code, line)
  newline : '\n' ∉ line

theorem Plain.verbatim {line : List Char} (h : Plain line) : Verbatim line where
  not_continues := h.not_continues
  scan := h.scan
  newline := fun hmem => (h '\n' hmem).2.2.2.2 rfl

/-! ## Comment lines -/

/-- The line has nothing in front of a comment that begins with two slashes. -/
def IsComment (line : List Char) : Prop :=
  ∃ blanks rest, line = blanks ++ '/' :: '/' :: rest ∧ blanks.all isBlank = true

theorem scan_lineComment (cs : List Char) : scan .lineComment cs = (.code, []) := by
  induction cs with
  | nil => rfl
  | cons c cs ih => rw [scan, step, ih]; rfl

theorem step_blank {c : Char} (h : isBlank c = true) : step .code c = (.code, [c]) := by
  have hne : c ≠ '/' ∧ c ≠ '"' ∧ c ≠ '\'' := by
    refine ⟨?_, ?_, ?_⟩
    · rintro rfl
      exact absurd h (by decide)
    · rintro rfl
      exact absurd h (by decide)
    · rintro rfl
      exact absurd h (by decide)
  simp [step, hne]

/-- Of a comment line only blanks are left. -/
theorem IsComment.scan {line : List Char} (h : IsComment line) :
    (scan .code line).1 = .code ∧ notBlank (scan .code line).2 = false := by
  obtain ⟨blanks, rest, rfl, hblanks⟩ := h
  induction blanks with
  | nil =>
      rw [List.nil_append, CxxComments.scan, CxxComments.scan]
      simp [step, scan_lineComment, notBlank, isBlank]
  | cons c cs ih =>
      rw [List.all_cons, Bool.and_eq_true] at hblanks
      obtain ⟨hmode, hout⟩ := ih hblanks.2
      rw [List.cons_append, CxxComments.scan, step_blank hblanks.1]
      refine ⟨hmode, ?_⟩
      rw [notBlank, Bool.not_eq_false'] at hout ⊢
      simpa [hblanks.1] using hout

theorem codeOf_comment {line : List Char} (h : IsComment line) (hends : continues line = false)
    (rest : List (List Char)) : codeOf (line :: rest) = codeOf rest := by
  obtain ⟨hmode, hout⟩ := h.scan
  rw [codeOf_cons ⟨hends, hmode⟩]
  simp [hout]

theorem eq_spliced_append {line : List Char} (h : continues line = true) :
    ∃ blanks, line = spliced line ++ '\\' :: blanks := by
  rw [continues, beq_iff_eq] at h
  have hcons := List.cons_head?_tail h
  refine ⟨(line.reverse.takeWhile isBlank).reverse, ?_⟩
  have hline := List.takeWhile_append_dropWhile (p := isBlank) (l := line.reverse)
  rw [← hcons] at hline
  have hreverse := congrArg List.reverse hline
  rw [List.reverse_reverse] at hreverse
  conv_lhs => rw [← hreverse]
  simp [spliced]

/-- A comment line stays one when the next line is spliced to it. -/
theorem IsComment.spliced {line : List Char} (h : IsComment line) (hcont : continues line = true)
    (next : List Char) : IsComment (spliced line ++ next) := by
  obtain ⟨blanks, rest, hline, hblanks⟩ := h
  obtain ⟨behind, hsplice⟩ := eq_spliced_append hcont
  have hfront : line = (blanks ++ ['/', '/']) ++ rest := by simp [hline]
  rcases List.append_eq_append_iff.mp (hfront.symm.trans hsplice) with
    ⟨mid, hmid, -⟩ | ⟨mid, hmid, hrest⟩
  · exact ⟨blanks, mid ++ next, by simp [hmid], hblanks⟩
  · -- the backslash would be one of the blanks or slashes
    cases mid with
    | nil => exact ⟨blanks, next, by simpa using congrArg (· ++ next) hmid.symm, hblanks⟩
    | cons c mid =>
        obtain ⟨rfl, -⟩ := List.cons_eq_cons.mp hrest.symm
        have hmem : '\\' ∈ blanks ++ ['/', '/'] := by rw [hmid]; simp
        rcases List.mem_append.mp hmem with hmem | hmem
        · exact absurd (List.all_eq_true.mp hblanks _ hmem) (by decide)
        · exact absurd hmem (by decide)

/-- The first of the lines that a comment line and what follows make up. -/
theorem IsComment.exists_logicalLines {line : List Char} (h : IsComment line)
    (rest : List (List Char)) :
    ∃ first more, logicalLines (line :: rest) = first :: more ∧ IsComment first := by
  rw [logicalLines]
  by_cases hcont : continues line = true
  · rw [if_pos hcont]
    cases logicalLines rest with
    | nil => exact ⟨_, [], rfl, by simpa using h.spliced hcont []⟩
    | cons next more => exact ⟨_, more, rfl, h.spliced hcont next⟩
  · rw [if_neg hcont]
    exact ⟨line, logicalLines rest, rfl, h⟩

theorem scanLines_comment {line : List Char} (h : IsComment line) (more : List (List Char)) :
    (scanLines .code (line :: more)).filter notBlank =
      (scanLines .code more).filter notBlank := by
  obtain ⟨hmode, hout⟩ := h.scan
  rw [scanLines, hmode]
  simp [hout]

/-- A comment line or an empty line. -/
def Vanishing (line : List Char) : Prop :=
  IsComment line ∨ line = []

theorem codeOf_nil_cons (rest : List (List Char)) : codeOf ([] :: rest) = codeOf rest :=
  codeOf_cons (by decide) rest

theorem Vanishing.codeOf {line : List Char} (h : Vanishing line)
    (hends : continues line = false) (rest : List (List Char)) :
    codeOf (line :: rest) = codeOf rest := by
  rcases h with h | rfl
  · exact codeOf_comment h hends rest
  · exact codeOf_nil_cons rest

theorem Vanishing.isComment {line : List Char} (h : Vanishing line)
    (hcont : continues line = true) : IsComment line := by
  rcases h with h | rfl
  · exact h
  · exact absurd hcont (by decide)

/-- A comment line may continue in front of a line that vanishes. -/
theorem Vanishing.codeOf_cons {line next : List Char} (h : Vanishing line)
    (hnext : Vanishing next) (rest : List (List Char)) :
    CxxComments.codeOf (line :: next :: rest) = CxxComments.codeOf (next :: rest) := by
  by_cases hcont : continues line = true
  · have hline := h.isComment hcont
    rcases hnext with hnext | rfl
    · obtain ⟨first, more, hfirst, hcomment⟩ := hnext.exists_logicalLines rest
      rw [CxxComments.codeOf, CxxComments.codeOf, logicalLines, if_pos hcont, hfirst,
        scanLines_comment hcomment, scanLines_comment (hline.spliced hcont first)]
    · have hfirst : logicalLines ([] :: rest) = [] :: logicalLines rest := rfl
      rw [codeOf_nil_cons, CxxComments.codeOf, logicalLines, if_pos hcont, hfirst,
        scanLines_comment (hline.spliced hcont [])]
      rfl
  · exact h.codeOf (by simpa using hcont) _

theorem codeOf_vanishing {cs : List (List Char)} {last : List Char} (hcs : ∀ c ∈ cs, Vanishing c)
    (hlast : Vanishing last) (rest : List (List Char)) :
    codeOf (cs ++ last :: rest) = codeOf (last :: rest) := by
  induction cs with
  | nil => rfl
  | cons c cs ih =>
      rw [← ih fun c' hc' => hcs c' (by simp [hc'])]
      cases cs with
      | nil => exact (hcs c (by simp)).codeOf_cons hlast rest
      | cons c' cs => exact (hcs c (by simp)).codeOf_cons (hcs c' (by simp)) _

/-- A comment line that continues takes the next line away. -/
theorem codeOf_swallowed {last line : List Char} (hlast : Vanishing last)
    (hcont : continues last = true) (hline : continues line = false)
    (rest : List (List Char)) : codeOf (last :: line :: rest) = codeOf rest := by
  have hlines : logicalLines (last :: line :: rest) =
      (spliced last ++ line) :: logicalLines rest := by
    rw [logicalLines, if_pos hcont, logicalLines, hline]
    rfl
  rw [codeOf, hlines, scanLines_comment ((hlast.isComment hcont).spliced hcont line)]
  rfl

/-! ## Texts that render code -/

/-- Wherever the text stands between two lines, it contributes these lines of
code. -/
def Renders (text : List Char) (code : List (List Char)) : Prop :=
  ∀ rest, codeLines (text ++ rest) = code ++ codeLines rest

theorem Renders.codeLines {text : List Char} {code : List (List Char)} (h : Renders text code) :
    codeLines text = code := by
  have hnil := h []
  rwa [List.append_nil, show CxxComments.codeLines [] = [] from rfl, List.append_nil] at hnil

theorem renders_nil : Renders [] [] := fun _ => rfl

theorem Renders.append {text text' : List Char} {code code' : List (List Char)}
    (h : Renders text code) (h' : Renders text' code') :
    Renders (text ++ text') (code ++ code') := by
  intro rest
  rw [List.append_assoc, h, h', List.append_assoc]

theorem renders_flatMap {α : Type*} {text : α → List Char} {code : α → List (List Char)}
    {items : List α} (h : ∀ a ∈ items, Renders (text a) (code a)) :
    Renders (items.flatMap text) (items.flatMap code) := by
  induction items with
  | nil => exact renders_nil
  | cons a items ih =>
      rw [List.flatMap_cons, List.flatMap_cons]
      exact (h a (by simp)).append (ih fun b hb => h b (by simp [hb]))

/-- The lines, each with its end. -/
def unlines (lines : List (List Char)) : List Char :=
  lines.flatMap fun line => line ++ ['\n']

theorem splitOn_unlines {lines : List (List Char)} (h : ∀ line ∈ lines, '\n' ∉ line)
    (rest : List Char) :
    (unlines lines ++ rest).splitOn '\n' = lines ++ rest.splitOn '\n' := by
  induction lines with
  | nil => rfl
  | cons line lines ih =>
      have htail := ih fun l hl => h l (by simp [hl])
      rw [unlines] at htail
      rw [unlines, List.flatMap_cons, List.append_assoc, List.append_assoc, List.singleton_append,
        List.splitOn_append_cons_self_of_not_mem (h line (by simp)), htail, List.cons_append]

theorem renders_line {line : List Char} (h : Closed line) (hnewline : '\n' ∉ line) :
    Renders (line ++ ['\n']) ([(scan .code line).2].filter notBlank) := by
  intro rest
  have hsplit : (unlines [line] ++ rest).splitOn '\n' = _ :=
    splitOn_unlines (by simpa using hnewline) rest
  simp only [unlines, List.flatMap_cons, List.flatMap_nil, List.append_nil] at hsplit
  rw [codeLines, hsplit, List.singleton_append, codeOf_cons h]
  rfl

theorem Verbatim.renders {line : List Char} (h : Verbatim line) (hblank : notBlank line = true) :
    Renders (line ++ ['\n']) [line] := by
  have hline := renders_line ⟨h.not_continues, by rw [h.scan]⟩ h.newline
  rw [h.scan] at hline
  simpa [hblank] using hline

/-- The last line of the comment is not spliced with the line behind it. -/
def closes (comment : List (List Char)) : Bool :=
  !continues (comment.getLastD [])

theorem renders_comment {comment : List (List Char)} (hcomment : ∀ c ∈ comment, Vanishing c)
    (hnewline : ∀ c ∈ comment, '\n' ∉ c) (hcloses : closes comment = true) :
    Renders (unlines comment) [] := by
  intro rest
  rw [codeLines, splitOn_unlines hnewline]
  rcases List.eq_nil_or_concat comment with rfl | ⟨cs, last, rfl⟩
  · rfl
  · rw [closes, List.concat_eq_append, List.getLastD_concat, Bool.not_eq_true'] at hcloses
    rw [List.concat_eq_append, List.append_assoc, List.singleton_append,
      codeOf_vanishing (fun c hc => hcomment c (by simp [hc])) (hcomment last (by simp)),
      (hcomment last (by simp)).codeOf hcloses]
    rfl

/-- A line of code under a comment. -/
structure Documented where
  comment : List (List Char)
  line : List Char

def Documented.text (d : Documented) : List Char :=
  unlines d.comment ++ (d.line ++ ['\n'])

/-- The comment consists of comment lines and empty lines, and the line is code. -/
structure Documented.WellFormed (d : Documented) : Prop where
  comment : ∀ c ∈ d.comment, Vanishing c
  newline : ∀ c ∈ d.comment, '\n' ∉ c
  verbatim : Verbatim d.line
  notBlank : notBlank d.line = true

/-- The line is rendered if its comment closes. -/
theorem Documented.WellFormed.renders {d : Documented} (h : d.WellFormed) :
    Renders d.text (if closes d.comment then [d.line] else []) := by
  by_cases hcloses : closes d.comment = true
  · rw [if_pos hcloses]
    exact (renders_comment h.comment h.newline hcloses).append (h.verbatim.renders h.notBlank)
  · rw [if_neg hcloses]
    intro rest
    have hnewline : ∀ c ∈ d.comment ++ [d.line], '\n' ∉ c := by
      intro c hc
      rcases List.mem_append.mp hc with hc | hc
      · exact h.newline c hc
      · rw [List.mem_singleton.mp hc]
        exact h.verbatim.newline
    have htext : d.text = unlines (d.comment ++ [d.line]) := by
      simp [Documented.text, unlines]
    rw [codeLines, htext, splitOn_unlines hnewline]
    rcases List.eq_nil_or_concat d.comment with hnil | ⟨cs, last, hconcat⟩
    · rw [hnil] at hcloses
      exact absurd rfl hcloses
    · rw [closes, hconcat, List.concat_eq_append, List.getLastD_concat, Bool.not_eq_true',
        Bool.not_eq_false] at hcloses
      have hcomment := h.comment
      rw [hconcat, List.concat_eq_append] at hcomment
      rw [hconcat, List.concat_eq_append, List.append_assoc, List.append_assoc,
        List.singleton_append, List.singleton_append,
        codeOf_vanishing (fun c hc => hcomment c (by simp [hc])) (hcomment last (by simp)),
        codeOf_swallowed (hcomment last (by simp)) hcloses h.verbatim.not_continues]
      rfl

/-- The lines that are rendered. -/
def shown (ds : List Documented) : List (List Char) :=
  (ds.filter fun d => closes d.comment).map Documented.line

theorem renders_documented {ds : List Documented} (h : ∀ d ∈ ds, d.WellFormed) :
    Renders (ds.flatMap Documented.text) (shown ds) := by
  induction ds with
  | nil => exact renders_nil
  | cons d ds ih =>
      have htail := (h d (by simp)).renders.append (ih fun d' hd' => h d' (by simp [hd']))
      rw [List.flatMap_cons]
      convert htail using 1
      by_cases hcloses : closes d.comment = true
      · simp [shown, hcloses]
      · simp [shown, hcloses]

theorem shown_append (ds ds' : List Documented) : shown (ds ++ ds') = shown ds ++ shown ds' := by
  simp [shown]

theorem shown_flatMap {α : Type*} (f : α → List Documented) (l : List α) :
    shown (l.flatMap f) = l.flatMap fun a => shown (f a) := by
  induction l with
  | nil => rfl
  | cons a l ih => rw [List.flatMap_cons, List.flatMap_cons, shown_append, ih]

/-- All lines are rendered exactly if all comments close. -/
theorem shown_eq_iff (ds : List Documented) :
    shown ds = ds.map Documented.line ↔ ∀ d ∈ ds, closes d.comment = true := by
  constructor
  · intro heq
    have hlength := congrArg List.length heq
    rw [shown, List.length_map, List.length_map] at hlength
    exact List.length_filter_eq_length_iff.mp hlength
  · intro hall
    rw [shown, List.filter_eq_self.mpr hall]

end CxxComments
