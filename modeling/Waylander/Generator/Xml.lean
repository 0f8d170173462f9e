import Mathlib.Data.Nat.Init
import Mathlib.Order.Nat
import Waylander.Support.Fallible

/-!
# What the generator takes from Python and lxml

Text functions, integer literals, exceptions and elements, as far as the
generator uses them.  `int` accepts every decimal digit of Unicode and ignores
white space around the number, as Python's does, but it has no limit on the length
of the number.  From version 3.11 on, Python refuses more than 4300 decimal digits,
unless the interpreter is told otherwise.
-/

namespace Waylander

open Fallible

/-! ## Text -/

/-- `str.isspace` of one character. -/
def isSpace (c : Char) : Bool :=
  let n := c.toNat
  (9 ≤ n && n ≤ 13) || (28 ≤ n && n ≤ 32) || n == 0x85 || n == 0xa0 || n == 0x1680 ||
    (0x2000 ≤ n && n ≤ 0x200a) || n == 0x2028 || n == 0x2029 || n == 0x202f ||
    n == 0x205f || n == 0x3000

/-- `str.lstrip` -/
def lstrip (s : String) : String :=
  String.ofList (s.toList.dropWhile isSpace)

/-- `s.split("\n")` -/
def splitLines (s : String) : List String :=
  (s.toList.splitOn '\n').map String.ofList

/-- `s.replace(".", "::")` -/
def replaceDots (s : String) : String :=
  String.ofList (s.toList.flatMap fun c => if c = '.' then [':', ':'] else [c])

/-- The truth value of an `Optional[str]`. -/
def truthy (s : Option String) : Bool :=
  s.any (· ≠ "")

/-- `symbol` begins each line of `s`; a blank first or last line is left out. -/
def commentify (s : String) (commentSymbol : String) : String :=
  let lines := splitLines s
  let skipFirst := if lstrip (lines.headD "") = "" then 1 else 0
  let skipLast := if lstrip (lines.getLastD "") = "" then 1 else 0
  String.join (((lines.take (lines.length - skipLast)).drop skipFirst).map fun line =>
    let strippedLine := lstrip line
    commentSymbol ++ (if strippedLine = "" then "" else " " ++ strippedLine) ++ "\n")

/-! ## Exceptions -/

inductive PyException
  | assertionError (msg : String)
  | runtimeError (msg : String)
  | keyError (key : String)
  /-- `invalid literal for int() with base ...` -/
  | valueError (base : ℕ) (literal : String)
  deriving DecidableEq

/-! ## Integer literals -/

/-- The first of each ten consecutive decimal digits. -/
def decimalZeros : List ℕ :=
  [0x30, 0x660, 0x6f0, 0x7c0, 0x966, 0x9e6, 0xa66, 0xae6, 0xb66, 0xbe6, 0xc66, 0xce6, 0xd66,
    0xde6, 0xe50, 0xed0, 0xf20, 0x1040, 0x1090, 0x17e0, 0x1810, 0x1946, 0x19d0, 0x1a80,
    0x1a90, 0x1b50, 0x1bb0, 0x1c40, 0x1c50, 0xa620, 0xa8d0, 0xa900, 0xa9d0, 0xa9f0, 0xaa50,
    0xabf0, 0xff10, 0x104a0, 0x10d30, 0x11066, 0x110f0, 0x11136, 0x111d0, 0x112f0, 0x11450,
    0x114d0, 0x11650, 0x116c0, 0x11730, 0x118e0, 0x11950, 0x11c50, 0x11d50, 0x11da0, 0x16a60,
    0x16ac0, 0x16b50, 0x1d7ce, 0x1d7d8, 0x1d7e2, 0x1d7ec, 0x1d7f6, 0x1e140, 0x1e2f0, 0x1e950,
    0x1fbf0]

def decimalValue (c : Char) : Option ℕ :=
  (decimalZeros.find? fun start => start ≤ c.toNat && c.toNat < start + 10).map (c.toNat - ·)

/-- The value of a digit in a base up to 36. -/
def digitValue (c : Char) : Option ℕ :=
  if 'a' ≤ c ∧ c ≤ 'z' then some (c.toNat - 'a'.toNat + 10)
  else if 'A' ≤ c ∧ c ≤ 'Z' then some (c.toNat - 'A'.toNat + 10)
  else decimalValue c

/-- Digits with single underscores between them.  `afterDigit` says whether one
has been read, `acc` is the value of those read. -/
def readDigits (base : ℕ) (afterDigit : Bool) (acc : ℕ) : List Char → Option ℕ
  | [] => if afterDigit then some acc else none
  | '_' :: cs => if afterDigit then readDigits base false acc cs else none
  | c :: cs =>
      match digitValue c with
      | some d => if d < base then readDigits base true (acc * base + d) cs else none
      | none => none

/-- The base that follows a leading zero. -/
def prefixBase (c : Char) : Option ℕ :=
  if c = 'x' ∨ c = 'X' then some 16
  else if c = 'o' ∨ c = 'O' then some 8
  else if c = 'b' ∨ c = 'B' then some 2
  else none

/-- One underscore may stand between the base and the digits. -/
def skipUnderscore : List Char → List Char
  | '_' :: cs => cs
  | cs => cs

/-- A number without a sign.  In base 0 the number says its base; a decimal
number that begins with a zero is then zero. -/
def readNumber (base : ℕ) (cs : List Char) : Option ℕ :=
  if base ≠ 0 then readDigits base false 0 cs
  else if cs.head?.bind decimalValue ≠ some 0 then readDigits 10 false 0 cs
  else
    match (cs.drop 1).head?.bind prefixBase with
    | some base => readDigits base false 0 (skipUnderscore (cs.drop 2))
    | none => (readDigits 10 false 0 cs).filter (· = 0)

/-- `int(s, base)` for the two bases in use, 10 and 0. -/
def int (base : ℕ) (s : String) : Except PyException ℤ :=
  let cs := ((s.toList.dropWhile isSpace).reverse.dropWhile isSpace).reverse
  let value : Option ℤ :=
    match cs with
    | '-' :: digits => (readNumber base digits).map fun n => -(n : ℤ)
    | '+' :: digits => (readNumber base digits).map fun n => (n : ℤ)
    | digits => (readNumber base digits).map fun n => (n : ℤ)
  match value with
  | some n => .ok n
  | none => .error (.valueError base s)

example : int 0 " -0x1_F" = .ok (-31) := by decide

example : int 0 "010" = .error (.valueError 0 "010") := by decide

/-! ## Elements -/

/-- An element of the tree after `remove_comment_nodes`. -/
structure Element where
  tag : String
  attrib : List (String × String)
  text : Option String
  sourceline : ℕ
  children : List Element

/-- `node.attrib.get(key)` -/
def Element.get (node : Element) (key : String) : Option String :=
  node.attrib.lookup key

/-- `node.attrib[key]` -/
def Element.item (node : Element) (key : String) : Except PyException String :=
  match node.get key with
  | some value => .ok value
  | none => .error (.keyError key)

@[simp] theorem Element.item_eq_ok_iff {node : Element} {key value : String} :
    node.item key = .ok value ↔ node.get key = some value := by
  rw [item]
  split
  · rename_i v hv
    rw [hv, Except.ok.injEq, Option.some.injEq]
  · rename_i hnone
    simp [hnone]

/-- The children with the given tag, in document order. -/
def Element.childrenTagged (node : Element) (tag : String) : List Element :=
  node.children.filter fun child => child.tag = tag

/-- `assert tag == node.tag` -/
def assertTag (tag : String) (node : Element) : Except PyException Unit :=
  require (node.tag = tag) (.assertionError ("Expected " ++ tag ++ " node, got " ++ node.tag ++
    " at line number: " ++ toString node.sourceline))

@[simp] theorem assertTag_eq_ok_iff {tag : String} {node : Element} {u : Unit} :
    assertTag tag node = .ok u ↔ node.tag = tag :=
  require_eq_ok_iff

end Waylander
