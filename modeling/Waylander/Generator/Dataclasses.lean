import Waylander.Generator.Xml

/-!
# The generator's dataclasses

What the generator keeps of a protocol, and the C++ text that it writes for the
definitions of an interface.  A comment is the `description` of its owner, or
else its `summary`.

`wl_request` and `wl_event` have the same fields and differ in one word of the
text, so both are `WlMessage`.
-/

namespace Waylander

open Fallible

inductive WlArgType
  | wlInt
  | wlUint
  | wlFixed
  | wlString
  | wlObject
  | wlNewId
  | wlArray
  | linuxFd
  deriving DecidableEq

/-- `interface if interface else ''` -/
def orEmpty (interface : Option String) : String :=
  if truthy interface then interface.getD "" else ""

def getCxxWtype (type : WlArgType) (interface : Option String) : String :=
  match type with
  | .wlInt => "Wint"
  | .wlUint => "Wuint"
  | .wlFixed => "Wfixed"
  | .wlString => "Wstring"
  | .wlObject => "Wobject<" ++ orEmpty interface ++ ">"
  | .wlNewId => "Wnew_id<" ++ orEmpty interface ++ ">"
  | .wlArray => "Warray"
  | .linuxFd => "Wfd"

/-- `' ' * indent_in_spaces` -/
def indent (spaces : ℕ) : String :=
  String.ofList (List.replicate spaces ' ')

/-! ## Descriptions -/

structure WlDescription where
  summary : String
  description : Option String
  deriving DecidableEq

def WlDescription.asSphinxComment (d : WlDescription) (summaryPrefix : String)
    (indentInSpaces : ℕ) : String :=
  let header := indent indentInSpaces ++ "/// " ++ summaryPrefix ++ d.summary ++ "\n"
  match d.description with
  | none => header
  | some text =>
      if text = "" then header
      else
        header ++ (indent indentInSpaces ++ "///\n") ++
          commentify text (indent indentInSpaces ++ "///")

/-- The comment above an argument or an entry. -/
def memberComment (summary : Option String) (description : Option WlDescription)
    (indentInSpaces : ℕ) : String :=
  match description with
  | some d => d.asSphinxComment "" indentInSpaces ++ "\n"
  | none =>
      if truthy summary then indent indentInSpaces ++ "/// " ++ summary.getD "" ++ "\n" else ""

/-- The comment above a definition. -/
def definitionComment (description : Option WlDescription) (indentInSpaces : ℕ) : String :=
  match description with
  | some d => d.asSphinxComment "" indentInSpaces
  | none => ""

/-! ## Arguments -/

structure WlArg where
  name : String
  argType : WlArgType
  summary : Option String
  interface : Option String
  allowNull : Option Bool
  enum : Option String
  description : Option WlDescription
  deriving DecidableEq

/-- The type that an `enum` attribute names: `[interface.]enum`. -/
def enumPath (interface enum : String) : String :=
  if '.' ∈ enum.toList then replaceDots enum else interface ++ "::" ++ enum

def WlArg.asCxxDataMember (a : WlArg) (interface : String) (indentInSpaces : ℕ) : String :=
  let cxxType :=
    if truthy a.enum then enumPath interface (a.enum.getD "")
    else getCxxWtype a.argType a.interface
  memberComment a.summary a.description indentInSpaces ++
    indent indentInSpaces ++ cxxType ++ " " ++ a.name ++ ";\n"

/-! ## Enumerations -/

structure WlEnumEntry where
  name : String
  value : ℤ
  summary : Option String
  sinceVersion : Option ℤ
  description : Option WlDescription
  deriving DecidableEq

def WlEnumEntry.asCxxEnumClassEntry (e : WlEnumEntry) (indentInSpaces : ℕ) (last : Bool) :
    String :=
  memberComment e.summary e.description indentInSpaces ++ indent indentInSpaces ++
    ("E" ++ e.name) ++ " = " ++ toString e.value ++ (if last then "" else ",") ++ "\n"

structure WlEnum where
  name : String
  sinceVersion : Option ℤ
  isBitfield : Bool
  description : Option WlDescription
  entries : List WlEnumEntry
  deriving DecidableEq

def WlEnum.underlyingType (e : WlEnum) : String :=
  getCxxWtype (if e.isBitfield then .wlUint else .wlInt) none ++ "::integral_type"

def WlEnum.asCxxEnumClassDefinition (e : WlEnum) (interface : String) (indentInSpaces : ℕ) :
    Except PyException String :=
  let header := indent indentInSpaces ++ "enum class " ++ interface ++ "::" ++ e.name ++ " : " ++
    e.underlyingType ++ " \x7b\n"
  match e.entries.getLast? with
  | none => .error (.runtimeError ("wl_enum " ++ e.name ++ " has no entries!"))
  | some last =>
      let body := String.join (e.entries.dropLast.map fun entry =>
          entry.asCxxEnumClassEntry (4 + indentInSpaces) false) ++
        last.asCxxEnumClassEntry (4 + indentInSpaces) true
      .ok (definitionComment e.description indentInSpaces ++ header ++ body ++
        (indent indentInSpaces ++ "\x7d;\n\n"))

/-! ## Messages -/

inductive MessageKind
  | request
  | event
  deriving DecidableEq

/-- The tag of the element, and the member of the C++ interface. -/
def MessageKind.tag : MessageKind → String
  | request => "request"
  | event => "event"

def cxxOpcodeStaticMember (interface : String) (opcode indentInSpaces : ℕ) : String :=
  indent indentInSpaces ++ "static constexpr Wopcode<" ++ interface ++ "> opcode\x7b " ++
    toString opcode ++ " \x7d;\n"

/-- `wl_request` or `wl_event`; `messageType` is its `request_type` or
`event_type`. -/
structure WlMessage where
  name : String
  messageType : Option String
  sinceVersion : Option ℤ
  description : Option WlDescription
  args : List WlArg
  deriving DecidableEq

abbrev WlRequest := WlMessage

abbrev WlEvent := WlMessage

def WlMessage.asCxxMemberStructDefinition (kind : MessageKind) (m : WlMessage)
    (interface : String) (opcode : ℕ) : String :=
  let header := "struct " ++ interface ++ "::" ++ kind.tag ++ "::" ++ m.name ++ " \x7b\n"
  let body := cxxOpcodeStaticMember interface opcode 4 ++
    String.join (m.args.map fun arg => arg.asCxxDataMember interface 4)
  definitionComment m.description 0 ++ header ++ body ++ "\x7d;\n\n"

def WlRequest.asCxxMemberStructDefinition (r : WlRequest) (interface : String) (opcode : ℕ) :
    String :=
  WlMessage.asCxxMemberStructDefinition .request r interface opcode

def WlEvent.asCxxMemberStructDefinition (e : WlEvent) (interface : String) (opcode : ℕ) :
    String :=
  WlMessage.asCxxMemberStructDefinition .event e interface opcode

/-! ## Interfaces and protocols -/

structure WlInterface where
  name : String
  version : ℤ
  description : Option WlDescription
  requests : List WlRequest
  events : List WlEvent
  enums : List WlEnum
  requestOpcodes : List ℕ
  eventOpcodes : List ℕ
  deriving DecidableEq

def WlInterface.asCxxDefinitions (i : WlInterface) : Except PyException String := do
  let enums ← i.enums.mapM fun enum => enum.asCxxEnumClassDefinition i.name 0
  let requests := (i.requestOpcodes.zip i.requests).map fun (opcode, request) =>
    WlRequest.asCxxMemberStructDefinition request i.name opcode
  let events := (i.eventOpcodes.zip i.events).map fun (opcode, event) =>
    WlEvent.asCxxMemberStructDefinition event i.name opcode
  return String.join enums ++ String.join requests ++ String.join events

structure WlProtocol where
  name : String
  copyright : Option String
  description : Option WlDescription
  interfaces : List WlInterface
  deriving DecidableEq

end Waylander
