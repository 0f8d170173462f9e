import Waylander.Generator.Dataclasses

/-!
# Parsing a protocol

The functions that turn the elements of a Wayland XML document into the
dataclasses, with the checks in the order in which they are made.
-/

namespace Waylander

open Fallible

/-- An optional attribute that holds an integer. -/
def optionalInt (node : Element) (key : String) : Except PyException (Option ℤ) :=
  match node.get key with
  | none => .ok none
  | some text => do return some (← int 10 text)

def parseWlDescription (node : Element) : Except PyException WlDescription := do
  assertTag "description" node
  let summary ← node.item "summary"
  return { summary := summary, description := node.text }

/-! ## Arguments and entries -/

/-- The only child of an `arg` or an `entry` is its description. -/
def parseOnlyDescription (node : Element) : Except PyException (Option WlDescription) :=
  match node.children with
  | [] => .ok none
  | [child] => do return some (← parseWlDescription child)
  | _ => .error (.runtimeError (node.tag ++ " xml node contained more than one children"))

/-- The chain of comparisons with `type_str`. -/
def parseArgType (typeStr : String) : Except PyException WlArgType :=
  if typeStr = "int" then .ok .wlInt
  else if typeStr = "uint" then .ok .wlUint
  else if typeStr = "fixed" then .ok .wlFixed
  else if typeStr = "string" then .ok .wlString
  else if typeStr = "object" then .ok .wlObject
  else if typeStr = "new_id" then .ok .wlNewId
  else if typeStr = "array" then .ok .wlArray
  else if typeStr = "fd" then .ok .linuxFd
  else .error (.runtimeError "could not parse type of wl_arg")

/-- What goes over the wire in front of a new id whose interface is not known. -/
def newIdPreceedingArgs : List WlArg :=
  [{ name := "new_id_interface"
     argType := .wlString
     summary := some
       "Interface name, e.g. from registry::global event, for following Wnew_id<>."
     interface := none
     allowNull := none
     enum := none
     description := none },
   { name := "new_id_interface_version"
     argType := .wlUint
     summary := some
       "Interface version, e.g. from registry::global event, for following Wnew_id<>."
     interface := none
     allowNull := none
     enum := none
     description := none }]

def parseWlArg (node : Element) : Except PyException (List WlArg) := do
  assertTag "arg" node
  let parsedDesc ← parseOnlyDescription node
  let typeStr ← node.item "type"
  let parsedType ← parseArgType typeStr
  let preceedingArgs :=
    if typeStr = "new_id" ∧ truthy (node.get "interface") = false then newIdPreceedingArgs
    else []
  let allowNullTxt := (node.get "allow-null").getD "false"
  let name ← node.item "name"
  return preceedingArgs ++
    [{ name := name
       argType := parsedType
       summary := node.get "summary"
       interface := node.get "interface"
       allowNull := some (allowNullTxt = "true")
       enum := node.get "enum"
       description := parsedDesc }]

def parseWlEnumEntry (node : Element) : Except PyException WlEnumEntry := do
  assertTag "entry" node
  let parsedDesc ← parseOnlyDescription node
  let parsedSinceVersion ← optionalInt node "since"
  let name ← node.item "name"
  let valueTxt ← node.item "value"
  let value ← int 0 valueTxt
  return {
    name := name
    value := value
    summary := node.get "summary"
    sinceVersion := parsedSinceVersion
    description := parsedDesc }

/-! ## Enumerations and messages -/

/-- A first child with the tag `description`, and the children behind it. -/
def parseTaggedDescription (node : Element) :
    Except PyException (Option WlDescription × List Element) :=
  match node.children with
  | [] => .ok (none, [])
  | child :: rest =>
      if child.tag = "description" then do return (some (← parseWlDescription child), rest)
      else .ok (none, child :: rest)

def parseWlEnum (node : Element) : Except PyException WlEnum := do
  assertTag "enum" node
  let parsedSinceVersion ← optionalInt node "since"
  let (parsedDesc, potentialEntries) ← parseTaggedDescription node
  let parsedEntries ← potentialEntries.mapM parseWlEnumEntry
  let name ← node.item "name"
  return {
    name := name
    sinceVersion := parsedSinceVersion
    isBitfield := (node.get "bitfield").getD "false" = "true"
    description := parsedDesc
    entries := parsedEntries }

/-- The first child of a message, whatever its tag, and the children behind
it. -/
def parseFirstDescription (node : Element) :
    Except PyException (Option WlDescription × List Element) :=
  match node.children with
  | [] => .ok (none, [])
  | child :: rest => do return (some (← parseWlDescription child), rest)

def parseMessage (kind : MessageKind) (node : Element) : Except PyException WlMessage := do
  assertTag kind.tag node
  let parsedSinceVersion ← optionalInt node "since"
  let (parsedDesc, potentialArgs) ← parseFirstDescription node
  let parsedArgs ← potentialArgs.mapM parseWlArg
  let name ← node.item "name"
  return {
    name := name
    messageType := node.get "type"
    sinceVersion := parsedSinceVersion
    description := parsedDesc
    args := parsedArgs.flatten }

def parseWlEvent (node : Element) : Except PyException WlEvent :=
  parseMessage .event node

def parseWlRequest (node : Element) : Except PyException WlRequest :=
  parseMessage .request node

/-! ## Interfaces -/

/-- The local variables of the loop over an interface's children. -/
structure ParsedChildren where
  requests : List WlRequest
  events : List WlEvent
  enums : List WlEnum
  requestOpcodeCounter : ℕ
  eventOpcodeCounter : ℕ
  foundRequestOpcodes : List ℕ
  foundEventOpcodes : List ℕ

def ParsedChildren.empty : ParsedChildren where
  requests := []
  events := []
  enums := []
  requestOpcodeCounter := 0
  eventOpcodeCounter := 0
  foundRequestOpcodes := []
  foundEventOpcodes := []

/-- The body of the loop.  A child with any other tag is ignored. -/
def ParsedChildren.parse (found : ParsedChildren) (child : Element) :
    Except PyException ParsedChildren :=
  if child.tag = "request" then do
    let request ← parseWlRequest child
    return { found with
      requests := found.requests ++ [request]
      foundRequestOpcodes := found.foundRequestOpcodes ++ [found.requestOpcodeCounter]
      requestOpcodeCounter := found.requestOpcodeCounter + 1 }
  else if child.tag = "event" then do
    let event ← parseWlEvent child
    return { found with
      events := found.events ++ [event]
      foundEventOpcodes := found.foundEventOpcodes ++ [found.eventOpcodeCounter]
      eventOpcodeCounter := found.eventOpcodeCounter + 1 }
  else if child.tag = "enum" then do
    let enum ← parseWlEnum child
    return { found with enums := found.enums ++ [enum] }
  else
    return found

def parseWlInterface (node : Element) : Except PyException WlInterface := do
  assertTag "interface" node
  require (1 < node.children.length)
    (.runtimeError "interface xml node contains no children")
  let (parsedDesc, nonDescChildren) ← parseTaggedDescription node
  let found ← nonDescChildren.foldlM ParsedChildren.parse .empty
  let name ← node.item "name"
  let versionTxt ← node.item "version"
  let version ← int 10 versionTxt
  return {
    name := name
    version := version
    description := parsedDesc
    requests := found.requests
    events := found.events
    enums := found.enums
    requestOpcodes := found.foundRequestOpcodes
    eventOpcodes := found.foundEventOpcodes }

/-! ## Protocols -/

/-- The text of a first child with the tag `copyright`. -/
def parseCopyright (node : Element) : Option String :=
  match node.children with
  | [] => none
  | child :: _ => if child.tag = "copyright" then child.text else none

def parseWlProtocol (node : Element) : Except PyException WlProtocol := do
  assertTag "protocol" node
  require (node.children ≠ []) (.runtimeError "protocol xml node contains no children")
  let parsedCopyright := parseCopyright node
  let indexOfDesc := if parsedCopyright.isSome then 1 else 0
  let (parsedDesc, interfaces) ←
    parseTaggedDescription { node with children := node.children.drop indexOfDesc }
  let parsedInterfaces ← interfaces.mapM parseWlInterface
  let protocolName ← node.item "name"
  return {
    name := protocolName
    copyright := parsedCopyright
    description := parsedDesc
    interfaces := parsedInterfaces }

end Waylander
