import Waylander.Generator.Correspondence

/-!
# The structs of an interface

The text that `as_cxx_definitions` writes is a sequence of enumerations and
structs.  Here it is taken apart: a `CxxStruct` is one struct with its opcode
and data members, and its `text` is what declares it in C++.

A data member denotes an argument on the wire by its type, or by the enumeration
that stands for an integer.  The wire signature of a message is read off its XML
arguments; a new id without an interface is sent as a string, a version and the
id.
-/

namespace Waylander

open Fallible ContentModel

/-! ## Declarations -/

/-- The types of data members. -/
inductive CxxType
  | wint
  | wuint
  | wfixed
  | wstring
  | wobject (interface : String)
  | wnewId (interface : String)
  | warray
  | wfd
  | enumeration (path : String)
  deriving DecidableEq

def CxxType.text : CxxType → String
  | wint => "Wint"
  | wuint => "Wuint"
  | wfixed => "Wfixed"
  | wstring => "Wstring"
  | wobject interface => "Wobject<" ++ interface ++ ">"
  | wnewId interface => "Wnew_id<" ++ interface ++ ">"
  | warray => "Warray"
  | wfd => "Wfd"
  | enumeration path => path

/-- What a data member of the type is on the wire. -/
inductive CxxType.Denotes : CxxType → WlArgType → Prop
  | wint : Denotes .wint .wlInt
  | wuint : Denotes .wuint .wlUint
  | wfixed : Denotes .wfixed .wlFixed
  | wstring : Denotes .wstring .wlString
  | wobject (interface : String) : Denotes (.wobject interface) .wlObject
  | wnewId (interface : String) : Denotes (.wnewId interface) .wlNewId
  | warray : Denotes .warray .wlArray
  | wfd : Denotes .wfd .linuxFd

structure CxxMember where
  comment : String
  type : CxxType
  name : String
  deriving DecidableEq

def CxxMember.text (m : CxxMember) : String :=
  m.comment ++ indent 4 ++ m.type.text ++ " " ++ m.name ++ ";\n"

/-- `struct interface::kind::name` -/
structure CxxStruct where
  comment : String
  interface : String
  kind : MessageKind
  name : String
  opcode : ℕ
  members : List CxxMember
  deriving DecidableEq

def CxxStruct.text (s : CxxStruct) : String :=
  s.comment ++ ("struct " ++ s.interface ++ "::" ++ s.kind.tag ++ "::" ++ s.name ++ " \x7b\n") ++
    (cxxOpcodeStaticMember s.interface s.opcode 4 ++ String.join (s.members.map CxxMember.text)) ++
    "\x7d;\n\n"

structure CxxEnumerator where
  comment : String
  name : String
  value : ℤ
  deriving DecidableEq

def CxxEnumerator.text (e : CxxEnumerator) (last : Bool) : String :=
  e.comment ++ indent 4 ++ e.name ++ " = " ++ toString e.value ++ (if last then "" else ",") ++
    "\n"

/-- `enum class interface::name`; `underlying` is `Wint` or `Wuint`. -/
structure CxxEnum where
  comment : String
  interface : String
  name : String
  underlying : CxxType
  enumerators : List CxxEnumerator
  deriving DecidableEq

def CxxEnum.text (e : CxxEnum) : String :=
  e.comment ++
    ("enum class " ++ e.interface ++ "::" ++ e.name ++ " : " ++
      (e.underlying.text ++ "::integral_type") ++ " \x7b\n") ++
    (String.join (e.enumerators.dropLast.map fun enumerator => enumerator.text false) ++
      String.join (e.enumerators.getLast?.toList.map fun last => last.text true)) ++
    "\x7d;\n\n"

/-! ## What the dataclasses are written as -/

def WlArgType.cxxType (type : WlArgType) (interface : Option String) : CxxType :=
  match type with
  | .wlInt => .wint
  | .wlUint => .wuint
  | .wlFixed => .wfixed
  | .wlString => .wstring
  | .wlObject => .wobject (orEmpty interface)
  | .wlNewId => .wnewId (orEmpty interface)
  | .wlArray => .warray
  | .linuxFd => .wfd

theorem WlArgType.cxxType_text (type : WlArgType) (interface : Option String) :
    (type.cxxType interface).text = getCxxWtype type interface := by
  cases type <;> rfl

theorem WlArgType.cxxType_denotes (type : WlArgType) (interface : Option String) :
    (type.cxxType interface).Denotes type := by
  cases type <;> constructor

def WlArg.cxxMember (interface : String) (a : WlArg) : CxxMember where
  comment := memberComment a.summary a.description 4
  type :=
    if truthy a.enum then .enumeration (enumPath interface (a.enum.getD ""))
    else a.argType.cxxType a.interface
  name := a.name

theorem WlArg.cxxMember_text (interface : String) (a : WlArg) :
    (a.cxxMember interface).text = a.asCxxDataMember interface 4 := by
  by_cases henum : truthy a.enum = true
  · simp [cxxMember, CxxMember.text, asCxxDataMember, henum, CxxType.text]
  · simp [cxxMember, CxxMember.text, asCxxDataMember, henum, WlArgType.cxxType_text]

def WlMessage.cxxStruct (kind : MessageKind) (interface : String) (opcode : ℕ) (m : WlMessage) :
    CxxStruct where
  comment := definitionComment m.description 0
  interface := interface
  kind := kind
  name := m.name
  opcode := opcode
  members := m.args.map (WlArg.cxxMember interface)

theorem WlMessage.cxxStruct_text (kind : MessageKind) (interface : String) (opcode : ℕ)
    (m : WlMessage) :
    (m.cxxStruct kind interface opcode).text =
      m.asCxxMemberStructDefinition kind interface opcode := by
  simp [cxxStruct, CxxStruct.text, asCxxMemberStructDefinition, Function.comp_def,
    WlArg.cxxMember_text]

def WlEnumEntry.cxxEnumerator (e : WlEnumEntry) : CxxEnumerator where
  comment := memberComment e.summary e.description 4
  name := "E" ++ e.name
  value := e.value

theorem WlEnumEntry.cxxEnumerator_text (e : WlEnumEntry) (last : Bool) :
    e.cxxEnumerator.text last = e.asCxxEnumClassEntry 4 last := rfl

def WlEnum.cxxEnum (interface : String) (e : WlEnum) : CxxEnum where
  comment := definitionComment e.description 0
  interface := interface
  name := e.name
  underlying := if e.isBitfield then .wuint else .wint
  enumerators := e.entries.map WlEnumEntry.cxxEnumerator

theorem WlEnum.underlyingType_eq (interface : String) (e : WlEnum) :
    (e.cxxEnum interface).underlying.text ++ "::integral_type" = e.underlyingType := by
  by_cases hbitfield : e.isBitfield = true
  · simp [cxxEnum, underlyingType, hbitfield, CxxType.text, getCxxWtype]
  · simp [cxxEnum, underlyingType, hbitfield, CxxType.text, getCxxWtype]

theorem indent_zero : indent 0 = "" := rfl

/-- An enumeration is written if it has entries. -/
theorem WlEnum.asCxxEnumClassDefinition_ok {e : WlEnum} (h : e.entries ≠ [])
    (interface : String) :
    e.asCxxEnumClassDefinition interface 0 = .ok (e.cxxEnum interface).text := by
  rw [CxxEnum.text, underlyingType_eq]
  simp [asCxxEnumClassDefinition, List.getLast?_eq_some_getLast h, cxxEnum, indent_zero,
    ← List.map_dropLast, Function.comp_def, WlEnumEntry.cxxEnumerator_text, String.append_assoc]

/-- The structs of the messages, in the order of their opcodes. -/
def WlInterface.cxxStructs (kind : MessageKind) (i : WlInterface) : List CxxStruct :=
  match kind with
  | .request => (i.requestOpcodes.zip i.requests).map fun (opcode, request) =>
      request.cxxStruct .request i.name opcode
  | .event => (i.eventOpcodes.zip i.events).map fun (opcode, event) =>
      event.cxxStruct .event i.name opcode

def WlInterface.cxxEnums (i : WlInterface) : List CxxEnum :=
  i.enums.map (WlEnum.cxxEnum i.name)

/-- The enumerations and then the structs, requests first. -/
def WlInterface.definitionsText (i : WlInterface) : String :=
  String.join (i.cxxEnums.map CxxEnum.text) ++
    String.join ((i.cxxStructs .request ++ i.cxxStructs .event).map CxxStruct.text)

/-- The definitions are written if no enumeration is empty. -/
theorem WlInterface.asCxxDefinitions_ok {i : WlInterface} (h : ∀ e ∈ i.enums, e.entries ≠ []) :
    i.asCxxDefinitions = .ok i.definitionsText := by
  rw [asCxxDefinitions, bind_eq_ok_iff]
  refine ⟨i.cxxEnums.map CxxEnum.text, ?_, ?_⟩
  · rw [mapM_eq_ok_iff, cxxEnums, List.map_map, List.forall₂_map_right_iff, List.forall₂_same]
    intro e he
    exact WlEnum.asCxxEnumClassDefinition_ok (h e he) i.name
  · rw [pure_eq_ok_iff, definitionsText, List.map_append, String.join_append,
      String.append_assoc]
    simp only [cxxStructs, List.map_map, Function.comp_def, WlMessage.cxxStruct_text,
      WlRequest.asCxxMemberStructDefinition, WlEvent.asCxxMemberStructDefinition]

/-! ## Wire signatures -/

/-- The type that the value of a `type` attribute names. -/
def WlArgType.ofXmlName? (typeStr : String) : Option WlArgType :=
  [wlInt, wlUint, wlFixed, wlString, wlObject, wlNewId, wlArray, linuxFd].find?
    fun t => t.xmlName = typeStr

theorem WlArgType.ofXmlName?_xmlName (t : WlArgType) : ofXmlName? t.xmlName = some t := by
  cases t <;> rfl

/-- What goes over the wire, and the enumeration that its values are taken
from. -/
structure WireArg where
  name : String
  type : WlArgType
  enum : Option String
  deriving DecidableEq

/-- What an XML argument puts on the wire.  An empty `enum` names nothing. -/
def argSignature (node : Element) : List WireArg :=
  let own (type : WlArgType) : WireArg :=
    { name := (node.get "name").getD ""
      type := type
      enum := (node.get "enum").filter (· ≠ "") }
  if UntypedNewId node then
    [⟨"new_id_interface", .wlString, none⟩, ⟨"new_id_interface_version", .wlUint, none⟩,
      own .wlNewId]
  else
    (((node.get "type").bind WlArgType.ofXmlName?).map own).toList

/-- The wire signature of a request or event. -/
def wireSignature (node : Element) : List WireArg :=
  (node.childrenTagged "arg").flatMap argSignature

/-- The data member has the name of the argument and a type of its kind; an
enumeration stands for an integer. -/
def CxxMember.Denotes (interface : String) (m : CxxMember) (arg : WireArg) : Prop :=
  m.name = arg.name ∧
    match arg.enum with
    | none => m.type.Denotes arg.type
    | some enum =>
        m.type = .enumeration (enumPath interface enum) ∧
          (arg.type = .wlInt ∨ arg.type = .wlUint)

/-- `enum` stands on arguments of the types `int` and `uint` only. -/
def EnumOnIntegers (node : Element) : Prop :=
  node.get "enum" ≠ none → node.get "type" = some "int" ∨ node.get "type" = some "uint"

theorem ArgOf.argType_eq {node : Element} {a : WlArg} (h : ArgOf node a) {t : WlArgType}
    (ht : node.get "type" = some t.xmlName) : a.argType = t :=
  WlArgType.xmlName_injective (Option.some.inj (h.type.symm.trans ht))

theorem WlArg.cxxMember_denotes {node : Element} {a : WlArg} (h : ArgOf node a)
    (henum : EnumOnIntegers node) (interface : String) :
    (a.cxxMember interface).Denotes interface
      ⟨a.name, a.argType, (node.get "enum").filter (· ≠ "")⟩ := by
  refine ⟨rfl, ?_⟩
  rw [← h.enum]
  by_cases htruthy : truthy a.enum = true
  · obtain ⟨enum, hsome, hne⟩ := (Option.any_eq_true _ _).mp htruthy
    have hget : node.get "enum" ≠ none := by
      rw [← h.enum, hsome]
      simp
    have hfilter : a.enum.filter (· ≠ "") = some enum := by
      simpa [hsome, Option.filter_some] using hne
    rw [hfilter, cxxMember, if_pos htruthy, hsome]
    exact ⟨rfl, (henum hget).imp h.argType_eq h.argType_eq⟩
  · have hnone : a.enum.filter (· ≠ "") = none := by
      rw [Option.filter_eq_none_iff]
      intro enum hmem hne
      exact htruthy ((Option.any_eq_true _ _).mpr ⟨enum, hmem, hne⟩)
    rw [cxxMember, if_neg htruthy, hnone]
    exact a.argType.cxxType_denotes a.interface

/-- An element's data members denote what it puts on the wire. -/
theorem ArgGroupOf.denotes {node : Element} {group : List WlArg} (h : ArgGroupOf node group)
    (henum : EnumOnIntegers node) (interface : String) :
    List.Forall₂ (CxxMember.Denotes interface) (group.map (WlArg.cxxMember interface))
      (argSignature node) := by
  rcases h with ⟨hnew, ha⟩ | ⟨hnew, ha⟩
  · rename_i a
    have hsignature : argSignature node =
        [⟨a.name, a.argType, (node.get "enum").filter (· ≠ "")⟩] := by
      simp [argSignature, hnew, ha.name, ha.type, WlArgType.ofXmlName?_xmlName]
    rw [hsignature]
    exact .cons (WlArg.cxxMember_denotes ha henum interface) .nil
  · rename_i a
    have hnewId : a.argType = .wlNewId := ha.argType_eq hnew.1
    have hsignature : argSignature node = [⟨"new_id_interface", .wlString, none⟩,
        ⟨"new_id_interface_version", .wlUint, none⟩,
        ⟨a.name, a.argType, (node.get "enum").filter (· ≠ "")⟩] := by
      simp [argSignature, hnew, ha.name, hnewId]
    rw [hsignature]
    exact .cons ⟨rfl, .wstring⟩ (.cons ⟨rfl, .wuint⟩
      (.cons (WlArg.cxxMember_denotes ha henum interface) .nil))

theorem MessageOf.denotes {kind : MessageKind} {node : Element} {m : WlMessage}
    (h : MessageOf kind node m) (henum : ∀ arg ∈ node.childrenTagged "arg", EnumOnIntegers arg)
    (interface : String) :
    List.Forall₂ (CxxMember.Denotes interface) (m.args.map (WlArg.cxxMember interface))
      (wireSignature node) := by
  obtain ⟨groups, hgroups, hargs⟩ := h.groups
  rw [wireSignature, hargs, List.map_flatten, List.flatMap_def]
  apply List.rel_flatten
  rw [List.forall₂_map_left_iff, List.forall₂_map_right_iff]
  have hboth := (List.forall₂_and_left _ _).mpr ⟨henum, hgroups⟩
  exact (hboth.imp fun _ _ ⟨hinteger, hgroup⟩ => hgroup.denotes hinteger interface).flip

/-! ## The structs of an interface -/

/-- The struct declares the request or event `child.1`, the `child.2`-th of its
kind. -/
structure StructOf (kind : MessageKind) (owner : String) (child : Element × ℕ)
    (s : CxxStruct) : Prop where
  kind : s.kind = kind
  interface : s.interface = owner
  name : child.1.get "name" = some s.name
  opcode : s.opcode = child.2
  members : List.Forall₂ (CxxMember.Denotes owner) s.members (wireSignature child.1)

/-- The enumeration declares `child`. -/
structure EnumDefinitionOf (owner : String) (child : Element) (e : CxxEnum) : Prop where
  interface : e.interface = owner
  name : child.get "name" = some e.name

/-- The definitions are one for each enumeration, one struct for each request and
one for each event. -/
structure DefinesChildren (node : Element) (i : WlInterface) : Prop where
  name : node.get "name" = some i.name
  enums : List.Forall₂ (EnumDefinitionOf i.name) (node.childrenTagged "enum") i.cxxEnums
  requests : List.Forall₂ (StructOf .request i.name)
    (node.childrenTagged "request").zipIdx (i.cxxStructs .request)
  events : List.Forall₂ (StructOf .event i.name)
    (node.childrenTagged "event").zipIdx (i.cxxStructs .event)

/-- `enum` stands on integers in all messages of the interface. -/
def MessageEnumsOnIntegers (node : Element) : Prop :=
  ∀ kind : MessageKind, ∀ message ∈ node.childrenTagged kind.tag,
    ∀ arg ∈ message.childrenTagged "arg", EnumOnIntegers arg

theorem forall₂_structOf {kind : MessageKind} {children : List Element} {ms : List WlMessage}
    (h : List.Forall₂ (MessageOf kind) children ms)
    (henum : ∀ message ∈ children, ∀ arg ∈ message.childrenTagged "arg", EnumOnIntegers arg)
    (interface : String) :
    List.Forall₂ (StructOf kind interface) children.zipIdx
      (((List.range ms.length).zip ms).map fun (opcode, m) =>
        m.cxxStruct kind interface opcode) := by
  rw [List.range_eq_range']
  refine forall₂_zipIdx ((List.forall₂_and_left _ _).mpr ⟨henum, h⟩) ?_ 0
  rintro child m opcode ⟨hinteger, hm⟩
  exact ⟨rfl, rfl, hm.name, rfl, hm.denotes hinteger interface⟩

theorem EnumOf.entries_ne_nil {node : Element} {e : WlEnum} (h : EnumOf node e)
    (hentry : ∃ child ∈ node.children, child.tag = "entry") : e.entries ≠ [] := by
  obtain ⟨child, hchild, htag⟩ := hentry
  have hmem : child ∈ node.childrenTagged "entry" := by
    simp [Element.childrenTagged, hchild, htag]
  intro hnil
  have hentries := h.entries
  rw [hnil, List.forall₂_nil_right_iff] at hentries
  rw [hentries] at hmem
  cases hmem

theorem InterfaceOf.definesChildren {node : Element} {i : WlInterface} (h : InterfaceOf node i)
    (henum : MessageEnumsOnIntegers node) : DefinesChildren node i := by
  refine ⟨h.name, ?_, ?_, ?_⟩
  · rw [WlInterface.cxxEnums, List.forall₂_map_right_iff]
    exact h.enums.imp fun _ _ he => ⟨rfl, he.name⟩
  · rw [WlInterface.cxxStructs, h.requestOpcodes]
    exact forall₂_structOf h.requests (henum .request) i.name
  · rw [WlInterface.cxxStructs, h.eventOpcodes]
    exact forall₂_structOf h.events (henum .event) i.name

theorem InterfaceOf.entries_ne_nil {node : Element} {i : WlInterface} (h : InterfaceOf node i)
    (hentries : ∀ enum ∈ node.childrenTagged "enum", ∃ entry ∈ enum.children,
      entry.tag = "entry") : ∀ e ∈ i.enums, e.entries ≠ [] := by
  have hboth := (List.forall₂_and_left _ _).mpr ⟨hentries, h.enums⟩
  have hright := hboth.imp fun _ _ ⟨hentry, he⟩ => And.intro (he.entries_ne_nil hentry) trivial
  exact ((List.forall₂_and_left _ _).mp hright.flip).1

/-! ## Interfaces whose parts are accepted -/

/-- The parsing function returns something. -/
def Accepts {α : Type} (parse : Element → Except PyException α) (node : Element) : Prop :=
  ∃ x, parse node = .ok x

instance {α : Type} (parse : Element → Except PyException α) (node : Element) :
    Decidable (Accepts parse node) :=
  match h : parse node with
  | .ok x => isTrue ⟨x, h⟩
  | .error _ => isFalse fun ⟨_, hx⟩ => by rw [h] at hx; cases hx

def AcceptedMessage : MessageKind → Element → Prop
  | .request => Accepts parseWlRequest
  | .event => Accepts parseWlEvent

/-- Two children or more, each accepted by its parser: an optional description
and then requests, events and enumerations in any order. -/
structure AcceptedChildren (node : Element) : Prop where
  tag : node.tag = "interface"
  name : ∃ name, node.get "name" = some name
  version : ∃ version, IntAttribute node "version" 10 version
  size : 2 ≤ node.children.length
  content : node.children ∈
    interfaceContent (Accepts parseWlDescription) AcceptedMessage (Accepts parseWlEnum)

theorem acceptedMessage_iff {kind : MessageKind} {child : Element} :
    AcceptedMessage kind child ↔
      child.BeginsWithDescription ∧ ∃ m, MessageOf kind child m := by
  have hparse : AcceptedMessage kind child ↔ ∃ m, parseMessage kind child = .ok m := by
    cases kind <;> rfl
  rw [hparse]
  simp only [parseMessage_eq_ok_iff, exists_and_left]

theorem tagsFit_accepts :
    TagsFit (Accepts parseWlDescription) AcceptedMessage (Accepts parseWlEnum) where
  description := by
    rintro child ⟨d, hd⟩
    exact (parseWlDescription_eq_ok_iff.mp hd).tag
  message := by
    intro kind child h
    obtain ⟨-, m, hm⟩ := acceptedMessage_iff.mp h
    exact hm.tag
  enum := by
    rintro child ⟨e, he⟩
    exact (parseWlEnum_eq_ok_iff.mp he).tag

/-- An interface with two children or more is accepted if they are. -/
theorem AcceptedChildren.parse {node : Element} (h : AcceptedChildren node) :
    ∃ i, parseWlInterface node = .ok i := by
  have hbegins : node.MessagesBeginWithDescription := by
    intro kind child hchild
    have haccepted := mem_many.mp (childrenTagged_message h.content tagsFit_accepts kind) child
      hchild
    exact (acceptedMessage_iff.mp haccepted).1
  obtain ⟨i, hi⟩ := exists_interfaceOf h.content tagsFit_accepts h.tag h.name h.version
    (fun _ ⟨d, hd⟩ => ⟨d, parseWlDescription_eq_ok_iff.mp hd⟩)
    (fun _ _ hm => (acceptedMessage_iff.mp hm).2)
    fun _ ⟨e, he⟩ => ⟨e, parseWlEnum_eq_ok_iff.mp he⟩
  exact ⟨i, parseWlInterface_eq_ok_iff.mpr ⟨h.size, hbegins, hi⟩⟩

/-- The generator preserves opcodes and wire signatures. -/
theorem AcceptedChildren.emits {node : Element} (h : AcceptedChildren node)
    (henum : MessageEnumsOnIntegers node)
    (hentries : ∀ enum ∈ node.childrenTagged "enum", ∃ entry ∈ enum.children,
      entry.tag = "entry") :
    ∃ i, parseWlInterface node = .ok i ∧ i.asCxxDefinitions = .ok i.definitionsText ∧
      DefinesChildren node i := by
  obtain ⟨i, hparse⟩ := h.parse
  obtain ⟨-, -, hi⟩ := parseWlInterface_eq_ok_iff.mp hparse
  exact ⟨i, hparse, WlInterface.asCxxDefinitions_ok (hi.entries_ne_nil hentries),
    hi.definesChildren henum⟩

/-- `wl_registry.bind`, whose new id has no interface. -/
def bindRequest : Element :=
  ⟨"request", [("name", "bind")], none, 3,
    [⟨"description", [("summary", "bind an object to the display")], none, 4, []⟩,
     ⟨"arg", [("name", "name"), ("type", "uint")], none, 5, []⟩,
     ⟨"arg", [("name", "id"), ("type", "new_id")], none, 6, []⟩]⟩

def errorEnum (entries : List Element) : Element :=
  ⟨"enum", [("name", "error")], none, 7, entries⟩

def registryInterface (entries : List Element) : Element :=
  ⟨"interface", [("name", "wl_registry"), ("version", "1")], none, 2,
    [bindRequest, errorEnum entries]⟩

theorem acceptedChildren_registryInterface {entries : List Element}
    (h : Accepts parseWlEnum (errorEnum entries)) :
    AcceptedChildren (registryInterface entries) := by
  have hrequest : AcceptedMessage .request bindRequest :=
    show Accepts parseWlRequest bindRequest by decide
  refine ⟨rfl, ⟨_, rfl⟩, ⟨1, _, rfl, by decide⟩, Nat.le_refl 2, ?_⟩
  refine mem_opt_mul.mpr (.inl (mem_many.mpr ?_))
  simpa [registryInterface] using ⟨.inl ⟨_, hrequest⟩, .inr h⟩

theorem messageEnumsOnIntegers_registryInterface (entries : List Element) :
    MessageEnumsOnIntegers (registryInterface entries) := by
  rintro (_ | _)
  · simp [registryInterface, bindRequest, errorEnum, Element.childrenTagged, MessageKind.tag,
      EnumOnIntegers, Element.get]
  · simp [registryInterface, bindRequest, errorEnum, Element.childrenTagged, MessageKind.tag]

theorem emits_registryInterface :
    ∃ i, parseWlInterface (registryInterface
        [⟨"entry", [("name", "none"), ("value", "0")], none, 8, []⟩]) = .ok i ∧
      i.asCxxDefinitions = .ok i.definitionsText ∧
      DefinesChildren (registryInterface
        [⟨"entry", [("name", "none"), ("value", "0")], none, 8, []⟩]) i := by
  refine (acceptedChildren_registryInterface (by decide)).emits
    (messageEnumsOnIntegers_registryInterface _) ?_
  simp [registryInterface, bindRequest, errorEnum, Element.childrenTagged]

example : ((parseWlRequest bindRequest).map fun r =>
      WlRequest.asCxxMemberStructDefinition r "wl_registry" 0) =
    .ok ("/// bind an object to the display\n" ++
      "struct wl_registry::request::bind \x7b\n" ++
      "    static constexpr Wopcode<wl_registry> opcode\x7b 0 \x7d;\n" ++
      "    Wuint name;\n" ++
      "    /// Interface name, e.g. from registry::global event, for following Wnew_id<>.\n" ++
      "    Wstring new_id_interface;\n" ++
      "    /// Interface version, e.g. from registry::global event, for following Wnew_id<>.\n" ++
      "    Wuint new_id_interface_version;\n" ++
      "    Wnew_id<> id;\n" ++
      "\x7d;\n\n") := by
  decide +kernel

/-- Nothing is written for an interface with an enumeration that has no
entries, although each of its children is accepted. -/
theorem not_emits_registryInterface :
    AcceptedChildren (registryInterface []) ∧ MessageEnumsOnIntegers (registryInterface []) ∧
      ¬∃ i, parseWlInterface (registryInterface []) = .ok i ∧
        i.asCxxDefinitions = .ok i.definitionsText ∧ DefinesChildren (registryInterface []) i := by
  refine ⟨acceptedChildren_registryInterface (by decide),
    messageEnumsOnIntegers_registryInterface [], ?_⟩
  rintro ⟨i, hparse, htext, -⟩
  have herror : (parseWlInterface (registryInterface []) >>= fun i => i.asCxxDefinitions) =
      .error (.runtimeError "wl_enum error has no entries!") := by decide
  rw [bind_eq_ok_iff.mpr ⟨i, hparse, htext⟩] at herror
  cases herror

end Waylander
