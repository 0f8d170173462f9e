import Waylander.Generator.Parse
import Waylander.Support.ContentModel

/-!
# Elements and what they are parsed into

For each dataclass, when a value of it corresponds to an element: attribute by
attribute, and child by child in document order.  An argument corresponds to
itself, behind its two companions if it is a new id without an interface.

Each parsing function returns exactly the value that corresponds to the element,
if there is one.  Three functions ask for more: a message's first child has to
be a description, an interface has to have two children, and a copyright has to
have a text.
-/

namespace Waylander

open Fallible ContentModel

/-! ## Attributes -/

/-- The attribute is there and holds the integer. -/
def IntAttribute (node : Element) (key : String) (base : ℕ) (value : ℤ) : Prop :=
  ∃ text, node.get key = some text ∧ int base text = .ok value

/-- If the attribute is there, it holds the integer. -/
def OptionalIntAttribute (node : Element) (key : String) : Option ℤ → Prop
  | none => node.get key = none
  | some value => IntAttribute node key 10 value

theorem optionalInt_eq_ok_iff {node : Element} {key : String} {value : Option ℤ} :
    optionalInt node key = .ok value ↔ OptionalIntAttribute node key value := by
  rw [optionalInt]
  split
  · rename_i hnone
    cases value with
    | none => simpa [OptionalIntAttribute] using hnone
    | some value => simp [OptionalIntAttribute, IntAttribute, hnone]
  · rename_i text htext
    rw [bind_eq_ok_iff]
    cases value with
    | none => simp [OptionalIntAttribute, htext]
    | some value => simp [OptionalIntAttribute, IntAttribute, htext]

/-- The value of the `type` attribute. -/
def WlArgType.xmlName : WlArgType → String
  | wlInt => "int"
  | wlUint => "uint"
  | wlFixed => "fixed"
  | wlString => "string"
  | wlObject => "object"
  | wlNewId => "new_id"
  | wlArray => "array"
  | linuxFd => "fd"

theorem parseArgType_xmlName (t : WlArgType) : parseArgType t.xmlName = .ok t := by
  cases t <;> rfl

theorem WlArgType.xmlName_injective : Function.Injective xmlName := by
  intro t t' h
  have hparse := parseArgType_xmlName t
  rw [h, parseArgType_xmlName] at hparse
  exact (Except.ok.inj hparse).symm

theorem parseArgType_eq_ok_iff {typeStr : String} {t : WlArgType} :
    parseArgType typeStr = .ok t ↔ typeStr = t.xmlName := by
  constructor
  · intro h
    simp only [parseArgType] at h
    split_ifs at h with h₁ h₂ h₃ h₄ h₅ h₆ h₇ h₈
    all_goals
      obtain rfl := Except.ok.inj h
      assumption
  · rintro rfl
    exact parseArgType_xmlName t

/-! ## Descriptions -/

structure DescriptionOf (node : Element) (d : WlDescription) : Prop where
  tag : node.tag = "description"
  summary : node.get "summary" = some d.summary
  text : d.description = node.text

/-- The description is the optional first child; `rest` are the other
children. -/
abbrev LeadingDescription : List Element → Option WlDescription → List Element → Prop :=
  Leading (fun child => child.tag = "description") DescriptionOf

section LeadingDescription

variable {child : Element} {others rest : List Element} {o : Option WlDescription}

theorem leadingDescription_nil : LeadingDescription [] o rest ↔ o = none ∧ rest = [] :=
  leading_nil

theorem leadingDescription_of_tag (h : child.tag = "description") :
    LeadingDescription (child :: others) o rest ↔
      ∃ d, DescriptionOf child d ∧ o = some d ∧ rest = others :=
  leading_cons_of_pos h

theorem leadingDescription_of_tag_ne (h : child.tag ≠ "description") :
    LeadingDescription (child :: others) o rest ↔ o = none ∧ rest = child :: others :=
  leading_cons_of_neg h

end LeadingDescription

theorem parseWlDescription_eq_ok_iff {node : Element} {d : WlDescription} :
    parseWlDescription node = .ok d ↔ DescriptionOf node d := by
  simp only [parseWlDescription, bind_eq_ok_iff, assertTag_eq_ok_iff, Element.item_eq_ok_iff,
    pure_eq_ok_iff]
  constructor
  · rintro ⟨-, htag, summary, hsummary, rfl⟩
    exact ⟨htag, hsummary, rfl⟩
  · rintro ⟨htag, hsummary, htext⟩
    exact ⟨(), htag, d.summary, hsummary, by rw [← htext]⟩

theorem parseTaggedDescription_eq_ok_iff {node : Element} {o : Option WlDescription}
    {rest : List Element} :
    parseTaggedDescription node = .ok (o, rest) ↔ LeadingDescription node.children o rest := by
  rw [parseTaggedDescription]
  split
  · rename_i hnil
    rw [hnil, leadingDescription_nil, Except.ok.injEq, Prod.mk.injEq, eq_comm, eq_comm (a := rest)]
  · rename_i child others hcons
    rw [hcons]
    by_cases htag : child.tag = "description"
    · rw [if_pos htag, leadingDescription_of_tag htag, bind_eq_ok_iff]
      simp [parseWlDescription_eq_ok_iff, eq_comm (a := o), eq_comm (a := rest)]
    · rw [if_neg htag, leadingDescription_of_tag_ne htag]
      simp [eq_comm]

/-- An only child is read as a first child that has to be a description. -/
theorem parseOnlyDescription_eq_ok_iff {node : Element} {o : Option WlDescription} :
    parseOnlyDescription node = .ok o ↔ LeadingDescription node.children o [] := by
  rw [parseOnlyDescription]
  split
  · rename_i hnil
    rw [hnil, leadingDescription_nil, Except.ok.injEq, eq_comm, and_iff_left rfl]
  · rename_i child hchild
    rw [hchild, bind_eq_ok_iff]
    by_cases htag : child.tag = "description"
    · rw [leadingDescription_of_tag htag]
      simp [parseWlDescription_eq_ok_iff, eq_comm (a := o)]
    · rw [leadingDescription_of_tag_ne htag]
      constructor
      · rintro ⟨d, hd, -⟩
        exact absurd (parseWlDescription_eq_ok_iff.mp hd).tag htag
      · rintro ⟨-, hnil⟩
        cases hnil
  · rename_i hnil hone
    constructor
    · intro h
      cases h
    · intro h
      generalize hchildren : node.children = children at h
      rcases h with - | -
      · exact absurd hchildren hnil
      · exact absurd hchildren (hone _)

/-- The first child, if there is one, is a description. -/
def Element.BeginsWithDescription (node : Element) : Prop :=
  ∀ child ∈ node.children.head?, child.tag = "description"

theorem parseFirstDescription_eq_ok_iff {node : Element} {o : Option WlDescription}
    {rest : List Element} :
    parseFirstDescription node = .ok (o, rest) ↔
      node.BeginsWithDescription ∧ LeadingDescription node.children o rest := by
  rw [parseFirstDescription, Element.BeginsWithDescription]
  split
  · rename_i hnil
    simp [hnil, leadingDescription_nil, eq_comm]
  · rename_i child others hcons
    rw [hcons, bind_eq_ok_iff]
    by_cases htag : child.tag = "description"
    · rw [leadingDescription_of_tag htag]
      simp [parseWlDescription_eq_ok_iff, htag, eq_comm (a := o), eq_comm (a := rest)]
    · constructor
      · rintro ⟨d, hd, -⟩
        exact absurd (parseWlDescription_eq_ok_iff.mp hd).tag htag
      · rintro ⟨hbegins, -⟩
        exact absurd (hbegins child rfl) htag

/-! ## Arguments and entries -/

structure ArgOf (node : Element) (a : WlArg) : Prop where
  tag : node.tag = "arg"
  name : node.get "name" = some a.name
  type : node.get "type" = some a.argType.xmlName
  summary : a.summary = node.get "summary"
  interface : a.interface = node.get "interface"
  allowNull : a.allowNull = some (decide (node.get "allow-null" = some "true"))
  enum : a.enum = node.get "enum"
  description : LeadingDescription node.children a.description []

/-- A new id whose interface is not known. -/
def UntypedNewId (node : Element) : Prop :=
  node.get "type" = some "new_id" ∧ truthy (node.get "interface") = false

instance (node : Element) : Decidable (UntypedNewId node) :=
  inferInstanceAs (Decidable (_ ∧ _))

/-- The arguments that one element stands for. -/
inductive ArgGroupOf (node : Element) : List WlArg → Prop
  | plain {a : WlArg} (hnew : ¬UntypedNewId node) (h : ArgOf node a) : ArgGroupOf node [a]
  | untyped {a : WlArg} (hnew : UntypedNewId node) (h : ArgOf node a) :
      ArgGroupOf node (newIdPreceedingArgs ++ [a])

theorem ArgGroupOf.tag {node : Element} {group : List WlArg} (h : ArgGroupOf node group) :
    node.tag = "arg" := by
  rcases h with ⟨-, ha⟩ | ⟨-, ha⟩
  · exact ha.tag
  · exact ha.tag

theorem argGroupOf_iff {node : Element} {group : List WlArg} :
    ArgGroupOf node group ↔
      ∃ a, ArgOf node a ∧
        (if UntypedNewId node then newIdPreceedingArgs else []) ++ [a] = group := by
  constructor
  · rintro (⟨hnew, ha⟩ | ⟨hnew, ha⟩)
    · exact ⟨_, ha, by rw [if_neg hnew, List.nil_append]⟩
    · exact ⟨_, ha, by rw [if_pos hnew]⟩
  · rintro ⟨a, ha, rfl⟩
    by_cases hnew : UntypedNewId node
    · rw [if_pos hnew]
      exact .untyped hnew ha
    · rw [if_neg hnew]
      exact .plain hnew ha

theorem getD_false_eq_true_iff {o : Option String} : o.getD "false" = "true" ↔ o = some "true" := by
  cases o with
  | none => simp
  | some text => simp

theorem parseWlArg_eq_ok_iff {node : Element} {group : List WlArg} :
    parseWlArg node = .ok group ↔ ArgGroupOf node group := by
  simp only [parseWlArg, bind_eq_ok_iff, assertTag_eq_ok_iff, Element.item_eq_ok_iff,
    parseOnlyDescription_eq_ok_iff, parseArgType_eq_ok_iff, pure_eq_ok_iff, argGroupOf_iff,
    getD_false_eq_true_iff]
  constructor
  · rintro ⟨-, htag, description, hdescription, _, htype, t, rfl, name, hname, rfl⟩
    refine ⟨⟨name, t, node.get "summary", node.get "interface",
      some (decide (node.get "allow-null" = some "true")), node.get "enum", description⟩,
      ⟨htag, hname, htype, rfl, rfl, rfl, rfl, hdescription⟩, ?_⟩
    simp only [UntypedNewId, htype, Option.some.injEq]
  · rintro ⟨a, ha, rfl⟩
    refine ⟨(), ha.tag, a.description, ha.description, _, ha.type, _, rfl, a.name, ha.name, ?_⟩
    simp only [UntypedNewId, ha.type, Option.some.injEq, ← ha.summary, ← ha.interface,
      ← ha.allowNull, ← ha.enum]

structure EnumEntryOf (node : Element) (e : WlEnumEntry) : Prop where
  tag : node.tag = "entry"
  name : node.get "name" = some e.name
  value : IntAttribute node "value" 0 e.value
  summary : e.summary = node.get "summary"
  sinceVersion : OptionalIntAttribute node "since" e.sinceVersion
  description : LeadingDescription node.children e.description []

theorem parseWlEnumEntry_eq_ok_iff {node : Element} {e : WlEnumEntry} :
    parseWlEnumEntry node = .ok e ↔ EnumEntryOf node e := by
  simp only [parseWlEnumEntry, bind_eq_ok_iff, assertTag_eq_ok_iff, Element.item_eq_ok_iff,
    parseOnlyDescription_eq_ok_iff, optionalInt_eq_ok_iff, pure_eq_ok_iff]
  constructor
  · rintro ⟨-, htag, description, hdescription, since, hsince, name, hname, text, htext, value,
      hvalue, rfl⟩
    exact ⟨htag, hname, ⟨text, htext, hvalue⟩, rfl, hsince, hdescription⟩
  · rintro ⟨htag, hname, ⟨text, htext, hvalue⟩, hsummary, hsince, hdescription⟩
    exact ⟨(), htag, e.description, hdescription, e.sinceVersion, hsince, e.name, hname, text,
      htext, e.value, hvalue, by rw [← hsummary]⟩

/-! ## Enumerations and messages -/

structure EnumOf (node : Element) (e : WlEnum) : Prop where
  tag : node.tag = "enum"
  name : node.get "name" = some e.name
  sinceVersion : OptionalIntAttribute node "since" e.sinceVersion
  isBitfield : e.isBitfield = decide (node.get "bitfield" = some "true")
  content : ∃ rest, LeadingDescription node.children e.description rest ∧
    List.Forall₂ EnumEntryOf rest e.entries

theorem parseWlEnum_eq_ok_iff {node : Element} {e : WlEnum} :
    parseWlEnum node = .ok e ↔ EnumOf node e := by
  simp only [parseWlEnum, bind_eq_ok_iff, assertTag_eq_ok_iff, Element.item_eq_ok_iff,
    optionalInt_eq_ok_iff, Prod.exists, parseTaggedDescription_eq_ok_iff, mapM_eq_ok_iff,
    parseWlEnumEntry_eq_ok_iff, pure_eq_ok_iff, getD_false_eq_true_iff]
  constructor
  · rintro ⟨-, htag, since, hsince, description, rest, hleading, entries, hentries, name, hname,
      rfl⟩
    exact ⟨htag, hname, hsince, rfl, rest, hleading, hentries⟩
  · rintro ⟨htag, hname, hsince, hbitfield, rest, hleading, hentries⟩
    exact ⟨(), htag, e.sinceVersion, hsince, e.description, rest, hleading, e.entries, hentries,
      e.name, hname, by rw [← hbitfield]⟩

/-- The arguments of `m` are those of the elements, group after group. -/
structure MessageOf (kind : MessageKind) (node : Element) (m : WlMessage) : Prop where
  tag : node.tag = kind.tag
  name : node.get "name" = some m.name
  messageType : m.messageType = node.get "type"
  sinceVersion : OptionalIntAttribute node "since" m.sinceVersion
  content : ∃ rest groups, LeadingDescription node.children m.description rest ∧
    List.Forall₂ ArgGroupOf rest groups ∧ m.args = groups.flatten

theorem parseMessage_eq_ok_iff {kind : MessageKind} {node : Element} {m : WlMessage} :
    parseMessage kind node = .ok m ↔ node.BeginsWithDescription ∧ MessageOf kind node m := by
  simp only [parseMessage, bind_eq_ok_iff, assertTag_eq_ok_iff, Element.item_eq_ok_iff,
    optionalInt_eq_ok_iff, Prod.exists, parseFirstDescription_eq_ok_iff, mapM_eq_ok_iff,
    parseWlArg_eq_ok_iff, pure_eq_ok_iff]
  constructor
  · rintro ⟨-, htag, since, hsince, description, rest, ⟨hbegins, hleading⟩, groups, hgroups, name,
      hname, rfl⟩
    exact ⟨hbegins, htag, hname, rfl, hsince, rest, groups, hleading, hgroups, rfl⟩
  · rintro ⟨hbegins, htag, hname, htype, hsince, rest, groups, hleading, hgroups, hargs⟩
    exact ⟨(), htag, m.sinceVersion, hsince, m.description, rest, ⟨hbegins, hleading⟩, groups,
      hgroups, m.name, hname, by rw [← htype, ← hargs]⟩

/-! ## Interfaces -/

/-- The variables of the loop after more children have been parsed into these
values.  The opcodes found go on from the counters. -/
def ParsedChildren.append (found : ParsedChildren) (requests : List WlRequest)
    (events : List WlEvent) (enums : List WlEnum) : ParsedChildren where
  requests := found.requests ++ requests
  events := found.events ++ events
  enums := found.enums ++ enums
  requestOpcodeCounter := found.requestOpcodeCounter + requests.length
  eventOpcodeCounter := found.eventOpcodeCounter + events.length
  foundRequestOpcodes :=
    found.foundRequestOpcodes ++ List.range' found.requestOpcodeCounter requests.length
  foundEventOpcodes :=
    found.foundEventOpcodes ++ List.range' found.eventOpcodeCounter events.length

@[simp] theorem ParsedChildren.append_nil (found : ParsedChildren) :
    found.append [] [] [] = found := by
  simp [append]

theorem ParsedChildren.append_append (found : ParsedChildren) (requests requests' : List WlRequest)
    (events events' : List WlEvent) (enums enums' : List WlEnum) :
    (found.append requests events enums).append requests' events' enums' =
      found.append (requests ++ requests') (events ++ events') (enums ++ enums') := by
  simp [append, Nat.add_assoc, List.range'_append_1]

/-- The children with each of the three tags are parsed into these values. -/
def Collects (children : List Element) (requests : List WlRequest) (events : List WlEvent)
    (enums : List WlEnum) : Prop :=
  List.Forall₂ (fun child request => parseWlRequest child = .ok request)
      (children.filter fun child => child.tag = "request") requests ∧
    List.Forall₂ (fun child event => parseWlEvent child = .ok event)
      (children.filter fun child => child.tag = "event") events ∧
    List.Forall₂ (fun child enum => parseWlEnum child = .ok enum)
      (children.filter fun child => child.tag = "enum") enums

theorem collects_append_iff {children children' : List Element} {requests : List WlRequest}
    {events : List WlEvent} {enums : List WlEnum} :
    Collects (children ++ children') requests events enums ↔
      ∃ requests₁ events₁ enums₁ requests₂ events₂ enums₂,
        Collects children requests₁ events₁ enums₁ ∧
          Collects children' requests₂ events₂ enums₂ ∧ requests = requests₁ ++ requests₂ ∧
            events = events₁ ++ events₂ ∧ enums = enums₁ ++ enums₂ := by
  simp only [Collects, List.filter_append, forall₂_append_left_iff]
  constructor
  · rintro ⟨⟨r₁, r₂, hr₁, hr₂, rfl⟩, ⟨e₁, e₂, he₁, he₂, rfl⟩, n₁, n₂, hn₁, hn₂, rfl⟩
    exact ⟨r₁, e₁, n₁, r₂, e₂, n₂, ⟨hr₁, he₁, hn₁⟩, ⟨hr₂, he₂, hn₂⟩, rfl, rfl, rfl⟩
  · rintro ⟨r₁, e₁, n₁, r₂, e₂, n₂, ⟨hr₁, he₁, hn₁⟩, ⟨hr₂, he₂, hn₂⟩, rfl, rfl, rfl⟩
    exact ⟨⟨r₁, r₂, hr₁, hr₂, rfl⟩, ⟨e₁, e₂, he₁, he₂, rfl⟩, n₁, n₂, hn₁, hn₂, rfl⟩

/-- What one child adds. -/
theorem ParsedChildren.parse_eq_ok_iff {found found' : ParsedChildren} {child : Element} :
    found.parse child = .ok found' ↔
      ∃ requests events enums, Collects [child] requests events enums ∧
        found' = found.append requests events enums := by
  simp only [Collects, parse]
  split_ifs with hrequest hevent henum
  all_goals simp only [bind_eq_ok_iff, pure_eq_ok_iff]
  · simp [hrequest, List.forall₂_cons_left_iff, append, eq_comm (b := found')]
  · simp [hevent, List.forall₂_cons_left_iff, append, eq_comm (b := found')]
  · simp [henum, List.forall₂_cons_left_iff, append, eq_comm (b := found')]
  · simp [hrequest, hevent, henum, eq_comm (b := found')]

/-- What the whole loop adds. -/
theorem foldlM_parse_eq_ok_iff {children : List Element} {found found' : ParsedChildren} :
    children.foldlM ParsedChildren.parse found = .ok found' ↔
      ∃ requests events enums, Collects children requests events enums ∧
        found' = found.append requests events enums := by
  induction children generalizing found with
  | nil => simp [Collects, eq_comm (b := found')]
  | cons child children ih =>
      rw [List.foldlM_cons, bind_eq_ok_iff, ← List.singleton_append]
      simp only [collects_append_iff, ParsedChildren.parse_eq_ok_iff, ih]
      constructor
      · rintro ⟨_, ⟨r, e, n, hchild, rfl⟩, r', e', n', hrest, rfl⟩
        exact ⟨_, _, _, ⟨r, e, n, r', e', n', hchild, hrest, rfl, rfl, rfl⟩,
          found.append_append ..⟩
      · rintro ⟨_, _, _, ⟨r, e, n, r', e', n', hchild, hrest, rfl, rfl, rfl⟩, rfl⟩
        exact ⟨_, ⟨r, e, n, hchild, rfl⟩, r', e', n', hrest, (found.append_append ..).symm⟩

/-- Requests, events and enumerations are those of the children with the tag,
whatever stands between them, and the opcodes count from zero. -/
structure InterfaceOf (node : Element) (i : WlInterface) : Prop where
  tag : node.tag = "interface"
  name : node.get "name" = some i.name
  version : IntAttribute node "version" 10 i.version
  description : ∃ rest, LeadingDescription node.children i.description rest
  requests : List.Forall₂ (MessageOf .request) (node.childrenTagged "request") i.requests
  events : List.Forall₂ (MessageOf .event) (node.childrenTagged "event") i.events
  enums : List.Forall₂ EnumOf (node.childrenTagged "enum") i.enums
  requestOpcodes : i.requestOpcodes = List.range i.requests.length
  eventOpcodes : i.eventOpcodes = List.range i.events.length

/-- Each request and each event begins with its description. -/
def Element.MessagesBeginWithDescription (node : Element) : Prop :=
  ∀ kind : MessageKind, ∀ child ∈ node.childrenTagged kind.tag, child.BeginsWithDescription

theorem LeadingDescription.filter_eq {children rest : List Element} {o : Option WlDescription}
    (h : LeadingDescription children o rest) {tag : String} (htag : tag ≠ "description") :
    (rest.filter fun child => child.tag = tag) = children.filter fun child => child.tag = tag := by
  rcases h with hhead | ⟨hhead, -⟩
  · rfl
  · rw [List.filter_cons_of_neg]
    simpa [hhead] using htag.symm

/-- The children with the tag of those behind the description are just these. -/
theorem LeadingDescription.childrenTagged {node : Element} {o : Option WlDescription}
    {rest : List Element} (h : LeadingDescription node.children o rest) {tag : String}
    (htags : ∀ child ∈ rest, child.tag = tag) (htag : tag ≠ "description") :
    node.childrenTagged tag = rest := by
  rw [Element.childrenTagged, ← h.filter_eq htag]
  simpa using htags

/-- The children of a message with the tag of arguments, group after group. -/
theorem MessageOf.groups {kind : MessageKind} {node : Element} {m : WlMessage}
    (h : MessageOf kind node m) :
    ∃ groups, List.Forall₂ ArgGroupOf (node.childrenTagged "arg") groups ∧
      m.args = groups.flatten := by
  obtain ⟨rest, groups, hleading, hgroups, hargs⟩ := h.content
  have htags := forall_mem_of_forall₂ hgroups fun _ _ hgroup => hgroup.tag
  rw [hleading.childrenTagged htags (by decide)]
  exact ⟨groups, hgroups, hargs⟩

theorem EnumOf.entries {node : Element} {e : WlEnum} (h : EnumOf node e) :
    List.Forall₂ EnumEntryOf (node.childrenTagged "entry") e.entries := by
  obtain ⟨rest, hleading, hentries⟩ := h.content
  have htags := forall_mem_of_forall₂ hentries fun _ _ hentry => hentry.tag
  rwa [hleading.childrenTagged htags (by decide)]

theorem collects_iff {node : Element} {o : Option WlDescription} {rest : List Element}
    (hleading : LeadingDescription node.children o rest) {requests : List WlRequest}
    {events : List WlEvent} {enums : List WlEnum} :
    Collects rest requests events enums ↔
      node.MessagesBeginWithDescription ∧
        List.Forall₂ (MessageOf .request) (node.childrenTagged "request") requests ∧
        List.Forall₂ (MessageOf .event) (node.childrenTagged "event") events ∧
        List.Forall₂ EnumOf (node.childrenTagged "enum") enums := by
  simp only [Collects, parseWlRequest, parseWlEvent, parseMessage_eq_ok_iff,
    parseWlEnum_eq_ok_iff, List.forall₂_and_left, Element.MessagesBeginWithDescription,
    Element.childrenTagged, hleading.filter_eq (show "request" ≠ "description" by decide),
    hleading.filter_eq (show "event" ≠ "description" by decide),
    hleading.filter_eq (show "enum" ≠ "description" by decide)]
  constructor
  · rintro ⟨⟨hreq, hrequests⟩, ⟨hev, hevents⟩, henums⟩
    refine ⟨?_, hrequests, hevents, henums⟩
    rintro (_ | _)
    · exact hreq
    · exact hev
  · rintro ⟨hbegins, hrequests, hevents, henums⟩
    exact ⟨⟨hbegins .request, hrequests⟩, ⟨hbegins .event, hevents⟩, henums⟩

theorem parseWlInterface_eq_ok_iff {node : Element} {i : WlInterface} :
    parseWlInterface node = .ok i ↔
      1 < node.children.length ∧ node.MessagesBeginWithDescription ∧ InterfaceOf node i := by
  simp only [parseWlInterface, bind_eq_ok_iff, assertTag_eq_ok_iff, require_eq_ok_iff,
    Element.item_eq_ok_iff, Prod.exists, parseTaggedDescription_eq_ok_iff,
    foldlM_parse_eq_ok_iff, pure_eq_ok_iff]
  constructor
  · rintro ⟨-, htag, -, hsize, description, rest, hleading, _, ⟨requests, events, enums, hcollects,
      rfl⟩, name, hname, text, htext, version, hversion, rfl⟩
    obtain ⟨hbegins, hrequests, hevents, henums⟩ := (collects_iff hleading).mp hcollects
    refine ⟨hsize, hbegins, htag, hname, ⟨text, htext, hversion⟩, ⟨rest, hleading⟩, hrequests,
      hevents, henums, ?_, ?_⟩
    · exact (List.range_eq_range' ..).symm
    · exact (List.range_eq_range' ..).symm
  · rintro ⟨hsize, hbegins, h⟩
    obtain ⟨rest, hleading⟩ := h.description
    obtain ⟨text, htext, hversion⟩ := h.version
    have hcollects := (collects_iff hleading).mpr ⟨hbegins, h.requests, h.events, h.enums⟩
    refine ⟨(), h.tag, (), hsize, i.description, rest, hleading, _, ⟨_, _, _, hcollects, rfl⟩,
      i.name, h.name, text, htext, i.version, hversion, ?_⟩
    simp only [ParsedChildren.append, ParsedChildren.empty, List.nil_append,
      ← List.range_eq_range', ← h.requestOpcodes, ← h.eventOpcodes]

/-! ## Members by their tag -/

theorem MessageKind.tag_injective : Function.Injective tag := by
  intro kind kind' h
  revert h
  cases kind <;> cases kind' <;> decide

theorem MessageKind.tag_ne_description (kind : MessageKind) : kind.tag ≠ "description" := by
  cases kind <;> decide

theorem MessageKind.tag_ne_enum (kind : MessageKind) : kind.tag ≠ "enum" := by
  cases kind <;> decide

/-- The content of an interface: a description with the first property, then
messages with the second and enumerations with the third, in any order. -/
abbrev interfaceContent (description : Element → Prop) (message : MessageKind → Element → Prop)
    (enum : Element → Prop) : Language Element :=
  opt description * many fun child => (∃ kind, message kind child) ∨ enum child

/-- The three properties are of elements with the right tag. -/
structure TagsFit (description : Element → Prop) (message : MessageKind → Element → Prop)
    (enum : Element → Prop) : Prop where
  description : ∀ child, description child → child.tag = "description"
  message : ∀ kind child, message kind child → child.tag = kind.tag
  enum : ∀ child, enum child → child.tag = "enum"

section Members

variable {description : Element → Prop} {message : MessageKind → Element → Prop}
  {enum : Element → Prop} {node : Element}

theorem mem_interfaceContent (h : node.children ∈ interfaceContent description message enum) :
    ∀ child ∈ node.children,
      description child ∨ (∃ kind, message kind child) ∨ enum child := by
  intro child hchild
  obtain hall | ⟨d, rest, heq, hd, hall⟩ := mem_opt_mul.mp h
  · exact .inr (mem_many.mp hall child hchild)
  · rw [heq] at hchild
    rcases List.mem_cons.mp hchild with rfl | hrest
    · exact .inl hd
    · exact .inr (mem_many.mp hall child hrest)

theorem childrenTagged_message (h : node.children ∈ interfaceContent description message enum)
    (htags : TagsFit description message enum) (kind : MessageKind) :
    node.childrenTagged kind.tag ∈ many (message kind) := by
  apply mem_many.mpr
  intro child hchild
  obtain ⟨hmem, htag⟩ := List.mem_filter.mp hchild
  have htag : child.tag = kind.tag := by simpa using htag
  obtain hd | ⟨kind', hm⟩ | he := mem_interfaceContent h child hmem
  · exact absurd (htag.symm.trans (htags.description child hd)) kind.tag_ne_description
  · obtain rfl := MessageKind.tag_injective (htag.symm.trans (htags.message kind' child hm))
    exact hm
  · exact absurd (htag.symm.trans (htags.enum child he)) kind.tag_ne_enum

theorem childrenTagged_enum (h : node.children ∈ interfaceContent description message enum)
    (htags : TagsFit description message enum) : node.childrenTagged "enum" ∈ many enum := by
  apply mem_many.mpr
  intro child hchild
  obtain ⟨hmem, htag⟩ := List.mem_filter.mp hchild
  have htag : child.tag = "enum" := by simpa using htag
  obtain hd | ⟨kind, hm⟩ | he := mem_interfaceContent h child hmem
  · exact absurd (htag.symm.trans (htags.description child hd)) (by decide)
  · exact absurd ((htags.message kind child hm).symm.trans htag) kind.tag_ne_enum
  · exact he

/-- An interface corresponds to something if its parts do. -/
theorem exists_interfaceOf (h : node.children ∈ interfaceContent description message enum)
    (htags : TagsFit description message enum) (htag : node.tag = "interface")
    (hname : ∃ name, node.get "name" = some name)
    (hversion : ∃ version, IntAttribute node "version" 10 version)
    (hdescription : ∀ child, description child → ∃ d, DescriptionOf child d)
    (hmessage : ∀ kind child, message kind child → ∃ m, MessageOf kind child m)
    (henum : ∀ child, enum child → ∃ e, EnumOf child e) : ∃ i, InterfaceOf node i := by
  obtain ⟨name, hname⟩ := hname
  obtain ⟨version, hversion⟩ := hversion
  obtain ⟨o, rest, hleading, -⟩ := exists_leading h
    (fun child hd => ⟨htags.description child hd, hdescription child hd⟩) (by
      intro rest hrest child hchild
      obtain ⟨kind, hm⟩ | he := mem_many.mp hrest child (List.mem_of_mem_head? hchild)
      · rw [htags.message kind child hm]
        exact kind.tag_ne_description
      · rw [htags.enum child he]
        decide)
  obtain ⟨requests, hrequests⟩ :=
    exists_forall₂ (childrenTagged_message h htags .request) (hmessage .request)
  obtain ⟨events, hevents⟩ :=
    exists_forall₂ (childrenTagged_message h htags .event) (hmessage .event)
  obtain ⟨enums, henums⟩ := exists_forall₂ (childrenTagged_enum h htags) henum
  exact ⟨⟨name, version, o, requests, events, enums, List.range requests.length,
    List.range events.length⟩, htag, hname, hversion, ⟨rest, hleading⟩, hrequests, hevents,
    henums, rfl, rfl⟩

end Members

/-! ## Protocols -/

/-- The copyright is the optional first child, read as its text. -/
abbrev LeadingCopyright :
    List Element → Option (Option String) → List Element → Prop :=
  Leading (fun child => child.tag = "copyright") fun child text => text = child.text

/-- The copyright is the optional first child, then comes the optional
description; the rest are interfaces. -/
structure ProtocolOf (node : Element) (p : WlProtocol) : Prop where
  tag : node.tag = "protocol"
  name : node.get "name" = some p.name
  content : ∃ copyright rest interfaces, LeadingCopyright node.children copyright rest ∧
    p.copyright = copyright.join ∧ LeadingDescription rest p.description interfaces ∧
      List.Forall₂ InterfaceOf interfaces p.interfaces

/-- What the parser asks of a protocol beyond its content model. -/
structure ReadableProtocol (node : Element) : Prop where
  copyright : ∀ child ∈ node.children.head?, child.tag = "copyright" → child.text ≠ none
  interfaces : ∀ interface ∈ node.childrenTagged "interface", 1 < interface.children.length
  messages : ∀ interface ∈ node.childrenTagged "interface",
    interface.MessagesBeginWithDescription

theorem parseCopyright_cons (node : Element) {child : Element} {others : List Element}
    (h : node.children = child :: others) :
    parseCopyright node = if child.tag = "copyright" then child.text else none := by
  rw [parseCopyright, h]

/-- The copyright is skipped exactly if it has a text. -/
theorem leadingCopyright_drop {node : Element} (hne : node.children ≠ [])
    (htext : ∀ child ∈ node.children.head?, child.tag = "copyright" → child.text ≠ none) :
    ∃ copyright, LeadingCopyright node.children copyright
        (node.children.drop (if (parseCopyright node).isSome then 1 else 0)) ∧
      parseCopyright node = copyright.join := by
  obtain ⟨child, others, hcons⟩ := List.exists_cons_of_ne_nil hne
  rw [parseCopyright_cons node hcons, hcons]
  by_cases htag : child.tag = "copyright"
  · obtain ⟨text, hvalue⟩ := Option.ne_none_iff_exists'.mp (htext child (by simp [hcons]) htag)
    rw [if_pos htag, hvalue]
    exact ⟨some (some text), .present htag hvalue.symm, rfl⟩
  · rw [if_neg htag]
    exact ⟨none, .absent (by simpa using htag), rfl⟩

theorem childrenTagged_interface {node : Element} {copyright : Option (Option String)}
    {description : Option WlDescription} {rest interfaces : List Element}
    (hcopyright : LeadingCopyright node.children copyright rest)
    (hdescription : LeadingDescription rest description interfaces)
    (hinterfaces : ∀ interface ∈ interfaces, interface.tag = "interface") :
    node.childrenTagged "interface" = interfaces := by
  have hrest : (node.children.filter fun child => child.tag = "interface") =
      rest.filter fun child => child.tag = "interface" := by
    generalize node.children = children at hcopyright
    rcases hcopyright with - | ⟨hhead, -⟩
    · rfl
    · rw [List.filter_cons_of_neg]
      simp [hhead]
  rw [Element.childrenTagged, hrest, ← hdescription.filter_eq (by decide)]
  simpa using hinterfaces

theorem ProtocolOf.interfaces {node : Element} {p : WlProtocol} (h : ProtocolOf node p) :
    List.Forall₂ InterfaceOf (node.childrenTagged "interface") p.interfaces := by
  obtain ⟨copyright, rest, interfaces, hcopyright, -, hdescription, hinterfaces⟩ := h.content
  have htags := forall_mem_of_forall₂ hinterfaces fun _ _ hi => hi.tag
  rwa [childrenTagged_interface hcopyright hdescription htags]

/-- A copyright without a text is taken for an interface. -/
theorem text_ne_none_of_leading {node : Element} {description : Option WlDescription}
    {interfaces : List Element}
    (hleading : LeadingDescription
      (node.children.drop (if (parseCopyright node).isSome then 1 else 0)) description interfaces)
    (htags : ∀ interface ∈ interfaces, interface.tag = "interface") :
    ∀ child ∈ node.children.head?, child.tag = "copyright" → child.text ≠ none := by
  intro child hchild htag htext
  obtain ⟨others, hcons⟩ := List.head?_eq_some_iff.mp hchild
  rw [parseCopyright_cons node hcons, if_pos htag, htext, hcons] at hleading
  have hnot : child.tag ≠ "description" := by
    rw [htag]
    decide
  obtain ⟨-, hinterfaces⟩ := (leadingDescription_of_tag_ne hnot).mp hleading
  have hinterface := htags child (by rw [hinterfaces]; exact List.mem_cons_self)
  exact absurd (htag.symm.trans hinterface) (by decide)

theorem parseWlProtocol_eq_ok_iff {node : Element} {p : WlProtocol} :
    parseWlProtocol node = .ok p ↔
      node.children ≠ [] ∧ ReadableProtocol node ∧ ProtocolOf node p := by
  simp only [parseWlProtocol, bind_eq_ok_iff, assertTag_eq_ok_iff, require_eq_ok_iff,
    Element.item_eq_ok_iff, Prod.exists, parseTaggedDescription_eq_ok_iff, mapM_eq_ok_iff,
    parseWlInterface_eq_ok_iff, List.forall₂_and_left, pure_eq_ok_iff]
  constructor
  · rintro ⟨-, htag, -, hne, description, interfaces, hdescription, is,
      ⟨hsizes, hbegins, hinterfaces⟩, name, hname, rfl⟩
    have htags := forall_mem_of_forall₂ hinterfaces fun _ _ hi => hi.tag
    have htext := text_ne_none_of_leading hdescription htags
    obtain ⟨copyright, hcopyright, hparse⟩ := leadingCopyright_drop hne htext
    have htagged := childrenTagged_interface hcopyright hdescription htags
    refine ⟨hne, ⟨htext, ?_, ?_⟩, htag, hname, copyright, _, interfaces, hcopyright, hparse,
      hdescription, hinterfaces⟩
    · rw [htagged]
      exact hsizes
    · rw [htagged]
      exact hbegins
  · rintro ⟨hne, hreadable, htag, hname, copyright, rest, interfaces, hcopyright, htext,
      hdescription, hinterfaces⟩
    have htags := forall_mem_of_forall₂ hinterfaces fun _ _ hi => hi.tag
    have htagged := childrenTagged_interface hcopyright hdescription htags
    obtain ⟨copyright', hcopyright', hparse⟩ := leadingCopyright_drop hne hreadable.copyright
    obtain ⟨rfl, rfl⟩ :=
      hcopyright.unique (fun _ _ _ htext htext' => htext.trans htext'.symm) hcopyright'
    refine ⟨(), htag, (), hne, p.description, interfaces, hdescription, p.interfaces,
      ⟨?_, ?_, hinterfaces⟩, p.name, hname, ?_⟩
    · rw [← htagged]
      exact hreadable.interfaces
    · rw [← htagged]
      exact hreadable.messages
    · rw [hparse, ← htext]

end Waylander
