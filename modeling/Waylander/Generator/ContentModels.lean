import Waylander.Generator.Correspondence

/-!
# The generator's input language

The content models that the dataclasses state in their comments, with the
attributes that are required and the types of those that have one.  Every tree
that follows them corresponds to a `wl_protocol`, and the parser returns it if
the tree is readable in the sense of `ReadableProtocol`.

The trees that are not readable are refused for no reason that a content model
gives: a message without a description whose first child is an argument, an
interface with one child and an empty copyright.
-/

namespace Waylander

open ContentModel

/-! ## Content models -/

/-- If the attribute is there, it holds an integer. -/
def OptionalInt (node : Element) (key : String) : Prop :=
  ∃ value, OptionalIntAttribute node key value

structure FollowsDescription (node : Element) : Prop where
  tag : node.tag = "description"
  summary : ∃ summary, node.get "summary" = some summary

/-- `(description?)` -/
structure FollowsArg (node : Element) : Prop where
  tag : node.tag = "arg"
  name : ∃ name, node.get "name" = some name
  type : ∃ t : WlArgType, node.get "type" = some t.xmlName
  content : node.children ∈ opt FollowsDescription * 1

/-- `(description?)` -/
structure FollowsEntry (node : Element) : Prop where
  tag : node.tag = "entry"
  name : ∃ name, node.get "name" = some name
  value : ∃ value, IntAttribute node "value" 0 value
  since : OptionalInt node "since"
  content : node.children ∈ opt FollowsDescription * 1

/-- `(description?,entry*)` -/
structure FollowsEnum (node : Element) : Prop where
  tag : node.tag = "enum"
  name : ∃ name, node.get "name" = some name
  since : OptionalInt node "since"
  content : node.children ∈ opt FollowsDescription * many FollowsEntry

/-- `(description?,arg*)` -/
structure FollowsMessage (kind : MessageKind) (node : Element) : Prop where
  tag : node.tag = kind.tag
  name : ∃ name, node.get "name" = some name
  since : OptionalInt node "since"
  content : node.children ∈ opt FollowsDescription * many FollowsArg

/-- A request, an event or an enumeration. -/
def FollowsMember (node : Element) : Prop :=
  (∃ kind, FollowsMessage kind node) ∨ FollowsEnum node

/-- `(description?,(request|event|enum)+)` -/
structure FollowsInterface (node : Element) : Prop where
  tag : node.tag = "interface"
  name : ∃ name, node.get "name" = some name
  version : ∃ version, IntAttribute node "version" 10 version
  content : node.children ∈ opt FollowsDescription * many1 FollowsMember

/-- `(copyright?, description?, interface+)` -/
structure FollowsProtocol (node : Element) : Prop where
  tag : node.tag = "protocol"
  name : ∃ name, node.get "name" = some name
  content : node.children ∈ opt (fun child : Element => child.tag = "copyright") *
    (opt FollowsDescription * many1 FollowsInterface)

/-! ## Every tree that follows them corresponds to something -/

theorem FollowsDescription.exists_of {node : Element} (h : FollowsDescription node) :
    node.tag = "description" ∧ ∃ d, DescriptionOf node d := by
  obtain ⟨summary, hsummary⟩ := h.summary
  exact ⟨h.tag, ⟨summary, node.text⟩, h.tag, hsummary, rfl⟩

theorem head?_tag_ne {p : Element → Prop} {children : List Element}
    (hchildren : children ∈ many p) (hp : ∀ child, p child → child.tag ≠ "description") :
    ∀ child ∈ children.head?, ¬child.tag = "description" :=
  fun child hchild => hp child (mem_many.mp hchildren child (List.mem_of_mem_head? hchild))

theorem exists_leadingDescription {l : Language Element} {children : List Element}
    (h : children ∈ opt FollowsDescription * l)
    (hl : ∀ rest ∈ l, ∀ child ∈ rest.head?, ¬child.tag = "description") :
    ∃ o rest, LeadingDescription children o rest ∧ rest ∈ l :=
  exists_leading h (fun _ hd => hd.exists_of) hl

theorem exists_onlyDescription {children : List Element}
    (h : children ∈ opt FollowsDescription * 1) : ∃ o, LeadingDescription children o [] := by
  obtain ⟨o, rest, hleading, hrest⟩ := exists_leadingDescription h (by
    rintro rest hrest child hchild
    obtain rfl := (Language.mem_one rest).mp hrest
    cases hchild)
  obtain rfl := (Language.mem_one rest).mp hrest
  exact ⟨o, hleading⟩

theorem FollowsArg.exists_of {node : Element} (h : FollowsArg node) :
    ∃ group, ArgGroupOf node group := by
  obtain ⟨name, hname⟩ := h.name
  obtain ⟨t, ht⟩ := h.type
  obtain ⟨description, hdescription⟩ := exists_onlyDescription h.content
  have ha : ArgOf node ⟨name, t, node.get "summary", node.get "interface",
      some (decide (node.get "allow-null" = some "true")), node.get "enum", description⟩ :=
    ⟨h.tag, hname, ht, rfl, rfl, rfl, rfl, hdescription⟩
  by_cases hnew : UntypedNewId node
  · exact ⟨_, .untyped hnew ha⟩
  · exact ⟨_, .plain hnew ha⟩

theorem FollowsEntry.exists_of {node : Element} (h : FollowsEntry node) :
    ∃ e, EnumEntryOf node e := by
  obtain ⟨name, hname⟩ := h.name
  obtain ⟨value, hvalue⟩ := h.value
  obtain ⟨since, hsince⟩ := h.since
  obtain ⟨description, hdescription⟩ := exists_onlyDescription h.content
  exact ⟨⟨name, value, node.get "summary", since, description⟩, h.tag, hname, hvalue, rfl,
    hsince, hdescription⟩

theorem FollowsEnum.exists_of {node : Element} (h : FollowsEnum node) :
    ∃ e, EnumOf node e := by
  obtain ⟨name, hname⟩ := h.name
  obtain ⟨since, hsince⟩ := h.since
  obtain ⟨description, rest, hleading, hrest⟩ := exists_leadingDescription h.content
    fun rest hrest => head?_tag_ne hrest fun child hchild => by simp [hchild.tag]
  obtain ⟨entries, hentries⟩ := exists_forall₂ hrest fun _ he => he.exists_of
  exact ⟨⟨name, since, decide (node.get "bitfield" = some "true"), description, entries⟩, h.tag,
    hname, hsince, rfl, rest, hleading, hentries⟩

theorem FollowsMessage.exists_of {kind : MessageKind} {node : Element}
    (h : FollowsMessage kind node) : ∃ m, MessageOf kind node m := by
  obtain ⟨name, hname⟩ := h.name
  obtain ⟨since, hsince⟩ := h.since
  obtain ⟨description, rest, hleading, hrest⟩ := exists_leadingDescription h.content
    fun rest hrest => head?_tag_ne hrest fun child hchild => by simp [hchild.tag]
  obtain ⟨groups, hgroups⟩ := exists_forall₂ hrest fun _ ha => ha.exists_of
  exact ⟨⟨name, node.get "type", since, description, groups.flatten⟩, h.tag, hname, rfl, hsince,
    rest, groups, hleading, hgroups, rfl⟩

theorem tagsFit_follows : TagsFit FollowsDescription FollowsMessage FollowsEnum where
  description := fun _ h => h.tag
  message := fun _ _ h => h.tag
  enum := fun _ h => h.tag

theorem FollowsInterface.exists_of {node : Element} (h : FollowsInterface node) :
    ∃ i, InterfaceOf node i := by
  have hcontent : node.children ∈ interfaceContent FollowsDescription FollowsMessage FollowsEnum :=
    mem_opt_mul_of_subset (fun _ => mem_many_of_mem_many1) h.content
  exact exists_interfaceOf hcontent tagsFit_follows h.tag h.name h.version
    (fun _ hd => hd.exists_of.2) (fun _ _ hm => hm.exists_of) fun _ he => he.exists_of

theorem FollowsProtocol.exists_of {node : Element} (h : FollowsProtocol node) :
    ∃ p, ProtocolOf node p := by
  obtain ⟨name, hname⟩ := h.name
  have hinterface : ∀ rest ∈ many1 FollowsInterface, ∀ child ∈ rest.head?,
      child.tag = "interface" := fun rest hrest child hchild =>
    ((mem_many1.mp hrest).2 child (List.mem_of_mem_head? hchild)).tag
  obtain ⟨copyright, rest, hcopyright, hrest⟩ : ∃ copyright rest,
      LeadingCopyright node.children copyright rest ∧
        rest ∈ opt FollowsDescription * many1 FollowsInterface := by
    refine exists_leading h.content (fun child hchild => ⟨hchild, child.text, rfl⟩) ?_
    intro rest hrest child hchild
    obtain hall | ⟨d, others, rfl, hd, -⟩ := mem_opt_mul.mp hrest
    · rw [hinterface rest hall child hchild]
      decide
    · obtain rfl := Option.some.inj hchild
      rw [hd.tag]
      decide
  obtain ⟨description, interfaces, hdescription, hall⟩ := exists_leadingDescription hrest
    fun rest hrest child hchild => by
      rw [hinterface rest hrest child hchild]
      decide
  obtain ⟨is, his⟩ := exists_forall₂ (mem_many_of_mem_many1 hall) fun _ hi => hi.exists_of
  exact ⟨⟨name, copyright.join, description, is⟩, h.tag, hname, copyright, rest, interfaces,
    hcopyright, rfl, hdescription, his⟩

theorem FollowsProtocol.children_ne_nil {node : Element} (h : FollowsProtocol node) :
    node.children ≠ [] := by
  obtain hrest | ⟨child, rest, hcons, -, -⟩ := mem_opt_mul.mp h.content
  · obtain hall | ⟨child, rest, hcons, -, -⟩ := mem_opt_mul.mp hrest
    · exact (mem_many1.mp hall).1
    · simp [hcons]
  · simp [hcons]

/-! ## Acceptance -/

/-- The parser accepts a tree that follows the content models, and returns what
corresponds to it, exactly if the tree is readable. -/
theorem FollowsProtocol.accepted_iff {node : Element} (h : FollowsProtocol node) :
    (∃ p, parseWlProtocol node = .ok p ∧ ProtocolOf node p) ↔ ReadableProtocol node := by
  simp only [parseWlProtocol_eq_ok_iff]
  constructor
  · rintro ⟨p, ⟨-, hreadable, -⟩, -⟩
    exact hreadable
  · intro hreadable
    obtain ⟨p, hp⟩ := h.exists_of
    exact ⟨p, ⟨h.children_ne_nil, hreadable, hp⟩, hp⟩

/-- The argument of `wl_display.sync`. -/
def callbackArg : Element :=
  ⟨"arg", [("name", "callback"), ("type", "new_id"), ("interface", "wl_callback"),
    ("summary", "callback object for the sync request")], none, 4, []⟩

/-- `wl_display` with the request `sync`, in which `first` stands in front of the
argument. -/
def displayProtocol (first : List Element) : Element :=
  ⟨"protocol", [("name", "wayland")], none, 1,
    [⟨"interface", [("name", "wl_display"), ("version", "1")], none, 2,
      [⟨"request", [("name", "sync")], none, 3, first ++ [callbackArg]⟩,
       ⟨"event", [("name", "error")], none, 8, []⟩]⟩]⟩

def roundtripDescription : Element :=
  ⟨"description", [("summary", "asynchronous roundtrip")], none, 3, []⟩

theorem followsArg_callbackArg : FollowsArg callbackArg :=
  ⟨rfl, ⟨_, rfl⟩, ⟨.wlNewId, rfl⟩, mem_opt_mul.mpr (.inl rfl)⟩

theorem followsProtocol_displayProtocol {first : List Element}
    (hfirst : first ++ [callbackArg] ∈ opt FollowsDescription * many FollowsArg) :
    FollowsProtocol (displayProtocol first) := by
  have hsync : FollowsMember ⟨"request", [("name", "sync")], none, 3, first ++ [callbackArg]⟩ :=
    .inl ⟨.request, rfl, ⟨_, rfl⟩, ⟨none, rfl⟩, hfirst⟩
  have herror : FollowsMember ⟨"event", [("name", "error")], none, 8, []⟩ :=
    .inl ⟨.event, rfl, ⟨_, rfl⟩, ⟨none, rfl⟩, mem_opt_mul.mpr (.inl (mem_many.mpr (by simp)))⟩
  refine ⟨rfl, ⟨_, rfl⟩, mem_opt_mul.mpr (.inl (mem_opt_mul.mpr (.inl (mem_many1.mpr ?_))))⟩
  refine ⟨List.cons_ne_nil _ _, ?_⟩
  rintro _ (_ | ⟨_, ⟨⟩⟩)
  refine ⟨rfl, ⟨_, rfl⟩, ⟨1, _, rfl, by decide⟩, mem_opt_mul.mpr (.inl (mem_many1.mpr ?_))⟩
  exact ⟨List.cons_ne_nil _ _, by simpa using ⟨hsync, herror⟩⟩

/-- With a description in front of the argument the tree is readable. -/
theorem accepted_displayProtocol_described :
    ∃ p, parseWlProtocol (displayProtocol [roundtripDescription]) = .ok p ∧
      ProtocolOf (displayProtocol [roundtripDescription]) p := by
  have hfollows : FollowsProtocol (displayProtocol [roundtripDescription]) :=
    followsProtocol_displayProtocol (mem_opt_mul.mpr (.inr ⟨_, _, rfl, ⟨rfl, _, rfl⟩,
      mem_many.mpr (by simpa using followsArg_callbackArg)⟩))
  refine hfollows.accepted_iff.mpr ⟨?_, ?_, ?_⟩
  · simp [displayProtocol]
  · simp [displayProtocol, Element.childrenTagged]
  · simp [displayProtocol, Element.childrenTagged, Element.MessagesBeginWithDescription,
      Element.BeginsWithDescription, MessageKind.tag, roundtripDescription]

/-- Without one it is refused. -/
theorem not_accepted_displayProtocol :
    FollowsProtocol (displayProtocol []) ∧
      ¬∃ p, parseWlProtocol (displayProtocol []) = .ok p ∧ ProtocolOf (displayProtocol []) p := by
  refine ⟨followsProtocol_displayProtocol (mem_opt_mul.mpr (.inl (mem_many.mpr
    (by simpa using followsArg_callbackArg)))), ?_⟩
  have herror : parseWlProtocol (displayProtocol []) = .error (.assertionError
      "Expected description node, got arg at line number: 4") := by decide
  rw [herror]
  simp

end Waylander
