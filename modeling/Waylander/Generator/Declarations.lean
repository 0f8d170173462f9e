import Mathlib.Algebra.Ring.Int.Defs
import Mathlib.Data.List.Perm.Basic
import Waylander.Generator.Structs

/-!
# Well-formed declarations

Whether the header that the generator writes can be compiled, as far as this
depends on the names of data members and on the values of enumerators.  Data
members have their names from the XML arguments, from the companions of untyped
new ids and from the opcode that every struct declares; no name is changed.  The
type of an enumeration is chosen by its `bitfield` attribute alone.
-/

namespace Waylander

open Fallible ContentModel

/-- The definitions in the header that `write_cxx_header` writes, behind the
comments and the declarations of the interfaces. -/
def WlProtocol.cxxDefinitions (p : WlProtocol) : Except PyException String := do
  require (p.interfaces ≠ [])
    (.runtimeError ("Protocol " ++ p.name ++ " has no interfaces!"))
  let definitions ← p.interfaces.mapM WlInterface.asCxxDefinitions
  return String.join definitions

/-- The generator accepts the protocol and writes these definitions. -/
structure Generates (node : Element) (p : WlProtocol) (text : String) : Prop where
  parse : parseWlProtocol node = .ok p
  write : p.cxxDefinitions = .ok text

/-! ## Well-formed declarations -/

/-- The names declared in the struct, with the static member first. -/
def CxxStruct.memberNames (s : CxxStruct) : List String :=
  "opcode" :: s.members.map CxxMember.name

/-- The value is one of the type's `integral_type`. -/
def CxxType.Represents : CxxType → ℤ → Prop
  | .wint, value => -2 ^ 31 ≤ value ∧ value < 2 ^ 31
  | .wuint, value => 0 ≤ value ∧ value < 2 ^ 32
  | _, _ => False

/-- No struct has two members of one name, and every enumerator has a value of the
type of its enumeration. -/
structure WlInterface.WellFormed (i : WlInterface) : Prop where
  members : ∀ kind, ∀ s ∈ i.cxxStructs kind, s.memberNames.Nodup
  values : ∀ e ∈ i.cxxEnums, ∀ enumerator ∈ e.enumerators,
    e.underlying.Represents enumerator.value

/-! ## Names in the XML -/

/-- Keywords and alternative tokens. -/
def cxxKeywords : List String :=
  ["alignas", "alignof", "and", "and_eq", "asm", "auto", "bitand", "bitor", "bool", "break",
    "case", "catch", "char", "char8_t", "char16_t", "char32_t", "class", "compl", "concept",
    "const", "consteval", "constexpr", "constinit", "const_cast", "continue", "co_await",
    "co_return", "co_yield", "decltype", "default", "delete", "do", "double", "dynamic_cast",
    "else", "enum", "explicit", "export", "extern", "false", "float", "for", "friend", "goto",
    "if", "inline", "int", "long", "mutable", "namespace", "new", "noexcept", "not", "not_eq",
    "nullptr", "operator", "or", "or_eq", "private", "protected", "public", "register",
    "reinterpret_cast", "requires", "return", "short", "signed", "sizeof", "static",
    "static_assert", "static_cast", "struct", "switch", "template", "this", "thread_local",
    "throw", "true", "try", "typedef", "typeid", "typename", "union", "unsigned", "using",
    "virtual", "void", "volatile", "wchar_t", "while", "xor", "xor_eq"]

/-- An identifier of ASCII characters that is no keyword. -/
def CxxName (name : String) : Prop :=
  (name.toList.head?.any fun c => c.isAlpha || c == '_') ∧
    (name.toList.all fun c => c.isAlphanum || c == '_') ∧ name ∉ cxxKeywords

instance (name : String) : Decidable (CxxName name) :=
  inferInstanceAs (Decidable (_ ∧ _))

/-- The names of the children with the tag. -/
def Element.names (node : Element) (tag : String) : List String :=
  (node.childrenTagged tag).filterMap fun child => child.get "name"

/-- The children with the tag are called by different C++ names. -/
def NamesFit (node : Element) (tag : String) : Prop :=
  (node.names tag).Nodup ∧ ∀ name ∈ node.names tag, CxxName name

instance (node : Element) (tag : String) : Decidable (NamesFit node tag) :=
  inferInstanceAs (Decidable (_ ∧ _))

/-- All names in the protocol are C++ names, and different among siblings. -/
structure WellNamed (node : Element) : Prop where
  interfaces : NamesFit node "interface"
  members : ∀ interface ∈ node.childrenTagged "interface",
    ∀ tag ∈ ["request", "event", "enum"], NamesFit interface tag
  args : ∀ interface ∈ node.childrenTagged "interface", ∀ tag ∈ ["request", "event"],
    ∀ message ∈ interface.childrenTagged tag, NamesFit message "arg"
  entries : ∀ interface ∈ node.childrenTagged "interface",
    ∀ enum ∈ interface.childrenTagged "enum", NamesFit enum "entry"

/-- The arguments of one message have different names. -/
def ArgNamesDistinct (node : Element) : Prop :=
  ∀ interface ∈ node.childrenTagged "interface", ∀ kind : MessageKind,
    ∀ message ∈ interface.childrenTagged kind.tag, (message.names "arg").Nodup

theorem WellNamed.argNamesDistinct {node : Element} (h : WellNamed node) :
    ArgNamesDistinct node := by
  intro interface hinterface kind message hmessage
  have htag : kind.tag ∈ ["request", "event"] := by
    cases kind <;> simp [MessageKind.tag]
  exact (h.args interface hinterface kind.tag htag message hmessage).1

/-! ## The condition on the XML -/

/-- No argument is called like the opcode, at most one is an untyped new id, and
beside such a one none is called like its companions. -/
structure MemberNamesApart (message : Element) : Prop where
  opcode : "opcode" ∉ message.names "arg"
  single : ((message.childrenTagged "arg").filter fun arg => UntypedNewId arg).length ≤ 1
  companions : ∀ arg ∈ message.childrenTagged "arg", UntypedNewId arg →
    "new_id_interface" ∉ message.names "arg" ∧
      "new_id_interface_version" ∉ message.names "arg"

/-- The values of the entries are 32-bit numbers, without a sign if the
enumeration is a bitfield. -/
def ValuesFit (enum : Element) : Prop :=
  ∀ entry ∈ enum.childrenTagged "entry", ∀ value, IntAttribute entry "value" 0 value →
    if enum.get "bitfield" = some "true" then 0 ≤ value ∧ value < 2 ^ 32
    else -2 ^ 31 ≤ value ∧ value < 2 ^ 31

structure Declarable (interface : Element) : Prop where
  messages : ∀ kind : MessageKind, ∀ message ∈ interface.childrenTagged kind.tag,
    MemberNamesApart message
  enums : ∀ enum ∈ interface.childrenTagged "enum", ValuesFit enum

/-! ## What is written -/

theorem WlEnum.entries_ne_nil_of_definition {e : WlEnum} {interface : String} {spaces : ℕ}
    {text : String} (h : e.asCxxEnumClassDefinition interface spaces = .ok text) :
    e.entries ≠ [] := by
  intro hnil
  simp [asCxxEnumClassDefinition, hnil] at h

/-- Whatever is written for an interface consists of its enumerations and
structs. -/
theorem WlInterface.eq_definitionsText {i : WlInterface} {text : String}
    (h : i.asCxxDefinitions = .ok text) : text = i.definitionsText := by
  obtain ⟨enums, henums, -⟩ := bind_eq_ok_iff.mp h
  have hentries : ∀ e ∈ i.enums, e.entries ≠ [] :=
    forall_mem_of_forall₂ (mapM_eq_ok_iff.mp henums) fun _ _ he =>
      WlEnum.entries_ne_nil_of_definition he
  exact Except.ok.inj (h.symm.trans (asCxxDefinitions_ok hentries))

theorem WlProtocol.eq_definitionsText {p : WlProtocol} {text : String}
    (h : p.cxxDefinitions = .ok text) :
    text = String.join (p.interfaces.map WlInterface.definitionsText) := by
  obtain ⟨-, -, h⟩ := bind_eq_ok_iff.mp h
  obtain ⟨texts, htexts, h⟩ := bind_eq_ok_iff.mp h
  obtain rfl := pure_eq_ok_iff.mp h
  rw [map_eq_map_of_forall₂ (mapM_eq_ok_iff.mp htexts) fun i text hi =>
    (WlInterface.eq_definitionsText hi).symm, List.map_id']

/-! ## The names of members -/

/-- The names that an XML argument stands for. -/
def argMemberNames (arg : Element) : List String :=
  (if UntypedNewId arg then ["new_id_interface", "new_id_interface_version"] else []) ++
    (arg.get "name").toList

theorem ArgGroupOf.names {node : Element} {group : List WlArg} (h : ArgGroupOf node group) :
    group.map WlArg.name = argMemberNames node := by
  obtain ⟨a, ha, rfl⟩ := argGroupOf_iff.mp h
  rw [argMemberNames, ha.name, List.map_append]
  congr 1
  split <;> rfl

theorem MessageOf.names {kind : MessageKind} {node : Element} {m : WlMessage}
    (h : MessageOf kind node m) :
    m.args.map WlArg.name = (node.childrenTagged "arg").flatMap argMemberNames := by
  obtain ⟨groups, hgroups, hargs⟩ := h.groups
  rw [hargs, List.map_flatten, List.flatMap_def,
    map_eq_map_of_forall₂ hgroups fun _ _ hgroup => hgroup.names.symm]

/-- Copies of a list stand without repetition if there is at most one. -/
theorem nodup_flatMap_ite_iff {α β : Type} (p : α → Prop) [DecidablePred p] (xs : List α)
    {c : List β} (hc : c.Nodup) (hne : c ≠ []) :
    (xs.flatMap fun x => if p x then c else []).Nodup ↔
      (xs.filter fun x => p x).length ≤ 1 := by
  have hcopies : (xs.flatMap fun x => if p x then c else []) =
      (xs.filter fun x => p x).flatMap fun _ => c := by
    induction xs with
    | nil => rfl
    | cons x xs ih =>
        by_cases hx : p x
        · simp [hx, ih]
        · simp [hx, ih]
  rw [hcopies]
  match xs.filter fun x => p x with
  | [] => simp
  | [x] => simpa using hc
  | x :: x' :: rest =>
      obtain ⟨y, hy⟩ := List.exists_mem_of_ne_nil c hne
      apply iff_of_false
      · intro hnodup
        rw [List.flatMap_cons, List.nodup_append] at hnodup
        exact hnodup.2.2 y hy y (by simp [hy]) rfl
      · simp

/-- The names that the generator adds for untyped new ids. -/
def companionNames (args : List Element) : List String :=
  args.flatMap fun arg =>
    if UntypedNewId arg then ["new_id_interface", "new_id_interface_version"] else []

theorem mem_companionNames {args : List Element} {name : String} :
    name ∈ companionNames args ↔ (∃ arg ∈ args, UntypedNewId arg) ∧
      (name = "new_id_interface" ∨ name = "new_id_interface_version") := by
  rw [companionNames, List.mem_flatMap]
  constructor
  · rintro ⟨arg, harg, hname⟩
    by_cases hnew : UntypedNewId arg
    · rw [if_pos hnew] at hname
      exact ⟨⟨arg, harg, hnew⟩, by simpa using hname⟩
    · rw [if_neg hnew] at hname
      cases hname
  · rintro ⟨⟨arg, harg, hnew⟩, hname⟩
    exact ⟨arg, harg, by simpa [if_pos hnew] using hname⟩

theorem nodup_companionNames_iff (args : List Element) :
    (companionNames args).Nodup ↔ (args.filter fun arg => UntypedNewId arg).length ≤ 1 :=
  nodup_flatMap_ite_iff _ args (by decide) (by simp)

theorem flatMap_argMemberNames_perm (args : List Element) :
    (args.flatMap argMemberNames).Perm
      (companionNames args ++ args.filterMap fun arg => arg.get "name") := by
  rw [List.filterMap_eq_flatMap_toList]
  exact (List.flatMap_append_perm args _ _).symm

theorem nodup_memberNames_iff {message : Element} (hnames : (message.names "arg").Nodup) :
    ("opcode" :: (message.childrenTagged "arg").flatMap argMemberNames).Nodup ↔
      MemberNamesApart message := by
  have hperm : ((message.childrenTagged "arg").flatMap argMemberNames).Perm
      (companionNames (message.childrenTagged "arg") ++ message.names "arg") :=
    flatMap_argMemberNames_perm _
  have hopcode : "opcode" ∉ companionNames (message.childrenTagged "arg") := by
    rw [mem_companionNames]
    rintro ⟨-, hname⟩
    exact absurd hname (by decide)
  rw [List.nodup_cons, hperm.mem_iff, hperm.nodup_iff, List.nodup_append', List.mem_append,
    nodup_companionNames_iff, or_iff_right hopcode]
  constructor
  · rintro ⟨hopcode, hsingle, -, hdisjoint⟩
    refine ⟨hopcode, hsingle, ?_⟩
    intro arg harg hnew
    exact ⟨hdisjoint (mem_companionNames.mpr ⟨⟨arg, harg, hnew⟩, .inl rfl⟩),
      hdisjoint (mem_companionNames.mpr ⟨⟨arg, harg, hnew⟩, .inr rfl⟩)⟩
  · intro h
    refine ⟨h.opcode, h.single, hnames, ?_⟩
    intro name hname hown
    obtain ⟨⟨arg, harg, hnew⟩, rfl | rfl⟩ := mem_companionNames.mp hname
    · exact (h.companions arg harg hnew).1 hown
    · exact (h.companions arg harg hnew).2 hown

theorem memberNames_cxxStruct (kind : MessageKind) (interface : String) (opcode : ℕ)
    (m : WlMessage) :
    (m.cxxStruct kind interface opcode).memberNames = "opcode" :: m.args.map WlArg.name := by
  simp [CxxStruct.memberNames, WlMessage.cxxStruct, WlArg.cxxMember, Function.comp_def]

theorem forall_memberNames_iff {kind : MessageKind} {children : List Element}
    {ms : List WlMessage} (h : List.Forall₂ (MessageOf kind) children ms)
    (hnames : ∀ message ∈ children, (message.names "arg").Nodup) (interface : String) :
    (∀ s ∈ ((List.range ms.length).zip ms).map fun (opcode, m) =>
        m.cxxStruct kind interface opcode, s.memberNames.Nodup) ↔
      ∀ message ∈ children, MemberNamesApart message := by
  have hzip : ((List.range ms.length).zip ms).map Prod.snd = ms :=
    List.map_snd_zip (by simp)
  have hboth := (List.forall₂_and_left _ _).mpr ⟨hnames, h⟩
  rw [forall_mem_iff_of_forall₂ hboth fun message m ⟨hdistinct, hm⟩ =>
    show _ ↔ ("opcode" :: m.args.map WlArg.name).Nodup by
      rw [hm.names, nodup_memberNames_iff hdistinct]]
  conv_rhs => rw [← hzip]
  simp only [List.forall_mem_map, memberNames_cxxStruct]

/-! ## The values of enumerators -/

theorem IntAttribute.unique {node : Element} {key : String} {base : ℕ} {value value' : ℤ}
    (h : IntAttribute node key base value) (h' : IntAttribute node key base value') :
    value = value' := by
  obtain ⟨text, htext, hvalue⟩ := h
  obtain ⟨text', htext', hvalue'⟩ := h'
  obtain rfl := Option.some.inj (htext.symm.trans htext')
  exact Except.ok.inj (hvalue.symm.trans hvalue')

theorem EnumOf.values_iff {node : Element} {e : WlEnum} (h : EnumOf node e)
    (interface : String) :
    (∀ enumerator ∈ (e.cxxEnum interface).enumerators,
        (e.cxxEnum interface).underlying.Represents enumerator.value) ↔ ValuesFit node := by
  simp only [WlEnum.cxxEnum, List.forall_mem_map]
  symm
  apply forall_mem_iff_of_forall₂ h.entries
  intro entry e' he
  have hvalue : (∀ value, IntAttribute entry "value" 0 value →
      if node.get "bitfield" = some "true" then 0 ≤ value ∧ value < 2 ^ 32
      else -2 ^ 31 ≤ value ∧ value < 2 ^ 31) ↔
      if node.get "bitfield" = some "true" then 0 ≤ e'.value ∧ e'.value < 2 ^ 32
      else -2 ^ 31 ≤ e'.value ∧ e'.value < 2 ^ 31 := by
    constructor
    · intro hall
      exact hall _ he.value
    · intro hfits value hvalue
      obtain rfl := hvalue.unique he.value
      exact hfits
  rw [hvalue, h.isBitfield]
  by_cases hbitfield : node.get "bitfield" = some "true"
  · simp [hbitfield, CxxType.Represents, WlEnumEntry.cxxEnumerator]
  · simp [hbitfield, CxxType.Represents, WlEnumEntry.cxxEnumerator]

/-! ## Interfaces and protocols -/

theorem InterfaceOf.declarable_iff {node : Element} {i : WlInterface} (h : InterfaceOf node i)
    (hnames : ∀ kind : MessageKind, ∀ message ∈ node.childrenTagged kind.tag,
      (message.names "arg").Nodup) : i.WellFormed ↔ Declarable node := by
  have hrequests := forall_memberNames_iff h.requests (hnames .request) i.name
  have hevents := forall_memberNames_iff h.events (hnames .event) i.name
  have henums : (∀ e ∈ i.cxxEnums, ∀ enumerator ∈ e.enumerators,
      e.underlying.Represents enumerator.value) ↔
        ∀ enum ∈ node.childrenTagged "enum", ValuesFit enum := by
    rw [WlInterface.cxxEnums, List.forall_mem_map]
    exact (forall_mem_iff_of_forall₂ h.enums fun _ _ he => (he.values_iff i.name).symm).symm
  rw [← h.requestOpcodes] at hrequests
  rw [← h.eventOpcodes] at hevents
  constructor
  · rintro ⟨hmembers, hvalues⟩
    refine ⟨?_, henums.mp hvalues⟩
    rintro (_ | _)
    · exact hrequests.mp (hmembers .request)
    · exact hevents.mp (hmembers .event)
  · rintro ⟨hmessages, hfit⟩
    refine ⟨?_, henums.mpr hfit⟩
    rintro (_ | _)
    · exact hrequests.mpr (hmessages .request)
    · exact hevents.mpr (hmessages .event)

/-- What the generator writes for a protocol consists of the enumerations and
structs of its interfaces, and these are well formed exactly if no name of an
argument collides with a name that the generator adds and each value of an entry
fits the type that the generator chooses. -/
theorem Generates.wellFormed_iff {node : Element} {p : WlProtocol} {text : String}
    (h : Generates node p text) (hnames : ArgNamesDistinct node) :
    text = String.join (p.interfaces.map WlInterface.definitionsText) ∧
      ((∀ i ∈ p.interfaces, i.WellFormed) ↔
        ∀ interface ∈ node.childrenTagged "interface", Declarable interface) := by
  refine ⟨WlProtocol.eq_definitionsText h.write, ?_⟩
  obtain ⟨-, -, hp⟩ := parseWlProtocol_eq_ok_iff.mp h.parse
  have hboth := (List.forall₂_and_left _ _).mpr ⟨hnames, hp.interfaces⟩
  exact (forall_mem_iff_of_forall₂ hboth fun _ _ ⟨hdistinct, hi⟩ =>
    (hi.declarable_iff hdistinct).symm).symm

def registryProtocol : Element :=
  ⟨"protocol", [("name", "wayland")], none, 1,
    [registryInterface [⟨"entry", [("name", "none"), ("value", "0")], none, 8, []⟩]]⟩

theorem wellFormed_iff_registryProtocol :
    ∃ p text, Generates registryProtocol p text ∧
      text = String.join (p.interfaces.map WlInterface.definitionsText) ∧
      ((∀ i ∈ p.interfaces, i.WellFormed) ↔
        ∀ interface ∈ registryProtocol.childrenTagged "interface", Declarable interface) := by
  have haccepted : ∃ text, (parseWlProtocol registryProtocol >>= WlProtocol.cxxDefinitions) =
      .ok text :=
    show Accepts (fun node => parseWlProtocol node >>= WlProtocol.cxxDefinitions)
      registryProtocol by decide +kernel
  obtain ⟨text, htext⟩ := haccepted
  obtain ⟨p, hparse, hwrite⟩ := bind_eq_ok_iff.mp htext
  have h : Generates registryProtocol p text := ⟨hparse, hwrite⟩
  have hnames : WellNamed registryProtocol :=
    ⟨by decide +kernel, by decide +kernel, by decide +kernel, by decide +kernel⟩
  exact ⟨p, text, h, h.wellFormed_iff hnames.argNamesDistinct⟩

/-- A request with an argument that is called `opcode`, and an enumeration with a
value of 32 bits. -/
def clashProtocol : Element :=
  ⟨"protocol", [("name", "clash")], none, 1,
    [⟨"interface", [("name", "clash"), ("version", "1")], none, 2,
      [⟨"request", [("name", "send")], none, 3,
        [⟨"description", [("summary", "send an opcode")], none, 4, []⟩,
         ⟨"arg", [("name", "opcode"), ("type", "uint")], none, 5, []⟩]⟩,
       ⟨"enum", [("name", "flag")], none, 6,
        [⟨"entry", [("name", "top"), ("value", "0x80000000")], none, 7, []⟩]⟩]⟩]⟩

def clashInterface : WlInterface where
  name := "clash"
  version := 1
  description := none
  requests := [
    { name := "send"
      messageType := none
      sinceVersion := none
      description := some { summary := "send an opcode", description := none }
      args := [
        { name := "opcode"
          argType := .wlUint
          summary := none
          interface := none
          allowNull := some false
          enum := none
          description := none }] }]
  events := []
  enums := [
    { name := "flag"
      sinceVersion := none
      isBitfield := false
      description := none
      entries := [
        { name := "top"
          value := 0x80000000
          summary := none
          sinceVersion := none
          description := none }] }]
  requestOpcodes := [0]
  eventOpcodes := []

theorem not_wellFormed_clashProtocol :
    ∃ p text, Generates clashProtocol p text ∧ WellNamed clashProtocol ∧
      p.interfaces = [clashInterface] ∧
      (clashInterface.cxxStructs .request).map CxxStruct.memberNames = [["opcode", "opcode"]] ∧
      clashInterface.cxxEnums.map CxxEnum.underlying = [.wint] ∧
      (clashInterface.cxxEnums.flatMap CxxEnum.enumerators).map CxxEnumerator.value = [2 ^ 31] ∧
      ¬CxxType.Represents .wint (2 ^ 31) ∧ ¬∀ i ∈ p.interfaces, i.WellFormed := by
  have haccepted : ∃ text, (parseWlProtocol clashProtocol >>= WlProtocol.cxxDefinitions) =
      .ok text :=
    show Accepts (fun node => parseWlProtocol node >>= WlProtocol.cxxDefinitions)
      clashProtocol by decide +kernel
  have hparse : parseWlProtocol clashProtocol = .ok ⟨"clash", none, none, [clashInterface]⟩ := by
    decide +kernel
  have hmembers : (clashInterface.cxxStructs .request).map CxxStruct.memberNames =
      [["opcode", "opcode"]] := by decide +kernel
  obtain ⟨text, htext⟩ := haccepted
  obtain ⟨p, hp, hwrite⟩ := bind_eq_ok_iff.mp htext
  obtain rfl : _ = p := Except.ok.inj (hparse.symm.trans hp)
  refine ⟨_, text, ⟨hp, hwrite⟩, ⟨by decide +kernel, by decide +kernel, by decide +kernel,
    by decide +kernel⟩, rfl, hmembers, rfl, by decide, by simp [CxxType.Represents],
    fun hwellFormed => ?_⟩
  have hnodup := (hwellFormed clashInterface (List.mem_singleton_self _)).members .request
  have hclash : ["opcode", "opcode"].Nodup :=
    List.forall_mem_map.mpr hnodup _ (hmembers ▸ List.mem_singleton_self _)
  exact absurd hclash (by decide)

end Waylander
