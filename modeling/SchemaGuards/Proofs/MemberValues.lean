import SchemaGuards.Proofs.Expansion.Yields
import SchemaGuards.Proofs.Format.Reading
import SchemaGuards.Proofs.Script.Numbering
import SchemaGuards.Proofs.Validation
import SchemaGuards.Resolution

/-!
# Literals of members

A reference to a member of an enumeration that is not registered is written as a literal. Wherever a script gives the
member a value in the written body of the enumeration, the literal is this value.
-/
namespace SchemaGuards
open Script TypeExpr

/-- Names of valid enumerations are distinct, so that each is found at its position. -/
theorem Enumeration.position?_of_validate {content : Enumeration} (h : content.validate = .ok ()) {index : Nat}
    {member : Member} (hmember : content.members[index]? = some member) : content.position? member.name = some index := by
  have hdistinct : (content.members.map Member.name).Nodup := by
    rw [validate] at h
    split at h
    · cases h
    · next hnone => exact (firstRepeated?_eq_none_iff.1 hnone).1
  obtain ⟨hindex, rfl⟩ := List.getElem?_eq_some_iff.1 hmember
  rw [position?, List.findIdx?_eq_some_iff_getElem]
  refine ⟨hindex, decide_eq_true rfl, fun earlier hearlier => ?_⟩
  rw [Bool.not_eq_true, decide_eq_false_iff_not]
  have hnames := List.pairwise_iff_getElem.1 hdistinct earlier index (by simp; omega) (by simpa using hindex) hearlier
  simpa using hnames

namespace Workspace
variable {workspace : Workspace} {context : Context}

theorem registered?_member (owner : NodeId) (name : String) : workspace.registered? (.member owner name) = none := by
  simp [registered?, Node.identity?, Node.name?, Node.scope, Node.decl?]

theorem resolve_enumeration {id : NodeId} {content : Enumeration}
    (hnode : workspace.graph.node? id = some (.enumeration content))
    (hreference : workspace.reference? context.locked id (.enumeration content) = none) (hcycle : id ∉ context.ancestry) :
    ∃ body, (workspace.resolve .type id context).outcome = .ok body ∧
      body.text = layout (.enumeration (content.members.map (EnumItem.ofMember (workspace.typeStyle context)))) := by
  refine ⟨workspace.write .type id context (.enumeration content.members), ?_, rfl⟩
  rw [resolve, expand_node workspace .type hnode hreference hcycle]
  rfl

/-- A reference to a member of an enumeration that is not registered. -/
theorem resolve_member {id owner : NodeId} {content : Enumeration} {name : String} {index : Nat}
    (hnode : workspace.graph.node? id = some (.member owner name))
    (howner : workspace.graph.node? owner = some (.enumeration content)) (hposition : content.position? name = some index)
    (hregistered : workspace.registered? (.enumeration content) = none) (hcycle : id ∉ context.ancestry) :
    ∃ reference, (workspace.resolve .type id context).outcome = .ok reference ∧
      reference.text = Layout.text (content.literal workspace.config.nominalEnums index) := by
  have hreference : workspace.reference? context.locked id (.member owner name) = none :=
    reference?_of_isExpanded ⟨hnode, fun _ => registered?_member owner name⟩
  have hexpand : workspace.expandMember .type owner name =
      pure (.member none name (content.literal workspace.config.nominalEnums index)) := by
    rw [expandMember, howner]
    simp only [hposition, hregistered]
  refine ⟨workspace.write .type id context (.member none name (content.literal workspace.config.nominalEnums index)),
    ?_, rfl⟩
  rw [resolve, expand_node workspace .type hnode hreference hcycle, expandNode, hexpand]
  rfl

end Workspace

/-- A script gives every member of a written body a value if values are nominal. Otherwise it gives one to the members
that are numbered: those with a text, those with a number that scripts accept, and those without a value whose last
value in front, if there is any, is such a number. A reference to a member of an enumeration that is not registered is
always written as a literal, and where the member has a value, the literal is read as this value. -/
theorem resolve_memberLiteral {graph : Graph} (hvalid : graph.validate = .ok ()) {owner : NodeId} {content : Enumeration}
    (howner : graph.node? owner = some (.enumeration content)) (hwhole : ∀ member ∈ content.members, member.IsWhole)
    (config : Config) {registry : Registry} {context : Context}
    (hreference : Workspace.reference? ⟨graph, registry, config⟩ context.locked owner (.enumeration content) = none)
    (hcycle : owner ∉ context.ancestry) :
    let items := content.members.map (EnumItem.ofMember (Workspace.typeStyle ⟨graph, registry, config⟩ context))
    (∃ body, (Workspace.resolve ⟨graph, registry, config⟩ .type owner context).outcome = .ok body ∧
      body.text = layout (.enumeration items)) ∧
    ∀ index member, content.members[index]? = some member →
      ((EnumItem.valueAt? items index).isSome ↔
        config.nominalEnums = true ∨ member.isNumbered (content.members.take index) = true) ∧
      ∀ elsewhere id place, graph.node? id = some (.member owner member.name) →
        Workspace.registered? ⟨graph, elsewhere, config⟩ (.enumeration content) = none → id ∉ place.ancestry →
        ∃ reference literal, (Workspace.resolve ⟨graph, elsewhere, config⟩ .type id place).outcome = .ok reference ∧
          reference.text = Layout.text literal ∧
          ∀ constant, EnumItem.valueAt? items index = some constant → readLiteral? literal = some constant := by
  intro items
  refine ⟨Workspace.resolve_enumeration howner hreference hcycle, fun index member hmember => ⟨?_, ?_⟩⟩
  · cases hnominal : config.nominalEnums with
    | true =>
      have hstyle : (Workspace.typeStyle ⟨graph, registry, config⟩ context).nominalEnums = true := hnominal
      obtain ⟨text, htext⟩ := EnumItem.valueAt?_nominal hstyle hmember
      simp [items, htext]
    | false =>
      rw [EnumItem.valueAt?_isSome_iff hwhole hnominal hmember]
      simp
  · intro elsewhere id place hid hregistered houtside
    have hposition := Enumeration.position?_of_validate (Graph.validate_enumeration hvalid howner) hmember
    obtain ⟨reference, hresolve, htext⟩ := Workspace.resolve_member hid howner hposition hregistered houtside
    refine ⟨reference, _, hresolve, htext, fun constant hconstant => ?_⟩
    -- the style of the body is known from the value, not from the literal
    have hliteral := EnumItem.readLiteral?_literal hwhole hmember hconstant
    exact hliteral

namespace Sample
open Text

/-- A property of a member of an enumeration outside the configured root. -/
def memberText (members : String) : String :=
  "<schema rootNamespaces=\"A\"><namespace name=\"A\"><model name=\"M\"><property name=\"p\" type=\"B.E.b\"/></model>" ++
    "</namespace><namespace name=\"B\"><enum name=\"E\">" ++ members ++ "</enum></namespace></schema>"

def memberEnumeration (members : List Member) : Enumeration := ⟨{ name := some "E", scope := ["B"] }, members⟩

def memberGraph (members : List Member) : Graph where
  roots := ["A"]
  nodes := #[.model { decl := { name := some "M", scope := ["A"] }, properties := [{ name := "p", type := 2 }] },
             .enumeration (memberEnumeration members),
             .member 1 "b"]
  declarations := [0, 1]
  names := [("B.E", 1), ("A.M", 0)]

def memberRegistry : Registry := [⟨⟨.model, "M", ["A"]⟩, 0⟩]

def memberWorkspace (members : List Member) : Workspace := ⟨memberGraph members, memberRegistry, {}⟩

theorem node?_memberWorkspace (members : List Member) :
    (memberWorkspace members).graph.node? 1 = some (.enumeration (memberEnumeration members)) := rfl

theorem node?_memberReference (members : List Member) :
    (memberWorkspace members).graph.node? 2 = some (.member 1 "b") := rfl

def unnumbered : List Member := [{ name := "a", value := some (.string "x") }, { name := "b" }]

theorem ofText_unnumbered : Graph.ofText (memberText "<member name=\"a\" value=\"x\"/><member name=\"b\"/>") =
    .ok (memberGraph unnumbered) :=
  (Graph.ofText_eq (toList_append (toList_append (toList_append (toList_literal rfl) (toList_literal rfl))
    (toList_literal rfl)) (toList_literal rfl)) (by decide)).trans (by decide +kernel)

def numbered : List Member := [{ name := "a", value := some (.number "1e1") }, { name := "b" }]

theorem isWhole_numbered : ∀ member ∈ numbered, member.IsWhole := by
  intro member hmember text htext
  rcases List.mem_cons.1 hmember with rfl | hmember
  · cases htext
    exact ⟨⟨false, ['1'], [], 1⟩, 10, by decide, ⟨by decide, by decide⟩, by decide⟩
  · cases List.mem_singleton.1 hmember
    cases htext

end Sample

/-- A member behind ten is eleven, and is written so. -/
theorem resolve_memberLiteral_numbered : ∃ body reference literal,
    ((Sample.memberWorkspace Sample.numbered).resolve .type 1 (.ofScope ["B"])).outcome = .ok body ∧
      body.text = layout (.enumeration [⟨none, "a", some "1e1"⟩, ⟨none, "b", none⟩]) ∧
      ((Sample.memberWorkspace Sample.numbered).resolve .type 2 (.ofScope ["A"])).outcome = .ok reference ∧
      reference.text = Layout.text literal ∧ readLiteral? literal = some (.number (Decimal.Binary64.ofInt 11)) := by
  have hvalid : (Sample.memberGraph Sample.numbered).validate = .ok () := by decide
  have hreference : (Sample.memberWorkspace Sample.numbered).reference? (Context.ofScope ["B"]).locked 1
      (.enumeration (Sample.memberEnumeration Sample.numbered)) = none := rfl
  have houtside : 1 ∉ (Context.ofScope ["B"]).ancestry := by decide
  obtain ⟨⟨body, hbody, htext⟩, hmembers⟩ := resolve_memberLiteral hvalid (Sample.node?_memberWorkspace Sample.numbered)
    Sample.isWhole_numbered {} hreference houtside
  obtain ⟨-, hreferences⟩ := hmembers 1 { name := "b" } rfl
  obtain ⟨reference, literal, hresolve, hliteral, hvalue⟩ := hreferences Sample.memberRegistry 2 (.ofScope ["A"])
    (Sample.node?_memberReference Sample.numbered) (by decide) (by decide)
  have hitems : Sample.numbered.map (EnumItem.ofMember ((Sample.memberWorkspace Sample.numbered).typeStyle
      (.ofScope ["B"]))) = [⟨none, "a", some "1e1"⟩, ⟨none, "b", none⟩] := by decide
  have heleven : EnumItem.valueAt? [⟨none, "a", some "1e1"⟩, ⟨none, "b", none⟩] 1 =
      some (.number (Decimal.Binary64.ofInt 11)) := by decide +kernel
  refine ⟨body, reference, literal, hbody, ?_, hresolve, hliteral, hvalue _ ?_⟩
  · rw [← hitems]
    exact htext
  · rw [← heleven, ← hitems]
    rfl

/-- A member without a value behind a text has no value in the body, but its literal is a number. -/
theorem resolve_unnumberedMember : ∃ graph registry body reference,
    Graph.ofText (Sample.memberText "<member name=\"a\" value=\"x\"/><member name=\"b\"/>") = .ok graph ∧
      graph.validate = .ok () ∧ Registry.ofGraph graph = .ok registry ∧
      graph.node? 1 = some (.enumeration (Sample.memberEnumeration Sample.unnumbered)) ∧
      (∀ member ∈ Sample.unnumbered, member.IsWhole) ∧
      (Workspace.resolve ⟨graph, registry, {}⟩ .type 1 (.ofScope ["B"])).outcome = .ok body ∧
      body.text = layout (.enumeration [⟨none, "a", some "'x'"⟩, ⟨none, "b", none⟩]) ∧
      EnumItem.valueAt? [⟨none, "a", some "'x'"⟩, ⟨none, "b", none⟩] 1 = none ∧
      (Workspace.resolve ⟨graph, registry, {}⟩ .type 2 (.ofScope ["A"])).outcome = .ok reference ∧
      reference.text = Layout.text "1" := by
  have hunregistered : Workspace.registered? (Sample.memberWorkspace Sample.unnumbered)
      (.enumeration (Sample.memberEnumeration Sample.unnumbered)) = none := by decide
  have hposition : (Sample.memberEnumeration Sample.unnumbered).position? "b" = some 1 := by decide
  have houtsideBody : 1 ∉ (Context.ofScope ["B"]).ancestry := by decide
  have houtside : 2 ∉ (Context.ofScope ["A"]).ancestry := by decide
  obtain ⟨body, hbody, htext⟩ := Workspace.resolve_enumeration (Sample.node?_memberWorkspace Sample.unnumbered) rfl
    houtsideBody
  obtain ⟨reference, hreference, hliteral⟩ := Workspace.resolve_member (Sample.node?_memberReference Sample.unnumbered)
    (Sample.node?_memberWorkspace Sample.unnumbered) hposition hunregistered houtside
  have hone : (Sample.memberEnumeration Sample.unnumbered).literal
      (Sample.memberWorkspace Sample.unnumbered).config.nominalEnums 1 = "1" := by decide +kernel
  have hvalid : (Sample.memberGraph Sample.unnumbered).validate = .ok () := by decide
  have hregistry : Registry.ofGraph (Sample.memberGraph Sample.unnumbered) = .ok Sample.memberRegistry := by decide
  have hwhole : ∀ member ∈ Sample.unnumbered, member.IsWhole := by simp [Sample.unnumbered, Member.IsWhole]
  have hitems : Sample.unnumbered.map (EnumItem.ofMember ((Sample.memberWorkspace Sample.unnumbered).typeStyle
      (.ofScope ["B"]))) = [⟨none, "a", some "'x'"⟩, ⟨none, "b", none⟩] := by decide
  have hvalue : EnumItem.valueAt? [⟨none, "a", some "'x'"⟩, ⟨none, "b", none⟩] 1 = none := by decide
  rw [Sample.memberEnumeration, hitems] at htext
  rw [hone] at hliteral
  exact ⟨_, _, body, reference, Sample.ofText_unnumbered, hvalid, hregistry, rfl, hwhole, hbody, htext, hvalue,
    hreference, hliteral⟩

end SchemaGuards
