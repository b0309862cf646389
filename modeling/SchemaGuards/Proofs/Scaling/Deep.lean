import SchemaGuards.Proofs.Decimal.Writing
import SchemaGuards.Proofs.Drafts
import SchemaGuards.Proofs.Files
import SchemaGuards.Proofs.Imports
import SchemaGuards.Proofs.Format.Writing
import SchemaGuards.Sample

/-!
# Deep documents

A deep document is one model inside another down to some depth, and the innermost refers back to the outermost,
which is the only one with a name. Text, tree, draft, graph and expansion all go down level by level, so that
everything is shown by induction on the number of levels that remain. The expansion ends at the name of the
outermost model, and the written type is one object type inside another.
-/
namespace SchemaGuards

theorem Layout.prettyAt_block_singleton (level : Nat) (item : Layout) : prettyAt level (block [item]) =
    "\x7b" ++ lineBreak (level + 1) ++ prettyAt (level + 1) item ++ lineBreak level ++ "\x7d" := by
  simp [block, nested, softLine, join, prettyFragment, String.append_assoc]

theorem Workspace.expandModel_single {workspace : Workspace} {mode : Mode} {child : NodeId → Traced Expansion}
    {decl : Decl} {property : Property NodeId} {expansion : Expansion}
    (hindexed : decl.name.bind Indexed.ofName? = none)
    (hnever : (workspace.graph.node? property.type).any Node.isNever = false)
    (h : (workspace.expandModel mode { decl, properties := [property] } child).outcome = .ok expansion) :
    ∃ type, (child property.type).outcome = .ok type ∧
      expansion = .model none [⟨property.name, type, property.optional, property.visibility, property.doc⟩] := by
  simp only [expandModel, Model.indexed?, hindexed] at h
  obtain ⟨base, hbase, h⟩ := Traced.outcome_bind_ok h
  obtain ⟨properties, hproperties, h⟩ := Traced.outcome_bind_ok h
  cases hbase
  cases h
  obtain _ | ⟨hproperty, _ | _⟩ := Traced.outcome_mapM_ok hproperties
  simp only [expandProperty, hnever, Bool.and_false] at hproperty
  obtain ⟨type, htype, hproperty⟩ := Traced.outcome_bind_ok hproperty
  cases hproperty
  exact ⟨type, htype, rfl⟩

namespace Sample
open Draft Markup

section Writing

/-- What stands inside a model of a deep document, from a level on. -/
def deepChildren (level : Nat) : Nat → List Tree
  | 0 => [⟨"property", [⟨"name", "back"⟩, ⟨"type", "Root"⟩], []⟩]
  | remaining + 1 =>
    [⟨"property", [⟨"name", "l" ++ toString level⟩, ⟨"optional", "true"⟩],
      [⟨"model", [], deepChildren (level + 1) remaining⟩]⟩]

def deepTree (depth : Nat) : Tree :=
  ⟨"schema", [⟨"rootNamespaces", "Deep"⟩], [⟨"namespace", [⟨"name", "Deep"⟩],
    [⟨"model", [⟨"name", "Root"⟩], deepChildren 0 depth⟩]⟩]⟩

def deepText (level : Nat) : Nat → String
  | 0 => "<property name=\"back\" type=\"Root\"/>\n"
  | remaining + 1 => deepLevel level ++ deepText (level + 1) remaining ++ "</model></property>\n"

theorem deepText_eq (level remaining : Nat) :
    String.join ((List.range' level remaining).map deepLevel) ++ "<property name=\"back\" type=\"Root\"/>\n" ++
      String.join (List.replicate remaining "</model></property>\n") = deepText level remaining := by
  induction remaining generalizing level with
  | zero => rw [deepText, List.range'_zero, List.map_nil, List.replicate_zero, String.join_nil, String.empty_append,
      String.append_empty]
  | succ remaining ih =>
    rw [deepText, ← ih, List.range'_succ, List.map_cons, String.join_cons, List.replicate_succ', String.join_append,
      String.join_cons, String.join_nil, String.append_empty]
    simp only [String.append_assoc]

theorem deepText_writes (level remaining : Nat) :
    Writes (deepText level remaining) (deepChildren level remaining) := by
  induction remaining generalizing level with
  | zero =>
    have hback : Writes _ [⟨"property", [⟨"name", "back"⟩, ⟨"type", "Root"⟩], []⟩] :=
      .leaf (by decide) ⟨by decide, by decide, by decide⟩
    rw [deepText, deepChildren]
    exact hback.line.of_toList (by decide)
  | succ remaining ih =>
    have hmodel : Writes _ [⟨"model", [], _⟩] := .element (by decide) isPlain_nil (ih (level + 1)).nextLine
    have hname : IsPlain [⟨"name", "l" ++ toString level⟩, ⟨"optional", "true"⟩] :=
      (isPlain_one (by decide) (by decide)).cons (by decide) (isPlainValue_numbered (by decide) level) (by simp)
    have hproperty : Writes _ [⟨"property", _, _⟩] := .element (by decide) hname hmodel
    rw [deepText, deepChildren]
    refine hproperty.line.of_toList ?_
    unfold deepLevel
    simp only [toList_startTag, toList_endTag, toList_attributesText, List.flatMap_cons, List.flatMap_nil,
      String.toList_append, List.append_assoc]
    simp only [String.reduceToList, List.cons_append, List.nil_append, List.append_assoc]

theorem deep_writes (depth : Nat) : Writes (deep depth) [deepTree depth] := by
  have hroot : Writes _ [⟨"model", [⟨"name", "Root"⟩], _⟩] :=
    .element (by decide) (isPlain_one (by decide) (by decide)) (deepText_writes 0 depth).nextLine
  have hnamespace : Writes _ [⟨"namespace", [⟨"name", "Deep"⟩], _⟩] :=
    .element (by decide) (isPlain_one (by decide) (by decide)) hroot.line.nextLine
  have hschema : Writes _ [deepTree depth] :=
    .element (by decide) (isPlain_one (by decide) (by decide)) hnamespace.line.nextLine
  refine hschema.line.of_toList ?_
  unfold deep
  simp only [← deepText_eq, ← List.range_eq_range']
  simp only [toList_startTag, toList_endTag, toList_attributesText, List.flatMap_cons, List.flatMap_nil,
    String.toList_append, List.append_assoc]
  simp only [String.reduceToList, List.cons_append, List.nil_append]

theorem deepTree_writtenIn (depth : Nat) : (deepTree depth).WrittenIn (deep depth) := by
  apply (deep_writes depth).writtenIn
  unfold deep
  simp only [String.toList_append, List.append_assoc]
  simp only [String.reduceToList, List.cons_append, List.head?_cons]
  decide

end Writing

section Reading

def deepProperties (level : Nat) : Nat → List (Property Form)
  | 0 => [{ name := "back", type := .named "Root" }]
  | remaining + 1 =>
    [{ name := "l" ++ toString level, type := .model (deepProperties (level + 1) remaining), optional := true }]

def deepDeclaration (depth : Nat) : Declaration := ⟨"Root", ["Deep"], none, .model none (deepProperties 0 depth)⟩

def deepDraft (depth : Nat) : Draft := ⟨["Deep"], ⟨[deepDeclaration depth], []⟩⟩

theorem writes_deepProperties (level remaining : Nat) :
    List.Forall₂ WritesProperty (deepChildren level remaining) (deepProperties level remaining) := by
  induction remaining generalizing level with
  | zero => exact .cons (.intro rfl (.named rfl) (WritesFlag.absent rfl) .none) .nil
  | succ remaining ih =>
    have hproperty : WritesProperty ⟨"property", [⟨"name", "l" ++ toString level⟩, ⟨"optional", "true"⟩],
        [⟨"model", [], deepChildren (level + 1) remaining⟩]⟩ _ :=
      .intro rfl (.nested rfl (.model (ih (level + 1)))) (WritesFlag.present rfl) .none
    exact .cons hproperty .nil

theorem writesSchema_deepTree (depth : Nat) : WritesSchema (deepTree depth) (deepDraft depth) := by
  have hroots : readRoots [⟨"rootNamespaces", "Deep"⟩] = ["Deep"] := by decide
  have hmodel : WritesItem ["Deep"] ⟨"model", [⟨"name", "Root"⟩], deepChildren 0 depth⟩
      ⟨[deepDeclaration depth], []⟩ :=
    .declaration (.intro rfl (.model (writes_deepProperties 0 depth)))
  have hscope : Text.splitText '.' "Deep" = ["Deep"] := by decide
  have hschema : WritesSchema (deepTree depth) ⟨readRoots [⟨"rootNamespaces", "Deep"⟩], (deepDraft depth).contents⟩ :=
    .intro (.cons rfl (WritesItem.outermost hscope (.cons hmodel .nil)) .nil)
  rwa [hroots] at hschema

/-- The text of a deep document is read as its draft. -/
theorem ofText_deep (depth : Nat) : Draft.ofText (deep depth) = .ok (deepDraft depth) := by
  rw [ofText_writtenIn (deepTree_writtenIn depth), readSchema_eq_ok]
  exact writesSchema_deepTree depth

end Reading

section Drafts

theorem names_root (depth : Nat) : (deepDraft depth).contents.Names ["Deep"] "Root" (.declaration 0) := by
  refine .declaration 0 (fun value => by cases value <;> decide) ⟨1, Nat.le_refl 1, ?_, ?_⟩
  · exact ⟨deepDeclaration depth, rfl, ⟨(by decide : "Root" ≠ ""), List.cons_ne_nil _ _⟩, rfl⟩
  · intro deeper hlt hle
    exact absurd hle (Nat.not_le_of_lt hlt)

theorem deep_isConsistent (depth : Nat) : (deepDraft depth).contents.IsConsistent := by
  have hproperties : ∀ level remaining, ∀ property ∈ deepProperties level remaining,
      property.type.IsKnown (deepDraft depth).contents ["Deep"] := by
    intro level remaining
    induction remaining generalizing level with
    | zero =>
      rw [deepProperties, List.forall_mem_singleton]
      exact .named "Root" _ (names_root depth)
    | succ remaining ih =>
      rw [deepProperties, List.forall_mem_singleton]
      exact .model _ (ih (level + 1))
  refine ⟨List.pairwise_singleton _ _, ?_, List.forall_mem_nil _⟩
  intro declaration hmem
  cases List.mem_singleton.1 hmem
  exact ⟨by simp, hproperties 0 depth⟩

theorem deep_isValid (depth : Nat) : (deepDraft depth).contents.IsValid := by
  have hproperties : ∀ level remaining, ((deepProperties level remaining).map Property.name).Nodup ∧
      ∀ property ∈ deepProperties level remaining, property.type.IsValid := by
    intro level remaining
    induction remaining generalizing level with
    | zero =>
      rw [deepProperties, List.forall_mem_singleton]
      exact ⟨by simp, .named "Root"⟩
    | succ remaining ih =>
      rw [deepProperties, List.forall_mem_singleton]
      exact ⟨by simp, .model _ (ih (level + 1)).1 (ih (level + 1)).2⟩
  refine ⟨?_, List.forall_mem_nil _⟩
  intro declaration hmem
  cases List.mem_singleton.1 hmem
  exact ⟨(by decide : "" ∉ ["Deep"]), (by decide : Indexed.ofName? "Root" = none), hproperties 0 depth⟩

theorem deep_isWritable (depth : Nat) : (deepDraft depth).IsWritable := by
  have hproperties : ∀ level remaining, propertiesKinds (deepProperties level remaining) = [] := by
    intro level remaining
    induction remaining generalizing level with
    | zero => rfl
    | succ remaining ih => simp [deepProperties, propertiesKinds, propertyKinds, Form.unsupportedKinds, ih]
  constructor
  · simp [Contents.unsupportedKinds, deepDraft, deepDeclaration, Body.unsupportedKinds, hproperties]
  · intro declaration hmem
    cases List.mem_singleton.1 hmem
    rfl

theorem exists_generate_deep {config : Config} (hconfig : config.validate = .ok ()) (depth : Nat) :
    ∃ output, generate (deep depth) config = .ok output := by
  rw [generate_isOk_iff (ofText_deep depth) (deep_isWritable depth)]
  exact ⟨deep_isConsistent depth, deep_isValid depth, hconfig⟩

end Drafts

section Graphs

def deepEntry : Entry := ⟨⟨.model, "Root", ["Deep"]⟩, 0⟩

/-- Properties that lead down through a number of models and from the last one back to the outermost. -/
def Nests (graph : Graph) (level : Nat) : Nat → List (Property NodeId) → Prop
  | 0, linked => linked = [{ name := "back", type := 0 }]
  | remaining + 1, linked => ∃ id properties,
      linked = [{ name := "l" ++ toString level, type := id, optional := true }] ∧
        graph.node? id = some (.model { decl := {}, properties }) ∧ Nests graph (level + 1) remaining properties

variable {graph : Graph} {depth : Nat}

theorem nests_of_reads (hlink : (deepDraft depth).link = .ok graph) {level remaining : Nat}
    {linked : List (Property NodeId)}
    (h : List.Forall₂ (ReadsProperty (deepDraft depth).contents graph ["Deep"])
      (deepProperties level remaining) linked) :
    Nests graph level remaining linked := by
  induction remaining generalizing level linked with
  | zero =>
    rw [deepProperties] at h
    obtain _ | ⟨hproperty, _ | _⟩ := h
    cases hproperty with
    | mk _ _ _ _ _ id hid =>
      cases hid with
      | named _ target _ htarget hid =>
        obtain ⟨linker, _, hfaithful⟩ := (Draft.linkedInto hlink).faithful
        cases htarget.unique hfaithful.isDistinct (names_root depth)
        cases hid
        rfl
  | succ remaining ih =>
    rw [deepProperties] at h
    obtain _ | ⟨hproperty, _ | _⟩ := h
    cases hproperty with
    | mk _ _ _ _ _ id hid =>
      cases hid with
      | model _ properties _ hid hproperties => exact ⟨id, properties, rfl, hid.2, ih hproperties⟩

/-- The outermost model of a deep document's graph. -/
theorem exists_root (hlink : (deepDraft depth).link = .ok graph) :
    ∃ linked, graph.node? 0 = some (.model { decl := ⟨some "Root", ["Deep"], none⟩, properties := linked }) ∧
      Nests graph 0 depth linked := by
  obtain ⟨node, hnode, hreads⟩ := (Draft.linkedInto hlink).declared 0 (deepDeclaration depth) rfl
  cases hreads with
  | model base properties extended linked hbody hbase hproperties =>
    cases hbody
    cases hbase
    exact ⟨linked, hnode, nests_of_reads hlink hproperties⟩
  | enumeration _ hbody => cases hbody
  | union _ _ hbody => cases hbody
  | scalar _ _ hbody => cases hbody

theorem ofGraph_deep (hlink : (deepDraft depth).link = .ok graph) : Registry.ofGraph graph = .ok [deepEntry] := by
  obtain ⟨hlinked, hroots⟩ := Draft.link_isLinked hlink
  obtain ⟨linker, rfl, hfaithful⟩ := (Draft.linkedInto hlink).faithful
  obtain ⟨linked, hroot, _⟩ := exists_root hlink
  have hdeclarations : linker.graph.declarations = [0] := hfaithful.declarations_eq
  have hentry : linker.graph.registrable? 0 = some deepEntry := by
    simp only [Graph.registrable?, hroot, hroots]
    rfl
  rw [hlinked.ofGraph_eq, hdeclarations]
  simp [hentry]

/-- No property of a deep document is restricted. -/
theorem reachesRestriction_deep (hlink : (deepDraft depth).link = .ok graph) :
    graph.reachesRestriction 0 = false := by
  obtain ⟨linked, hroot, hnests⟩ := exists_root hlink
  rw [← Bool.not_eq_true, Graph.reachesRestriction_iff]
  have hplaces : graph.IsUnrestricted [] (fun id => ∃ level remaining decl properties,
      graph.node? id = some (.model { decl, properties }) ∧ Nests graph level remaining properties) := by
    rintro id node ⟨level, remaining, decl, properties, hid, hinside⟩ hnode _
    cases hid.symm.trans hnode
    cases remaining with
    | zero =>
      cases hinside
      refine ⟨rfl, ?_⟩
      intro next hnext
      cases List.mem_singleton.1 hnext
      exact ⟨0, depth, _, linked, hroot, hnests⟩
    | succ remaining =>
      obtain ⟨part, inner, rfl, hpart, hinner⟩ := hinside
      refine ⟨rfl, ?_⟩
      intro next hnext
      cases List.mem_singleton.1 hnext
      exact ⟨level + 1, remaining, {}, inner, hpart, hinner⟩
  exact hplaces.not_leads ⟨0, depth, _, linked, hroot, hnests⟩

end Graphs

/-- The workspace of a deep document. -/
structure IsDeep (workspace : Workspace) (depth : Nat) : Prop where
  linked : (deepDraft depth).link = .ok workspace.graph
  registry_eq : workspace.registry = [deepEntry]

section Expansions

def deepExpansions (level : Nat) : Nat → List (Property Expansion)
  | 0 => [{ name := "back", type := .reference deepEntry false }]
  | remaining + 1 =>
    [{ name := "l" ++ toString level, type := .model none (deepExpansions (level + 1) remaining), optional := true }]

variable {workspace : Workspace} {mode : Mode} {depth : Nat}

/-- An expansion goes down to the innermost model, where it ends at the reference to the outermost. -/
theorem IsDeep.expand_nests (hdeep : IsDeep workspace depth) {level remaining : Nat} {locked : Bool}
    {ancestry : List NodeId} {id : NodeId} {decl : Decl} {properties : List (Property NodeId)} {expansion : Expansion}
    (hid : workspace.IsExpanded locked id (.model { decl, properties }))
    (hindexed : decl.name.bind Indexed.ofName? = none) (hnests : Nests workspace.graph level remaining properties)
    (h : (workspace.expand mode locked ancestry id).outcome = .ok expansion) :
    expansion = .model none (deepExpansions level remaining) := by
  obtain ⟨linked, hroot, _⟩ := exists_root hdeep.linked
  induction remaining generalizing level locked ancestry id decl properties expansion with
  | zero =>
    cases hnests
    have hnever : (workspace.graph.node? 0).any Node.isNever = false := by
      rw [hroot]
      rfl
    obtain ⟨type, htype, rfl⟩ :=
      Workspace.expandModel_single hindexed hnever (Workspace.expandNode_of_expand hid h)
    have hreference : workspace.reference? true 0
        (.model { decl := ⟨some "Root", ["Deep"], none⟩, properties := linked }) =
          some (.reference deepEntry false) := by
      rw [Workspace.reference?, Workspace.registered?, hdeep.registry_eq, reachesRestriction_deep hdeep.linked]
      rfl
    rw [Workspace.expand_reference workspace mode hroot hreference] at htype
    cases htype
    rfl
  | succ remaining ih =>
    obtain ⟨part, inner, rfl, hpart, hinner⟩ := hnests
    have hnever : (workspace.graph.node? part).any Node.isNever = false := by
      rw [hpart]
      rfl
    obtain ⟨type, htype, rfl⟩ :=
      Workspace.expandModel_single hindexed hnever (Workspace.expandNode_of_expand hid h)
    cases ih ⟨hpart, fun _ => rfl⟩ rfl hinner htype
    rfl

/-- The expansion of the outermost model itself. -/
theorem IsDeep.expand_root (hdeep : IsDeep workspace depth) {expansion : Expansion}
    (h : (workspace.expand mode false [] 0).outcome = .ok expansion) :
    expansion = .model none (deepExpansions 0 depth) := by
  obtain ⟨linked, hroot, hnests⟩ := exists_root hdeep.linked
  have hid : workspace.IsExpanded false 0 _ := ⟨hroot, fun hlocked => absurd hlocked Bool.false_ne_true⟩
  exact hdeep.expand_nests hid (by decide) hnests h

end Expansions

section Files
open Emission

/-- The written type of a model of a deep document from a level on: an object type for every model, one inside the
other, and in the innermost the name of the outermost. -/
def deepType (level : Nat) : Nat → String
  | 0 => "\x7b" ++ Layout.lineBreak (level + 1) ++ "back: Root" ++ Layout.lineBreak level ++ "\x7d"
  | remaining + 1 =>
    "\x7b" ++ Layout.lineBreak (level + 1) ++ "l" ++ toString level ++ "?: " ++ deepType (level + 1) remaining ++
      Layout.lineBreak level ++ "\x7d"

theorem isIdentifier_numbered (n : Nat) : Text.isIdentifier ("l" ++ toString n) = true := by
  have hdigits : ∀ c ∈ Nat.toDigits 10 n, Text.isIdentifierRest c = true := by
    intro c hc
    have hdigit := Nat.isDigit_of_mem_toDigits (by decide) (by decide) hc
    simp [Text.isIdentifierRest, Char.isAlphanum, hdigit]
  rw [Text.isIdentifier, String.toList_append, Decimal.toList_toString]
  simpa [Text.isIdentifierChars, Text.isIdentifierStart] using hdigits

variable {style : TypeStyle} {workspace : Workspace} {config : Config} {depth : Nat}

theorem restrictions_deep (level remaining : Nat) :
    Expansion.propertyRestrictions (deepExpansions level remaining) = [] := by
  induction remaining generalizing level with
  | zero => rfl
  | succ remaining ih =>
    rw [deepExpansions, Expansion.propertyRestrictions, Expansion.restrictions, ih]
    rfl

theorem met_deep (mode : Mode) (level remaining : Nat) :
    Expansion.propertyMet mode (deepExpansions level remaining) = [deepEntry] := by
  induction remaining generalizing level with
  | zero => cases mode <;> rfl
  | succ remaining ih =>
    rw [deepExpansions, Expansion.propertyMet, Expansion.met, ih]
    rfl

/-- The expansions of a level are written as an object type with the type of the next level inside. -/
theorem prettyAt_deep (hstyle : style.target = some ["Deep"]) (level remaining : Nat) : Layout.prettyAt level
    (TypeExpr.layout (.object none (TypeExpr.fieldsOf style (deepExpansions level remaining)))) =
      deepType level remaining := by
  have hdoc : (if style.emitDocs then none else none : Option String) = none := ite_self none
  induction remaining generalizing level with
  | zero =>
    have hkey : Text.propertyKey "back" = "back" := by decide
    have hname : (Reference.ofEntry style.target deepEntry).text = "Root" := by
      rw [hstyle]
      decide
    simp only [deepExpansions, TypeExpr.fieldsOf, TypeExpr.layout, TypeExpr.fieldLayouts, TypeExpr.ofExpansion,
      Layout.prettyAt_block_singleton, hdoc, TypeExpr.docLayout, hkey, hname, Layout.prettyAt_append,
      Layout.prettyAt_text, Layout.prettyAt_nil, deepType]
    simp [String.append_assoc]
  | succ remaining ih =>
    have hkey : Text.propertyKey ("l" ++ toString level) = "l" ++ toString level :=
      if_pos (isIdentifier_numbered level)
    have hinside : TypeExpr.ofExpansion style true (.model none (deepExpansions (level + 1) remaining)) =
        .object none (TypeExpr.fieldsOf style (deepExpansions (level + 1) remaining)) := by
      rw [TypeExpr.ofExpansion, TypeExpr.filter, Bool.or_true, if_pos rfl]
    simp only [deepExpansions, TypeExpr.fieldsOf, TypeExpr.layout, TypeExpr.fieldLayouts, hinside,
      Layout.prettyAt_block_singleton, hdoc, TypeExpr.docLayout, hkey, Layout.prettyAt_append, Layout.prettyAt_text,
      Layout.prettyAt_nil, deepType]
    rw [← ih (level + 1), TypeExpr.layout]
    simp [String.append_assoc]

theorem isDeep_ofText (h : Workspace.ofText (deep depth) config = .ok workspace) :
    IsDeep workspace depth ∧ workspace.config = config := by
  obtain ⟨hlink, _, hregistry, hconfig⟩ := Workspace.ofText_parts h
  rw [Graph.ofText_eq_link (ofText_deep depth)] at hlink
  rw [ofGraph_deep hlink] at hregistry
  exact ⟨⟨hlink, (Except.ok.inj hregistry).symm⟩, hconfig⟩

/-- A run with types writes one namespace file, which exports the outermost model. -/
theorem IsDeep.namespaceFiles_eq (hdeep : IsDeep workspace depth) (htypes : workspace.config.emitTypes = true)
    {files : List NamespaceFile} (h : workspace.namespaceFiles.outcome = .ok files) :
    ∃ item, workspace.Exports ["Deep"] deepEntry item ∧
      files = [⟨["Deep"], [item], workspace.config.importExtensions⟩] := by
  have hscopes : workspace.registry.scopes = [["Deep"]] := by
    rw [hdeep.registry_eq]
    rfl
  rw [Workspace.namespaceFiles, Workspace.namespaceFilesBy, if_pos htypes, hscopes] at h
  obtain _ | ⟨hfile, _ | _⟩ := Traced.outcome_mapM_ok h
  have hentries : workspace.registry.filter (fun entry => entry.identity.scope = ["Deep"]) = [deepEntry] := by
    rw [hdeep.registry_eq]
    rfl
  rw [Workspace.namespaceFileBy, hentries] at hfile
  obtain ⟨exports, hexports, hfile⟩ := Traced.outcome_bind_ok hfile
  cases hfile
  obtain _ | ⟨hitem, _ | _⟩ := Traced.outcome_mapM_ok hexports
  exact ⟨_, Workspace.exportEntry_ok hitem, rfl⟩

theorem IsDeep.imports_eq (hdeep : IsDeep workspace depth) {mode : Mode} {expansion : Expansion}
    (h : (workspace.expand mode false [] 0).outcome = .ok expansion) :
    (workspace.write mode 0 (.ofScope ["Deep"]) expansion).imports = [] := by
  rw [Workspace.write_imports, hdeep.expand_root h, Expansion.met, met_deep]
  rfl

theorem IsDeep.export_text (hdeep : IsDeep workspace depth) {item : Export}
    (h : workspace.Exports ["Deep"] deepEntry item) :
    item.isGeneric = false ∧ item.importedScopes = [] ∧ ∃ guards,
      item.text = "export type Root = " ++ deepType 0 depth ++ ";\n" ++ guards ∧
        (workspace.config.emitGuards = false → guards = "") := by
  obtain ⟨linked, hroot, _⟩ := exists_root hdeep.linked
  obtain ⟨type, expansion, hexpansion, _, htype⟩ := h.type
  have hgeneric : item.isGeneric = false := by
    rw [Export.isGeneric, htype]
    exact reachesRestriction_deep hdeep.linked
  have hguard : (item.guard.map Resolution.imports).getD [] = [] := by
    cases hfound : item.guard with
    | none => rfl
    | some resolution =>
      obtain ⟨_, guarded, hguarded, _, rfl⟩ := h.guard resolution hfound
      exact hdeep.imports_eq hguarded
  have himports : item.type.imports = [] := by
    rw [htype]
    exact hdeep.imports_eq hexpansion
  refine ⟨hgeneric, ?_, ?_⟩
  · rw [Export.importedScopes, himports, hguard, List.append_nil]
  · have hname : item.name = "Root" := by
      rw [Export.name, h.entry_eq]
      rfl
    have henumeration : item.isEnumeration = false := by
      rw [h.isEnumeration_eq, deepEntry, hroot]
      rfl
    have hdoc : item.type.doc = none := by
      rw [htype]
      simp [Workspace.write, Workspace.rootDoc, deepEntry, hroot, Node.doc?, Node.decl?]
    have htext : Layout.pretty item.type.text = deepType 0 depth := by
      have hempty : Expansion.restrictions (.model none (deepExpansions 0 depth)) = [] := restrictions_deep 0 depth
      have hstyle : (workspace.typeStyle (.ofScope ["Deep"])).target = some ["Deep"] := rfl
      rw [htype, hdeep.expand_root hexpansion, ← prettyAt_deep hstyle]
      simp only [Workspace.write, Workspace.typeOf, TypeExpr.ofExpansion, hempty, TypeExpr.filter, List.isEmpty_nil,
        Bool.true_or, if_true, Layout.pretty]
    rw [Export.text, hdoc, Export.typeText, henumeration, hname, htext, Export.parameters, hgeneric]
    cases hfound : item.guard with
    | none => exact ⟨"", rfl, fun _ => rfl⟩
    | some guard =>
      refine ⟨item.guardText guard, rfl, ?_⟩
      intro hguards
      rw [h.emitGuards hfound] at hguards
      cases hguards

/-- The file of a deep document holds the nested type, and behind it nothing but guards. -/
theorem file_deep (htypes : config.emitTypes = true) {output : Output}
    (h : generate (deep depth) config = .ok output) : ∃ guards,
    output.file? "Deep.ts" =
      some ⟨"Deep.ts", header ++ "\nexport type Root = " ++ deepType 0 depth ++ ";\n" ++ guards⟩ ∧
      (config.emitGuards = false → guards = "") := by
  obtain ⟨workspace, files, routes, hrun⟩ := exists_isRun h
  obtain ⟨hdeep, rfl⟩ := isDeep_ofText hrun.workspace_eq
  obtain ⟨item, hitem, rfl⟩ := hdeep.namespaceFiles_eq htypes hrun.files_eq
  obtain ⟨hgeneric, himports, guards, htext, hguards⟩ := hdeep.export_text hitem
  have hcontent : NamespaceFile.content ⟨["Deep"], [item], workspace.config.importExtensions⟩ =
      header ++ "\nexport type Root = " ++ deepType 0 depth ++ ";\n" ++ guards := by
    have huses : NamespaceFile.usesLifecycle ⟨["Deep"], [item], workspace.config.importExtensions⟩ = false := by
      rw [NamespaceFile.usesLifecycle, List.any_cons, hgeneric]
      rfl
    have hnone : NamespaceFile.imports ⟨["Deep"], [item], workspace.config.importExtensions⟩ = [] := by
      rw [NamespaceFile.imports, List.flatMap_singleton, himports]
      rfl
    rw [NamespaceFile.content, huses, hnone, List.map_singleton, String.intercalate_singleton, htext,
      ← String.toList_inj]
    simp [scopeImports]
  refine ⟨guards, ?_, hguards⟩
  have hname : NamespaceFile.fileName ⟨["Deep"], [item], workspace.config.importExtensions⟩ = "Deep.ts" :=
    (by decide : Scope.fileName ["Deep"] = "Deep.ts")
  rw [Output.file?, hrun.written, List.map_singleton, hcontent, hname]
  exact List.find?_cons_of_pos (by decide : isSamePath "Deep.ts" "Deep.ts" = true)

end Files
end Sample
end SchemaGuards
