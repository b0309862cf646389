import SchemaGuards.Proofs.Decimal.Writing
import SchemaGuards.Proofs.Drafts
import SchemaGuards.Proofs.Format.Writing
import SchemaGuards.Sample

/-!
# Wide documents

The text of a wide document writes a tree, and the tree a draft, whatever the number of namespaces and of models
in each of them. Every namespace refers to its own models, to the first one of the namespace before and, in its
operation, to its own first one. So the names all stand for something unless a namespace has no models at all,
and nothing else stops a run.
-/
namespace SchemaGuards.Sample
open Draft Markup

section Numbers

theorem numbered_inj {lead : String} {first second : Nat} :
    lead ++ toString first = lead ++ toString second ↔ first = second := by
  constructor
  · intro h
    rw [← String.toList_inj, String.toList_append, String.toList_append, List.append_cancel_left_eq,
      Decimal.toList_toString, Decimal.toList_toString] at h
    have hread := congrArg (fun digits => Nat.ofDigitChars 10 digits 0) h
    simpa using hread
  · rintro rfl
    rfl

theorem dot_not_mem_numbered {lead : String} (hlead : '.' ∉ lead.toList) (n : Nat) :
    '.' ∉ (lead ++ toString n).toList := by
  rw [String.toList_append, List.mem_append, not_or]
  refine ⟨hlead, ?_⟩
  intro hdot
  rw [Decimal.toList_toString] at hdot
  have hdigit := Nat.isDigit_of_mem_toDigits (by decide) (by decide) hdot
  cases hdigit

end Numbers

section Writing

def idTree : Tree := ⟨"property", [⟨"name", "id"⟩, ⟨"type", "string"⟩, ⟨"visibility", "read"⟩], []⟩

def stateTree : Tree := ⟨"property", [⟨"name", "state"⟩, ⟨"type", "State"⟩], []⟩

/-- The property that goes around the models of a namespace. -/
def nextTree (models model : Nat) : Tree :=
  ⟨"property", [⟨"name", "next"⟩, ⟨"type", "M" ++ toString ((model + 1) % models)⟩, ⟨"optional", "true"⟩], []⟩

/-- The property that leads to the namespace before. -/
def earlierTree (scope : Nat) : Tree :=
  ⟨"property", [⟨"name", "prev"⟩],
    [⟨"array", [⟨"type", "Bench.N" ++ toString (scope - 1) ++ ".M0"⟩], []⟩]⟩

def wideModelTree (models scope model : Nat) : Tree :=
  ⟨"model", [⟨"name", "M" ++ toString model⟩,
      ⟨"doc", "Model " ++ toString model ++ " of namespace " ++ toString scope⟩],
    [idTree, stateTree, nextTree models model] ++ if 0 < scope then [earlierTree scope] else []⟩

def statesTree : Tree :=
  ⟨"enum", [⟨"name", "State"⟩],
    [⟨"member", [⟨"name", "On"⟩], []⟩, ⟨"member", [⟨"name", "Off"⟩, ⟨"value", "off"⟩], []⟩]⟩

def getTree (scope : Nat) : Tree :=
  ⟨"operation", [⟨"name", "get" ++ toString scope⟩, ⟨"verb", "get"⟩, ⟨"path", "/n" ++ toString scope⟩],
    [⟨"response", [⟨"status", "200"⟩, ⟨"type", "M0"⟩], []⟩]⟩

def wideNamespaceTree (models scope : Nat) : Tree :=
  ⟨"namespace", [⟨"name", "N" ++ toString scope⟩],
    statesTree :: (List.range models).flatMap (fun model => [wideModelTree models scope model]) ++ [getTree scope]⟩

def wideTree (namespaces models : Nat) : Tree :=
  ⟨"schema", [⟨"rootNamespaces", "Bench"⟩], [⟨"namespace", [⟨"name", "Bench"⟩],
    (List.range namespaces).flatMap (fun scope => [wideNamespaceTree models scope])⟩]⟩

theorem earlier_writes (scope : Nat) : Writes
    (if 0 < scope then
      "<property name=\"prev\"><array type=\"Bench.N" ++ toString (scope - 1) ++ ".M0\"/></property>\n"
    else "") (if 0 < scope then [earlierTree scope] else []) := by
  by_cases hfirst : 0 < scope
  · have hvalue : IsPlainValue ("Bench.N" ++ toString (scope - 1) ++ ".M0") :=
      (isPlainValue_numbered (by decide) (scope - 1)).append (by decide)
    have harray : Writes _ [⟨"array", [⟨"type", _⟩], []⟩] := .leaf (by decide) (isPlain_one (by decide) hvalue)
    have hproperty : Writes _ [⟨"property", [⟨"name", "prev"⟩], _⟩] :=
      Writes.element (by decide) (isPlain_one (by decide) (by decide)) harray
    rw [if_pos hfirst, if_pos hfirst]
    refine hproperty.line.of_toList ?_
    simp only [toList_startTag, toList_emptyTag, toList_endTag, toList_attributesText, List.flatMap_cons,
      List.flatMap_nil, String.toList_append, List.append_assoc]
    simp only [String.reduceToList, List.cons_append, List.nil_append, List.append_assoc]
  · rw [if_neg hfirst, if_neg hfirst]
    exact .nil

theorem wideModel_writes (models scope model : Nat) :
    Writes (wideModel models scope model) [wideModelTree models scope model] := by
  have hid : Writes _ [idTree] := .leaf (by decide) ⟨by decide, by decide, by decide⟩
  have hstate : Writes _ [stateTree] := .leaf (by decide) ⟨by decide, by decide, by decide⟩
  have htype : IsPlain [⟨"type", "M" ++ toString ((model + 1) % models)⟩, ⟨"optional", "true"⟩] :=
    (isPlain_one (by decide) (by decide)).cons (by decide) (isPlainValue_numbered (by decide) _) (by simp)
  have hnext : Writes _ [nextTree models model] :=
    .leaf (by decide) (htype.cons (by decide) (by decide) (by simp))
  have hdoc : IsPlainValue ("Model " ++ toString model ++ " of namespace " ++ toString scope) :=
    isPlainValue_numbered ((isPlainValue_numbered (by decide) model).append (by decide)) scope
  have hattributes : IsPlain [⟨"name", "M" ++ toString model⟩, ⟨"doc", _⟩] :=
    (isPlain_one (by decide) hdoc).cons (by decide) (isPlainValue_numbered (by decide) model) (by simp)
  have hinside := (((hid.line.append hstate.line).append hnext.line).append (earlier_writes scope)).nextLine
  have hmodel : Writes _ [wideModelTree models scope model] := .element (by decide) hattributes hinside
  refine hmodel.line.of_toList ?_
  unfold wideModel
  simp only [toList_startTag, toList_emptyTag, toList_endTag, toList_attributesText, List.flatMap_cons,
    List.flatMap_nil, String.toList_append, List.append_assoc]
  simp only [String.reduceToList, List.cons_append, List.nil_append, List.append_assoc]

theorem wideNamespace_writes (models scope : Nat) :
    Writes (wideNamespace models scope) [wideNamespaceTree models scope] := by
  have hon : Writes _ [⟨"member", [⟨"name", "On"⟩], []⟩] := .leaf (by decide) ⟨by decide, by decide, by decide⟩
  have hoff : Writes _ [⟨"member", [⟨"name", "Off"⟩, ⟨"value", "off"⟩], []⟩] :=
    .leaf (by decide) ⟨by decide, by decide, by decide⟩
  have hstates : Writes _ [statesTree] := .element (by decide) (isPlain_one (by decide) (by decide)) (hon.append hoff)
  have hmodels := Writes.join (List.range models) (fun model _ => wideModel_writes models scope model)
  have hresponse : Writes _ [⟨"response", [⟨"status", "200"⟩, ⟨"type", "M0"⟩], []⟩] :=
    .leaf (by decide) ⟨by decide, by decide, by decide⟩
  have hpath : IsPlain [⟨"verb", "get"⟩, ⟨"path", "/n" ++ toString scope⟩] :=
    (isPlain_one (by decide) (isPlainValue_numbered (by decide) scope)).cons (by decide) (by decide) (by simp)
  have hget : Writes _ [getTree scope] :=
    .element (by decide) (hpath.cons (by decide) (isPlainValue_numbered (by decide) scope) (by simp)) hresponse
  have hname : IsPlain [⟨"name", "N" ++ toString scope⟩] :=
    isPlain_one (by decide) (isPlainValue_numbered (by decide) scope)
  have hinside := ((hstates.line.append hmodels).append hget.line).nextLine
  have hnamespace : Writes _ [wideNamespaceTree models scope] := .element (by decide) hname hinside
  refine hnamespace.line.of_toList ?_
  unfold wideNamespace
  simp only [toList_startTag, toList_emptyTag, toList_endTag, toList_attributesText, List.flatMap_cons,
    List.flatMap_nil, String.toList_append, List.append_assoc]
  simp only [String.reduceToList, List.cons_append, List.nil_append, List.append_assoc]

theorem wide_writes (namespaces models : Nat) : Writes (wide namespaces models) [wideTree namespaces models] := by
  have hnamespaces := Writes.join (List.range namespaces) (fun scope _ => wideNamespace_writes models scope)
  have hbench : Writes _ [⟨"namespace", [⟨"name", "Bench"⟩], _⟩] :=
    .element (by decide) (isPlain_one (by decide) (by decide)) hnamespaces.nextLine
  have hschema : Writes _ [wideTree namespaces models] :=
    .element (by decide) (isPlain_one (by decide) (by decide)) hbench.line.nextLine
  refine hschema.line.of_toList ?_
  unfold wide
  simp only [toList_startTag, toList_endTag, toList_attributesText, List.flatMap_cons, List.flatMap_nil,
    String.toList_append, List.append_assoc]
  simp only [String.reduceToList, List.cons_append, List.nil_append]

theorem wideTree_writtenIn (namespaces models : Nat) :
    (wideTree namespaces models).WrittenIn (wide namespaces models) := by
  apply (wide_writes namespaces models).writtenIn
  unfold wide
  simp only [String.toList_append, List.append_assoc]
  simp only [String.reduceToList, List.cons_append, List.head?_cons]
  decide
end Writing

section Reading

def wideScope (scope : Nat) : Scope := ["Bench", "N" ++ toString scope]

def statesDeclaration (scope : Nat) : Declaration :=
  ⟨"State", wideScope scope, none,
    .enumeration [{ name := "On" }, { name := "Off", value := some (.string "off") }]⟩

def wideProperties (models scope model : Nat) : List (Property Form) :=
  [{ name := "id", type := .named "string", visibility := some { read := true } },
    { name := "state", type := .named "State" },
    { name := "next", type := .named ("M" ++ toString ((model + 1) % models)), optional := true }] ++
    if 0 < scope then
      [{ name := "prev", type := .indexed .array (.named ("Bench.N" ++ toString (scope - 1) ++ ".M0")) }]
    else []

def wideDeclaration (models scope model : Nat) : Declaration :=
  ⟨"M" ++ toString model, wideScope scope, some ("Model " ++ toString model ++ " of namespace " ++ toString scope),
    .model none (wideProperties models scope model)⟩

def wideOperation (scope : Nat) : Operation Form where
  name := "get" ++ toString scope
  scope := wideScope scope
  path := "/n" ++ toString scope
  verb := .get
  responses := [⟨some 200, some (.named "M0")⟩]

def wideContents (models scope : Nat) : Contents where
  declarations := statesDeclaration scope :: (List.range models).map (wideDeclaration models scope)
  operations := [wideOperation scope]

def wideDraft (namespaces models : Nat) : Draft where
  roots := ["Bench"]
  contents :=
    { declarations := (List.range namespaces).flatMap (fun scope => (wideContents models scope).declarations)
      operations := (List.range namespaces).flatMap (fun scope => (wideContents models scope).operations) }

theorem writes_wideDeclaration (models scope model : Nat) :
    WritesItem (wideScope scope) (wideModelTree models scope model) ⟨[wideDeclaration models scope model], []⟩ := by
  have hid : WritesProperty idTree _ :=
    .intro rfl (.named rfl) (WritesFlag.absent rfl) (.some (WritesVisibility.one .read (by decide)))
  have hstate : WritesProperty stateTree _ := .intro rfl (.named rfl) (WritesFlag.absent rfl) .none
  have hnext : WritesProperty (nextTree models model) _ := .intro rfl (.named rfl) (WritesFlag.present rfl) .none
  have hproperties : List.Forall₂ WritesProperty (wideModelTree models scope model).children
      (wideProperties models scope model) := by
    refine .cons hid (.cons hstate (.cons hnext ?_))
    by_cases hfirst : 0 < scope
    · rw [if_pos hfirst, if_pos hfirst]
      have harray : WritesForm ⟨"array", [⟨"type", "Bench.N" ++ toString (scope - 1) ++ ".M0"⟩], []⟩ _ :=
        .array (.named rfl)
      exact .cons (.intro rfl (.nested rfl harray) (WritesFlag.absent rfl) .none) .nil
    · rw [if_neg hfirst, if_neg hfirst]
      exact .nil
  exact .declaration (.intro rfl (.model hproperties))

theorem ofName?_get : Verb.ofName? "get" = some .get := by
  have hupper : (Text.trim "get").toUpper = "GET" := by
    change (Text.trim "get").map Char.toUpper = "GET"
    rw [← String.toList_inj, String.toList_map]
    decide
  rw [Verb.ofName?, hupper]
  decide

theorem writes_wideOperation (scope : Nat) :
    WritesItem (wideScope scope) (getTree scope) ⟨[], [wideOperation scope]⟩ := by
  have hstatus : readStatus? "200" = some 200 := by decide
  have htype : WritesType [⟨"status", "200"⟩, ⟨"type", "M0"⟩] [] (some (.named "M0")) := .named rfl
  have hresponse : WritesResponse ⟨"response", [⟨"status", "200"⟩, ⟨"type", "M0"⟩], []⟩
      ⟨some 200, some (.named "M0")⟩ :=
    .intro (.some hstatus) htype
  exact .operation (.intro rfl rfl rfl ofName?_get (.response hresponse .nil))

theorem writes_statesDeclaration (scope : Nat) :
    WritesItem (wideScope scope) statesTree ⟨[statesDeclaration scope], []⟩ := by
  have hon : WritesMember ⟨"member", [⟨"name", "On"⟩], []⟩ { name := "On" } := .intro rfl (.absent rfl rfl)
  have hoff : WritesMember ⟨"member", [⟨"name", "Off"⟩, ⟨"value", "off"⟩], []⟩
      { name := "Off", value := some (.string "off") } :=
    .intro rfl (.string rfl rfl)
  exact .declaration (.intro rfl (.enumeration (.cons hon (.cons hoff .nil))))

theorem writes_wideContents (models scope : Nat) :
    WritesItem ["Bench"] (wideNamespaceTree models scope) (wideContents models scope) := by
  have hmodels := WritesItems.flatMap (List.range models) (fun model => writes_wideDeclaration models scope model)
  have hitems := (WritesItems.cons (writes_statesDeclaration scope) hmodels).append
    (.cons (writes_wideOperation scope) .nil)
  have hscope : ["Bench"] ++ Text.splitText '.' ("N" ++ toString scope) = wideScope scope := by
    rw [Text.splitText_eq_singleton (dot_not_mem_numbered (by decide) scope)]
    rfl
  have hcontents : wideContents models scope = ⟨[statesDeclaration scope], []⟩ ++
      ⟨(List.range models).flatMap (fun model => [wideDeclaration models scope model]),
        (List.range models).flatMap (fun _ => [])⟩ ++ (⟨[], [wideOperation scope]⟩ ++ {}) := by
    rw [wideContents, List.map_eq_flatMap, List.flatMap_eq_nil_iff.2 (fun _ _ => rfl)]
    simp only [Contents.append_eq, List.append_nil, List.nil_append, List.singleton_append]
  rw [← hscope, ← hcontents] at hitems
  exact .inner rfl hitems

theorem writesSchema_wideTree (namespaces models : Nat) :
    WritesSchema (wideTree namespaces models) (wideDraft namespaces models) := by
  have hroots : readRoots [⟨"rootNamespaces", "Bench"⟩] = ["Bench"] := by decide
  have hitems := WritesItems.flatMap (List.range namespaces) (fun scope => writes_wideContents models scope)
  have hscope : Text.splitText '.' "Bench" = ["Bench"] := by decide
  have hschema : WritesSchema (wideTree namespaces models) ⟨readRoots [⟨"rootNamespaces", "Bench"⟩], _⟩ :=
    .intro (.cons rfl (WritesItem.outermost hscope hitems) .nil)
  rwa [hroots, Contents.append_empty] at hschema

end Reading

section Names

variable {namespaces models scope model : Nat}

theorem mem_wideDeclarations {declaration : Declaration} :
    declaration ∈ (wideDraft namespaces models).contents.declarations ↔ ∃ scope < namespaces,
      declaration = statesDeclaration scope ∨ ∃ model < models, declaration = wideDeclaration models scope model := by
  simp only [wideDraft, wideContents, List.mem_flatMap, List.mem_range, List.mem_cons, List.mem_map]
  grind

theorem mem_wideOperations {operation : Operation Form} :
    operation ∈ (wideDraft namespaces models).contents.operations ↔
      ∃ scope < namespaces, operation = wideOperation scope := by
  simp only [wideDraft, wideContents, List.mem_flatMap, List.mem_range, List.mem_singleton]

theorem mem_statesDeclaration (hscope : scope < namespaces) :
    statesDeclaration scope ∈ (wideDraft namespaces models).contents.declarations :=
  mem_wideDeclarations.2 ⟨scope, hscope, .inl rfl⟩

theorem mem_wideDeclaration (hscope : scope < namespaces) (hmodel : model < models) :
    wideDeclaration models scope model ∈ (wideDraft namespaces models).contents.declarations :=
  mem_wideDeclarations.2 ⟨scope, hscope, .inr ⟨model, hmodel, rfl⟩⟩

theorem isWritten_wideScope (scope : Nat) {name : String} (hname : '.' ∉ name.toList) :
    Scope.IsWritten (wideScope scope ++ [name]) := by
  refine ⟨?_, List.append_ne_nil_of_right_ne_nil _ (List.cons_ne_nil _ _)⟩
  intro segment hsegment
  simp only [wideScope, List.cons_append, List.nil_append, List.mem_cons, List.not_mem_nil, or_false] at hsegment
  obtain rfl | rfl | rfl := hsegment
  · decide
  · exact dot_not_mem_numbered (by decide) scope
  · exact hname

theorem isWritten_wide {declaration : Declaration}
    (h : declaration ∈ (wideDraft namespaces models).contents.declarations) :
    Scope.IsWritten (declaration.scope ++ [declaration.name]) := by
  obtain ⟨scope, _, rfl | ⟨model, _, rfl⟩⟩ := mem_wideDeclarations.1 h
  · exact isWritten_wideScope scope (by decide : '.' ∉ "State".toList)
  · exact isWritten_wideScope scope (dot_not_mem_numbered (by decide) model)

/-- No two declarations of a wide document have one qualified name. -/
theorem wide_distinct (namespaces models : Nat) : (wideDraft namespaces models).contents.declarations.Pairwise
    (fun first second => first.IsNamed → first.qualified ≠ second.qualified) := by
  have hdiffer : (wideDraft namespaces models).contents.declarations.Pairwise
      (fun first second => ¬ (first.scope = second.scope ∧ first.name = second.name)) := by
    rw [wideDraft, List.pairwise_flatMap]
    constructor
    · intro scope _
      rw [wideContents, List.pairwise_cons, List.pairwise_map]
      constructor
      · intro declaration hmem
        obtain ⟨model, _, rfl⟩ := List.mem_map.1 hmem
        intro hsame
        have hname := congrArg String.toList hsame.2
        simp [statesDeclaration, wideDeclaration] at hname
      · exact List.nodup_range.imp (fun hne hsame => hne (numbered_inj.1 hsame.2))
    · apply List.nodup_range.imp
      intro first second hne declaration hmem other hother hsame
      have hscope : ∀ {scope : Nat} {declaration : Declaration},
          declaration ∈ (wideContents models scope).declarations → declaration.scope = wideScope scope := by
        intro scope declaration hmem
        simp only [wideContents, List.mem_cons, List.mem_map] at hmem
        obtain rfl | ⟨model, _, rfl⟩ := hmem <;> rfl
      rw [hscope hmem, hscope hother] at hsame
      obtain ⟨hnumbered, _⟩ := List.cons_eq_cons.1 (List.cons_eq_cons.1 hsame.1).2
      exact hne (numbered_inj.1 hnumbered)
  apply hdiffer.imp_of_mem
  intro first second hfirst hsecond hne _
  rwa [ne_eq, Declaration.qualified_eq_iff (isWritten_wide hfirst) (isWritten_wide hsecond)]

theorem isNamed_statesDeclaration (scope : Nat) : (statesDeclaration scope).IsNamed :=
  ⟨(by decide : "State" ≠ ""), List.cons_ne_nil _ _⟩

theorem isNamed_wideDeclaration (models scope model : Nat) : (wideDeclaration models scope model).IsNamed := by
  refine ⟨?_, List.cons_ne_nil _ _⟩
  intro hname
  have hempty := congrArg String.toList hname
  simp [wideDeclaration] at hempty

/-- All names in a model of a wide document stand for something. -/
theorem isKnown_wideProperties (hscope : scope < namespaces) (hmodel : model < models) :
    ∀ property ∈ wideProperties models scope model,
      property.type.IsKnown (wideDraft namespaces models).contents (wideScope scope) := by
  have hpositive : 0 < models := Nat.zero_lt_of_lt hmodel
  have hknown : ∀ {name : String},
      (∃ target, (wideDraft namespaces models).contents.Names (wideScope scope) name target) →
      Form.IsKnown (wideDraft namespaces models).contents (wideScope scope) (.named name) :=
    fun ⟨target, htarget⟩ => .named _ target htarget
  have hnext := mem_wideDeclaration hscope (Nat.mod_lt (model + 1) hpositive)
  simp only [wideProperties, List.forall_mem_append, List.forall_mem_cons]
  refine ⟨⟨?_, ?_, ?_, List.forall_mem_nil _⟩, ?_⟩
  · exact hknown (Contents.exists_names_of_isBuiltin (by decide : (builtinBases? "string").isSome))
  · exact hknown (Contents.exists_names_self (mem_statesDeclaration hscope) (isNamed_statesDeclaration scope))
  · exact hknown (Contents.exists_names_self hnext (isNamed_wideDeclaration _ _ _))
  · by_cases hfirst : 0 < scope
    · rw [if_pos hfirst, List.forall_mem_singleton]
      have hearlier := mem_wideDeclaration (by omega : scope - 1 < namespaces) hpositive
      apply Form.IsKnown.indexed
      apply hknown
      apply Contents.exists_names_of_mem hearlier (isNamed_wideDeclaration _ _ _) (Nat.zero_le _)
      rw [List.take_zero, List.nil_append, ← String.toList_inj]
      simp [Declaration.qualified, wideDeclaration, wideScope, Text.dotted]
    · rw [if_neg hfirst]
      exact List.forall_mem_nil _

/-- Without models nothing is named like the first one. -/
theorem not_names_first {namespaces scope : Nat} {target : Target} :
    ¬ (wideDraft namespaces 0).contents.Names (wideScope scope) "M0" target := by
  intro h
  cases h with
  | intrinsic value hvalue => cases value <;> simp [Intrinsic.name] at hvalue
  | declaration place _ hplace =>
    obtain ⟨depth, _, ⟨declaration, hdeclaration, _, hqualified⟩, _⟩ := hplace
    have hmem := List.mem_of_getElem? hdeclaration
    have hwritten := isWritten_wide hmem
    have hlooked : Scope.IsWritten ((wideScope scope).take depth ++ ["M0"]) := by
      refine ⟨?_, List.append_ne_nil_of_right_ne_nil _ (List.cons_ne_nil _ _)⟩
      have hall := (isWritten_wideScope scope (by decide : '.' ∉ "M0".toList)).segmented
      intro segment hsegment
      apply hall segment
      rw [List.mem_append] at hsegment ⊢
      exact hsegment.imp_left List.mem_of_mem_take
    rw [Declaration.qualified, Scope.dotted_inj hwritten hlooked] at hqualified
    have hname := List.singleton_inj.1 (List.append_inj' hqualified rfl).2
    obtain ⟨other, _, rfl | ⟨model, hmodel, _⟩⟩ := mem_wideDeclarations.1 hmem
    · exact absurd hname (by decide : "State" ≠ "M0")
    · exact absurd hmodel (Nat.not_lt_zero model)
  | builtin scalar _ _ hscalar hbuiltin =>
    obtain rfl | hqualified := hscalar
    · exact absurd hbuiltin (by decide : ¬ (builtinBases? "M0").isSome)
    · have hdotted := congrArg (fun name => '.' ∈ name.toList) hqualified
      simp [toList_qualified] at hdotted
  | member owner member _ _ _ _ hname =>
    have hdotted := congrArg (fun name => '.' ∈ name.toList) hname
    simp at hdotted

/-- A wide document refers to the first model of each namespace, so that each has to have one. -/
theorem wide_isConsistent_iff :
    (wideDraft namespaces models).contents.IsConsistent ↔ (namespaces = 0 ∨ 0 < models) := by
  constructor
  · intro h
    by_cases hnone : namespaces = 0
    · exact .inl hnone
    · right
      apply Nat.pos_of_ne_zero
      rintro rfl
      have hmem : wideOperation 0 ∈ (wideDraft namespaces 0).contents.operations :=
        mem_wideOperations.2 ⟨0, Nat.pos_of_ne_zero hnone, rfl⟩
      have hknown := h.operations _ hmem (.named "M0") (List.mem_singleton_self _)
      cases hknown with
      | named _ target htarget => exact not_names_first htarget
  · intro h
    refine ⟨wide_distinct namespaces models, ?_, ?_⟩
    · intro declaration hmem
      obtain ⟨scope, hscope, rfl | ⟨model, hmodel, rfl⟩⟩ := mem_wideDeclarations.1 hmem
      · trivial
      · exact ⟨by simp, isKnown_wideProperties hscope hmodel⟩
    · intro operation hmem form hform
      obtain ⟨scope, hscope, rfl⟩ := mem_wideOperations.1 hmem
      cases List.mem_singleton.1 hform
      have hpositive : 0 < models := h.resolve_left (by omega)
      obtain ⟨target, htarget⟩ := Contents.exists_names_self (mem_wideDeclaration hscope hpositive)
        (isNamed_wideDeclaration _ _ _)
      exact .named _ target htarget

theorem empty_not_mem_wideScope (scope : Nat) : "" ∉ wideScope scope := by
  intro hempty
  simp only [wideScope, List.mem_cons, List.not_mem_nil, or_false] at hempty
  obtain hbench | hnumbered := hempty
  · exact absurd hbench (by decide)
  · have hchars := congrArg String.toList hnumbered
    simp at hchars

theorem wide_isValid (namespaces models : Nat) : (wideDraft namespaces models).contents.IsValid := by
  constructor
  · intro declaration hmem
    obtain ⟨scope, _, rfl | ⟨model, _, rfl⟩⟩ := mem_wideDeclarations.1 hmem
    · have hnames : ["On", "Off"].Nodup := by decide
      exact ⟨empty_not_mem_wideScope scope, hnames⟩
    · have hname : Indexed.ofName? ("M" ++ toString model) = none := by
        rw [Indexed.ofName?, List.find?_eq_none]
        intro kind _ hkind
        have hchars := congrArg String.toList (of_decide_eq_true hkind)
        cases kind <;> simp [Indexed.name] at hchars
      refine ⟨empty_not_mem_wideScope scope, hname, ?_, ?_⟩
      · by_cases hfirst : 0 < scope
        · simp [wideProperties, hfirst]
        · simp [wideProperties, hfirst]
      · intro property hproperty
        simp only [wideProperties, List.mem_append, List.mem_cons, List.not_mem_nil, or_false] at hproperty
        obtain (rfl | rfl | rfl) | hearlier := hproperty
        · exact .named _
        · exact .named _
        · exact .named _
        · split at hearlier
          · cases List.mem_singleton.1 hearlier
            exact .indexed _ _ (.named _)
          · cases hearlier
  · intro operation hmem
    obtain ⟨scope, _, rfl⟩ := mem_wideOperations.1 hmem
    refine ⟨empty_not_mem_wideScope scope, ?_⟩
    intro form hform
    cases List.mem_singleton.1 hform
    exact .named _

theorem wide_isWritable (namespaces models : Nat) : (wideDraft namespaces models).IsWritable := by
  constructor
  · rw [Contents.unsupportedKinds, List.append_eq_nil_iff, List.flatMap_eq_nil_iff, List.flatMap_eq_nil_iff]
    constructor
    · intro declaration hmem
      obtain ⟨scope, _, rfl | ⟨model, _, rfl⟩⟩ := mem_wideDeclarations.1 hmem
      · rfl
      · by_cases hfirst : 0 < scope
        · simp only [wideDeclaration, wideProperties, if_pos hfirst]
          rfl
        · simp only [wideDeclaration, wideProperties, if_neg hfirst]
          rfl
    · intro operation hmem
      obtain ⟨scope, _, rfl⟩ := mem_wideOperations.1 hmem
      rfl
  · intro declaration hmem
    obtain ⟨scope, _, rfl | ⟨model, _, rfl⟩⟩ := mem_wideDeclarations.1 hmem
    · rfl
    · rfl

/-- The text of a wide document is read as its draft. -/
theorem ofText_wide (namespaces models : Nat) :
    Draft.ofText (wide namespaces models) = .ok (wideDraft namespaces models) := by
  rw [ofText_writtenIn (wideTree_writtenIn namespaces models), readSchema_eq_ok]
  exact writesSchema_wideTree namespaces models

/-- A wide document is generated from unless it has namespaces, and these no models. -/
theorem generate_wide_isOk_iff {config : Config} (hconfig : config.validate = .ok ()) :
    (∃ output, generate (wide namespaces models) config = .ok output) ↔ (namespaces = 0 ∨ 0 < models) := by
  rw [generate_isOk_iff (ofText_wide namespaces models) (wide_isWritable namespaces models), wide_isConsistent_iff]
  simp only [wide_isValid, hconfig, and_true]

end Names
end SchemaGuards.Sample
