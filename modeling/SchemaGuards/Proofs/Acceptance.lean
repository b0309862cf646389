import SchemaGuards.Proofs.Expansion.Modes
import SchemaGuards.Proofs.Linkage
import SchemaGuards.Proofs.Script.Clearance

/-!
# What guards accept

The declarations of a run refer to one another, so a value conforms to a declaration when it conforms
to what its type says of the declarations that the type refers to. Objects may hold themselves, so
conformance is the largest such relation. A guard calls other guards; it has an answer when its calls
go to a finite depth.
-/
namespace SchemaGuards.Workspace
open Script
variable {Object : Type} (workspace : Workspace) (realm : Realm Object)

/-- The entry that a reference stands for in the file of a namespace. -/
def named? (scope : Scope) (reference : Reference) : Option Entry :=
  List.find? (fun entry => entry.identity.scope = reference.imported.getD scope ∧
    entry.identity.name = reference.name) workspace.registry

/-- What relates values to entries relates them to the references in the file of a namespace. -/
def refer (scope : Scope) (related : Entry → Option Lifecycle → List VisibilityMap → Value Object → Prop)
    (reference : Reference) (state : Option Lifecycle) (filters : List VisibilityMap) (value : Value Object) :
    Prop :=
  ∃ entry, workspace.named? scope reference = some entry ∧ related entry state filters value

/-- Answers calls in the file of a namespace; a name that stands for nothing throws. -/
def call (scope : Scope) (answer : Entry → Option Lifecycle → Value Object → Outcome) (reference : Reference)
    (state : Option Lifecycle) (value : Value Object) : Outcome :=
  match workspace.named? scope reference with
  | some entry => answer entry state value
  | none => .throws

def expansion? (mode : Mode) (entry : Entry) : Option Expansion :=
  (workspace.expand mode false [] entry.node).outcome.toOption

/-- The type that is written for an entry. -/
def writtenType? (entry : Entry) : Option TypeExpr :=
  (workspace.expansion? .type entry).map (workspace.typeOf (.ofScope entry.identity.scope))

/-- The guard that is written for an entry; an enumeration has none. -/
def writtenGuard? (entry : Entry) : Option Guard :=
  if entry.identity.kind = .enumeration then none
  else (workspace.expansion? .guard entry).map (guardOf (.ofScope entry.identity.scope))

/-- A relation that only holds where what the types say holds, in its own terms. -/
def IsClosed (related : Entry → Option Lifecycle → List VisibilityMap → Value Object → Prop) : Prop :=
  ∀ entry state filters value, related entry state filters value →
    ∃ type, workspace.writtenType? entry = some type ∧
      type.Meets realm state (workspace.refer entry.identity.scope related) filters value

/-- Whether a value conforms to the type of an entry in a lifecycle, below filters. -/
def Conforms (entry : Entry) (state : Option Lifecycle) (filters : List VisibilityMap)
    (value : Value Object) : Prop :=
  ∃ related, workspace.IsClosed realm related ∧ related entry state filters value

/-- What the guard of an entry comes to, when calls are followed to a depth. -/
def answerAt : Nat → Entry → Option Lifecycle → Value Object → Outcome
  | 0, _, _, _ => .unknown
  | depth + 1, entry, state, value =>
    match workspace.writtenGuard? entry with
    | some guard =>
      guard.run realm (workspace.call entry.identity.scope (answerAt depth)) state
        (fun name => if name = "t" then some (.value value) else none)
    | none => .throws

/-- Whether the guard of an entry returns true. -/
def Accepts (entry : Entry) (state : Option Lifecycle) (value : Value Object) : Prop :=
  ∃ depth, workspace.answerAt realm depth entry state value = .returns true

/-- What the guard of an entry needs to accept a conforming value, when calls are followed to a depth. -/
def ClearAt : Nat → Entry → Option Lifecycle → List VisibilityMap → Value Object → Prop
  | 0, _, _, _, _ => False
  | depth + 1, entry, state, filters, value =>
    entry.identity.kind ≠ .enumeration ∧ ∃ expansion, workspace.expansion? .guard entry = some expansion ∧
      expansion.Clear realm state (workspace.typeStyle (.ofScope entry.identity.scope))
        (workspace.call entry.identity.scope (workspace.answerAt realm depth))
        (workspace.refer entry.identity.scope (workspace.Conforms realm))
        (workspace.refer entry.identity.scope (ClearAt depth)) false filters value

/-- What the guard of an entry needs to accept a conforming value. -/
def IsClear (entry : Entry) (state : Option Lifecycle) (value : Value Object) : Prop :=
  ∃ depth, workspace.ClearAt realm depth entry state [] value

variable {workspace realm} {entry : Entry} {state : Option Lifecycle} {filters : List VisibilityMap}
  {value : Value Object}

/-- A value that conforms to an entry conforms to the type that is written for it. -/
theorem Conforms.meets (h : workspace.Conforms realm entry state filters value) :
    ∃ type, workspace.writtenType? entry = some type ∧
      type.Meets realm state (workspace.refer entry.identity.scope (workspace.Conforms realm)) filters value := by
  rcases h with ⟨related, hclosed, hrelated⟩
  rcases hclosed entry state filters value hrelated with ⟨type, htype, hmeets⟩
  refine ⟨type, htype, hmeets.mono ?_⟩
  rintro reference state filters value ⟨called, hnamed, hcalled⟩
  exact ⟨called, hnamed, related, hclosed, hcalled⟩

theorem writtenType?_eq_some {type : TypeExpr} :
    workspace.writtenType? entry = some type ↔ ∃ expansion, workspace.expansion? .type entry = some expansion ∧
      workspace.typeOf (.ofScope entry.identity.scope) expansion = type :=
  Option.map_eq_some_iff

theorem expansion?_modes (hunmapped : workspace.IsUnmapped) (entry : Entry) :
    workspace.expansion? .type entry = workspace.expansion? .guard entry := by
  rw [expansion?, expansion?, expand_modes hunmapped false [] entry.node (by simp)]

/-- At every depth of calls, a guard accepts the clear ones among the conforming values. -/
theorem answerAt_eq_true_iff (hunmapped : workspace.IsUnmapped) (depth : Nat)
    (h : workspace.Conforms realm entry state filters value) :
    workspace.answerAt realm depth entry state value = .returns true ↔
      workspace.ClearAt realm depth entry state filters value := by
  induction depth generalizing entry state filters value with
  | zero => simp [answerAt, ClearAt]
  | succ depth ih =>
    have hexact : AreExact (workspace.call entry.identity.scope (workspace.answerAt realm depth))
        (workspace.refer entry.identity.scope (workspace.Conforms realm))
        (workspace.refer entry.identity.scope (workspace.ClearAt realm depth)) := by
      rintro reference state filters value ⟨called, hnamed, hconforms⟩
      simp only [call, refer, hnamed, Option.some.injEq, exists_eq_left', ih hconforms]
    rcases h.meets with ⟨type, htype, hmeets⟩
    rcases writtenType?_eq_some.1 htype with ⟨expansion, hexpansion, rfl⟩
    rw [expansion?_modes hunmapped] at hexpansion
    rw [answerAt, writtenGuard?, ClearAt]
    by_cases hkind : entry.identity.kind = .enumeration
    · simp [hkind]
    · simp only [hkind, if_false, hexpansion, Option.map_some, ne_eq, not_false_eq_true, true_and,
        Option.some.injEq, exists_eq_left']
      rw [guardOf, Guard.run_ofExpansion _ _ _ _ rfl]
      exact Expansion.answer_eq_true_iff hexact hmeets

/-- A guard accepts a conforming value exactly when the value is clear. -/
theorem accepts_iff_isClear (hunmapped : workspace.IsUnmapped)
    (h : workspace.Conforms realm entry state [] value) :
    workspace.Accepts realm entry state value ↔ workspace.IsClear realm entry state value :=
  exists_congr (fun depth => answerAt_eq_true_iff hunmapped depth h)

/-- Whether a value conforms to the type of an entry by a finite derivation. -/
def ConformsAt (workspace : Workspace) (realm : Realm Object) :
    Nat → Entry → Option Lifecycle → List VisibilityMap → Value Object → Prop
  | 0, _, _, _, _ => False
  | depth + 1, entry, state, filters, value =>
    ∃ type, workspace.writtenType? entry = some type ∧
      type.Meets realm state (workspace.refer entry.identity.scope (ConformsAt workspace realm depth)) filters value

/-- A value that conforms by a finite derivation conforms. -/
theorem ConformsAt.conforms {depth : Nat} (h : workspace.ConformsAt realm depth entry state filters value) :
    workspace.Conforms realm entry state filters value := by
  refine ⟨fun entry state filters value => ∃ depth, workspace.ConformsAt realm depth entry state filters value,
    ?_, depth, h⟩
  rintro entry state filters value ⟨depth, h⟩
  cases depth with
  | zero => exact h.elim
  | succ depth =>
    rcases h with ⟨type, htype, hmeets⟩
    refine ⟨type, htype, hmeets.mono ?_⟩
    rintro reference state filters value ⟨called, hnamed, hcalled⟩
    exact ⟨called, hnamed, depth, hcalled⟩

/-- What a file exports for an entry is what is written for the entry. -/
theorem Exports.written {item : Emission.Export} (h : workspace.Exports entry.identity.scope entry item)
    (hguards : workspace.config.emitGuards = true) (hkind : entry.identity.kind ≠ .enumeration)
    (henumeration : item.isEnumeration = false) :
    ∃ resolution type guard, item.guard = some resolution ∧
      item.type.text = type.layout ∧ workspace.writtenType? entry = some type ∧
      resolution.text = guard.layout ∧ workspace.writtenGuard? entry = some guard := by
  have hsome := h.guard_isSome
  rw [hguards, henumeration] at hsome
  rcases Option.isSome_iff_exists.1 hsome with ⟨resolution, hresolution⟩
  rcases h.type with ⟨type, expansion, hexpansion, rfl, htype⟩
  rcases h.guard resolution hresolution with ⟨guard, tested, htested, rfl, rfl⟩
  have hwritten : workspace.expansion? .type entry = some expansion := by
    rw [expansion?, show (workspace.expand .type false [] entry.node).outcome = .ok expansion from hexpansion]
    rfl
  have hguard : workspace.expansion? .guard entry = some tested := by
    rw [expansion?, show (workspace.expand .guard false [] entry.node).outcome = .ok tested from htested]
    rfl
  refine ⟨_, _, _, hresolution, ?_, writtenType?_eq_some.2 ⟨expansion, hwritten, rfl⟩, rfl, ?_⟩
  · rw [htype]
    rfl
  · rw [writtenGuard?, if_neg hkind, hguard]
    rfl

end SchemaGuards.Workspace

namespace SchemaGuards
open Script Emission

/-- Without mappings, the guard of every exported declaration accepts exactly the clear ones among the
values that conform to the type that is exported with it, in every lifecycle. -/
theorem generate_accepts {text : String} {config : Config} {output : Output}
    (h : generate text config = .ok output) (hguards : config.emitGuards = true)
    (htypeMappings : config.typeMappings = []) (hguardMappings : config.guardMappings = []) :
    ∃ workspace files, Workspace.ofText text config = .ok workspace ∧
      workspace.namespaceFiles.outcome = .ok files ∧
      ∀ entry ∈ workspace.registry, entry.identity.kind ≠ .enumeration →
        (∃ file ∈ files, ∃ item ∈ file.exports, ∃ resolution type guard,
          ⟨file.fileName, file.content⟩ ∈ output.files ∧ Text.Contains file.content item.text ∧
          item.entry = entry ∧ item.guard = some resolution ∧
          item.type.text = type.layout ∧ workspace.writtenType? entry = some type ∧
          resolution.text = guard.layout ∧ workspace.writtenGuard? entry = some guard) ∧
        ∀ (Object : Type) (realm : Realm Object) (state : Option Lifecycle) (value : Value Object),
          workspace.Conforms realm entry state [] value →
            (workspace.Accepts realm entry state value ↔ workspace.IsClear realm entry state value) := by
  rw [generate] at h
  rcases except_bind_ok h with ⟨workspace, hworkspace, h⟩
  rcases Workspace.ofText_ok hworkspace with ⟨hconfig, kinds, hsound⟩
  rw [← hconfig] at hguards htypeMappings hguardMappings
  rcases Workspace.generate_ok h with ⟨hvalid, files, routes, hfiles, _, houtput⟩
  rcases Workspace.namespaceFiles_ok hfiles with ⟨hholds, hscopes⟩
  have htypes := Config.validate_eq_ok_iff.1 hvalid (.inl hguards)
  refine ⟨workspace, files, hworkspace, hfiles, ?_⟩
  intro entry hentry hkind
  constructor
  · rcases hscopes htypes entry hentry with ⟨file, hfile, hscope⟩
    rcases (hholds file hfile).exported entry hentry hscope.symm with ⟨item, hitem, hexports⟩
    have henumeration : item.isEnumeration = false := by
      rcases hsound.lists.sound entry hentry with ⟨_, node, hnode, hidentity, _⟩
      rw [Node.kind_of_identity? hidentity] at hkind
      rw [hexports.isEnumeration_eq, hnode]
      simpa using hkind
    rw [hscope] at hexports
    rcases hexports.written hguards hkind henumeration with ⟨resolution, type, guard, hwritten⟩
    have hstored : ⟨file.fileName, file.content⟩ ∈ output.files := by
      rw [houtput]
      simp only [List.mem_append, List.mem_map]
      exact .inl (.inl ⟨file, hfile, rfl⟩)
    exact ⟨file, hfile, item, hitem, resolution, type, guard, hstored, file.contains_item hitem,
      hexports.entry_eq, hwritten⟩
  · intro Object realm state value hconforms
    exact Workspace.accepts_iff_isClear
      (Workspace.isUnmapped_of_config htypeMappings hguardMappings) hconforms

namespace Sample
open Text Workspace

def variantText : String :=
  "<schema rootNamespaces=\"A\"><namespace name=\"A\"><model name=\"M\"><property name=\"choice\"><union>" ++
    "<model><property name=\"x\" type=\"string\"/></model><ref type=\"null\"/>" ++
    "</union></property></model></namespace></schema>"

def variantGraph : Graph where
  roots := ["A"]
  nodes := #[.model { decl := { name := some "M", scope := ["A"] }, properties := [{ name := "choice", type := 4 }] },
             .scalar ⟨{ name := some "string", scope := builtinScope }, none⟩,
             .model { decl := {}, properties := [{ name := "x", type := 1 }] },
             .primitive (.intrinsic .null),
             .union ⟨{}, [2, 3]⟩]
  declarations := [0]
  names := [("A.M", 0)]

def variantWorkspace : Workspace := ⟨variantGraph, restrictedRegistry, { emitGuards := true }⟩

theorem ofText_variantText : Graph.ofText variantText = .ok variantGraph :=
  (Graph.ofText_eq (toList_append (toList_append (toList_literal rfl) (toList_literal rfl)) (toList_literal rfl))
    (by decide)).trans (by decide +kernel)

theorem validate_variantGraph : variantGraph.validate = .ok () := by decide

theorem ofGraph_variantGraph : Registry.ofGraph variantGraph = .ok restrictedRegistry := by decide

def choice : Expansion :=
  .union [.model none [⟨"x", .terminal .string, false, none, none⟩], .primitive (.intrinsic .null)]

theorem expand_variantWorkspace (mode : Mode) :
    (variantWorkspace.expand mode false [] 0).outcome =
      .ok (.model none [⟨"choice", choice, false, none, none⟩]) := by
  have hstring : variantWorkspace.expand mode true [2, 4, 0] 1 = pure (.terminal .string) := by
    have hnode : variantWorkspace.graph.node? 1 =
      some (.scalar ⟨{ name := some "string", scope := builtinScope }, none⟩) := rfl
    rw [expand_node variantWorkspace mode hnode rfl (by decide)]
    cases mode <;> rfl
  have hmodel : variantWorkspace.expand mode true [4, 0] 2 =
      pure (.model none [⟨"x", .terminal .string, false, none, none⟩]) := by
    have hnode : variantWorkspace.graph.node? 2 =
      some (.model { decl := {}, properties := [{ name := "x", type := 1 }] }) := rfl
    rw [expand_node variantWorkspace mode hnode rfl (by decide)]
    cases mode <;> simp [expandNode, expandModel, expandProperty, hstring] <;> rfl
  have hnull : variantWorkspace.expand mode true [4, 0] 3 = pure (.primitive (.intrinsic .null)) := by
    rw [expand_node variantWorkspace mode rfl rfl (by decide)]
    rfl
  have hunion : variantWorkspace.expand mode true [0] 4 = pure choice := by
    have hnode : variantWorkspace.graph.node? 4 = some (.union ⟨{}, [2, 3]⟩) := rfl
    rw [expand_node variantWorkspace mode hnode rfl (by decide)]
    simp [expandNode, hmodel, hnull]
    rfl
  have hnode : variantWorkspace.graph.node? 0 = some (.model
    { decl := { name := some "M", scope := ["A"] }, properties := [{ name := "choice", type := 4 }] }) := rfl
  rw [expand_node variantWorkspace mode hnode rfl (by decide)]
  cases mode <;> simp [expandNode, expandModel, expandProperty, hunion] <;> rfl

/-- An object whose choice is a value, and one with an empty text. -/
def choiceRealm (choice : Value Bool) : Realm Bool where
  length? _ := none
  isFunction _ := false
  isInstance _ _ := false
  property? place key :=
    if place then (if key = "choice" then some choice else none)
    else if key = "x" then some (.string []) else none
  entries _ := []
  inherited? _ _ := none
  denotes _ _ := False

theorem expansion?_variantWorkspace (mode : Mode) : ∀ entry ∈ variantWorkspace.registry,
    variantWorkspace.expansion? mode entry = some (.model none [⟨"choice", choice, false, none, none⟩]) := by
  intro entry hentry
  rw [List.mem_singleton.1 hentry, expansion?, expand_variantWorkspace]
  rfl

theorem conforms_null : ∀ entry ∈ variantWorkspace.registry,
    variantWorkspace.ConformsAt (choiceRealm .null) 1 entry none [] (.object true) := by
  intro entry hentry
  refine ⟨_, writtenType?_eq_some.2 ⟨_, expansion?_variantWorkspace .type entry hentry, rfl⟩, ?_⟩
  exact ⟨rfl, .inr (.inr (.inl rfl)), trivial⟩

theorem ofText_variantWorkspace :
    Workspace.ofText variantText { emitGuards := true } = .ok variantWorkspace :=
  Workspace.ofText_eq ofText_variantText validate_variantGraph ofGraph_variantGraph _

end Sample

/-- The guard of the variant document accepts an object whose choice is an object. -/
theorem generate_accepts_variantText : ∃ output workspace,
    generate Sample.variantText { emitGuards := true } = .ok output ∧
      Workspace.ofText Sample.variantText { emitGuards := true } = .ok workspace ∧
      ∀ entry ∈ workspace.registry,
        workspace.Accepts (Sample.choiceRealm (.object false)) entry none (.object true) := by
  have hok : Sample.variantWorkspace.generate.isOk = true := by decide +kernel
  have hrun : generate Sample.variantText { emitGuards := true } = Sample.variantWorkspace.generate := by
    rw [generate, Sample.ofText_variantWorkspace]
    rfl
  rw [← hrun] at hok
  cases hgenerate : generate Sample.variantText { emitGuards := true } with
  | error error =>
    rw [hgenerate] at hok
    cases hok
  | ok output =>
    rcases generate_accepts hgenerate rfl rfl rfl with ⟨workspace, _, hworkspace, _, haccepts⟩
    cases Sample.ofText_variantWorkspace.symm.trans hworkspace
    refine ⟨output, _, rfl, hworkspace, ?_⟩
    intro entry hentry
    have hkind : entry.identity.kind ≠ .enumeration := by
      rw [List.mem_singleton.1 hentry]
      decide
    have hconforms : Sample.variantWorkspace.ConformsAt (Sample.choiceRealm (.object false)) 1 entry none []
        (.object true) := by
      refine ⟨_, Workspace.writtenType?_eq_some.2
        ⟨_, Sample.expansion?_variantWorkspace .type entry hentry, rfl⟩, ?_⟩
      exact ⟨rfl, .inr (.inl ⟨rfl, .inr rfl, trivial⟩), trivial⟩
    refine ((haccepts entry hentry hkind).2 Bool _ none _ hconforms.conforms).2 ⟨1, hkind, _,
      Sample.expansion?_variantWorkspace .guard entry hentry, ?_, trivial⟩
    exact .inl ⟨⟨rfl, .inr rfl, trivial⟩, trivial, trivial⟩

/-- The guard of the variant document throws on an object whose choice is null, which conforms. -/
theorem answerAt_variantText : Workspace.ofText Sample.variantText { emitGuards := true } =
    .ok Sample.variantWorkspace ∧ ∀ entry ∈ Sample.variantWorkspace.registry,
      Sample.variantWorkspace.Conforms (Sample.choiceRealm .null) entry none [] (.object true) ∧
      ∀ depth, Sample.variantWorkspace.answerAt (Sample.choiceRealm .null) (depth + 1) entry none
        (.object true) = .throws := by
  refine ⟨Sample.ofText_variantWorkspace, ?_⟩
  intro entry hentry
  refine ⟨(Sample.conforms_null entry hentry).conforms, ?_⟩
  intro depth
  have hkind : entry.identity.kind ≠ .enumeration := by
    rw [List.mem_singleton.1 hentry]
    decide
  rw [Workspace.answerAt, Workspace.writtenGuard?, if_neg hkind,
    Sample.expansion?_variantWorkspace .guard entry hentry, Option.map_some]
  simp only
  rw [Workspace.guardOf, Guard.run_ofExpansion _ _ _ _ rfl]
  rfl

end SchemaGuards
