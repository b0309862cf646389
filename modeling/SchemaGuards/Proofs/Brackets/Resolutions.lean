import SchemaGuards.Proofs.Brackets.Written

/-!
# Resolutions are well bracketed

As long as declarations and namespaces are named by identifiers and no text comes from the configuration or from
documentation, every resolution is a balanced text, whatever its properties, its members and its literals hold.
-/
namespace SchemaGuards
open Text

/-- The contexts of a file and of no file, and those inside of nodes below them. -/
inductive Context.Arises : Context → Prop
  | ofScope (scope : Scope) : Arises (.ofScope scope)
  | detached : Arises .detached
  | enter {context : Context} (h : Arises context) (id : NodeId) : Arises (context.enter id)
  | enterFlat {context : Context} (h : Arises context) (id : NodeId) : Arises (context.enterFlat id)

theorem Context.Arises.defaults {context : Context} (h : context.Arises) :
    context.accessor = "t" ∧ context.lifecycle = "V" := by
  induction h with
  | ofScope | detached => exact ⟨rfl, rfl⟩
  | enter _ _ ih | enterFlat _ _ ih => exact ih

namespace Workspace
variable {workspace : Workspace} {id : NodeId} {context : Context} {resolution : Resolution}

theorem resolve_type_isBalanced (h : workspace.IsClean IsIdentifier) (hdocs : workspace.config.emitDocs = false)
    (hlifecycle : IsBalanced context.lifecycle)
    (hresolution : (workspace.resolve .type id context).outcome = .ok resolution) :
    IsBalanced (Layout.flat resolution.text) := by
  rcases resolve_ok hresolution with ⟨expansion, hexpansion, rfl⟩
  exact TypeExpr.isBalanced_ofExpansion hdocs hlifecycle _ expansion (h.expand hexpansion)

theorem resolve_guard_isBalanced (h : workspace.IsClean IsIdentifier) (haccessor : IsBalanced context.accessor)
    (hresolution : (workspace.resolve .guard id context).outcome = .ok resolution) :
    IsBalanced (Layout.flat resolution.text) := by
  rcases resolve_ok hresolution with ⟨expansion, hexpansion, rfl⟩
  exact Guard.isBalanced_ofExpansion context.target (.named context.accessor) haccessor expansion (h.expand hexpansion)

end Workspace

/-- When the declared names and the segments of their namespaces are identifiers, no scalar is mapped and no
documentation is written, the text of every resolution closes its literals and brackets, in both modes, for every node
and in every context over the default value. -/
theorem resolve_isNested {text : String} {graph : Graph} {registry : Registry} (hgraph : Graph.ofText text = .ok graph)
    (hregistry : Registry.ofGraph graph = .ok registry) (hnames : graph.DeclaresOnly IsIdentifier) (config : Config)
    (htypes : config.typeMappings = []) (hguards : config.guardMappings = []) (hdocs : config.emitDocs = false)
    (mode : Mode) (id : NodeId) {context : Context} (hcontext : context.Arises) {resolution : Resolution}
    (h : (Workspace.resolve ⟨graph, registry, config⟩ mode id context).outcome = .ok resolution) :
    IsNested (Layout.flat resolution.text).toList := by
  have hclean : Workspace.IsClean ⟨graph, registry, config⟩ IsIdentifier :=
    Workspace.isClean_of_text hgraph hregistry hnames htypes hguards
  obtain ⟨haccessor, hlifecycle⟩ := hcontext.defaults
  have hvalue : IsBalanced context.accessor := haccessor ▸ by decide
  have hargument : IsBalanced context.lifecycle := hlifecycle ▸ by decide
  rw [← isBalanced_iff]
  cases mode with
  | type => exact Workspace.resolve_type_isBalanced hclean hdocs hargument h
  | guard => exact Workspace.resolve_guard_isBalanced hclean hvalue h

namespace Sample
open Draft Markup

/-- A model with an optional property whose name holds a quote, a bracket and a double bar. -/
def barredText : String :=
  "<schema><namespace name=\"A\"><model name=\"M\"><property name=\"a']||\" type=\"string\" optional=\"true\"/>" ++
    "<property name=\"b\" type=\"string\"/></model></namespace></schema>"

def barredGraph : Graph where
  nodes := #[.model { decl := { name := some "M", scope := ["A"] },
                      properties := [{ name := "a']||", type := 1, optional := true }, { name := "b", type := 1 }] },
             .scalar ⟨{ name := some "string", scope := builtinScope }, none⟩]
  declarations := [0]
  names := [("A.M", 0)]

def barredRegistry : Registry := [⟨⟨.model, "M", ["A"]⟩, 0⟩]

theorem ofText_barredText : Graph.ofText barredText = .ok barredGraph :=
  (Graph.ofText_eq (toList_append (toList_literal rfl) (toList_literal rfl)) (by decide)).trans (by decide +kernel)

theorem ofGraph_barredGraph : Registry.ofGraph barredGraph = .ok barredRegistry := by decide

theorem declaresOnly_barredGraph : barredGraph.DeclaresOnly IsIdentifier := by
  intro id hid node hnode
  cases List.mem_singleton.1 hid
  cases hnode
  decide

end Sample

/-- The guard of a model whose property quotes, closes and separates. -/
theorem resolve_isNested_barredText :
    ∃ resolution, (Workspace.resolve ⟨Sample.barredGraph, Sample.barredRegistry, { emitDocs := false }⟩ .guard 0
        (.ofScope ["A"])).outcome = .ok resolution ∧
      Layout.flat resolution.text = "(t['a\\']||'] === undefined || (typeof t['a\\']||'] === 'string')) && " ++
        "t['b'] !== undefined && (typeof t['b'] === 'string')" ∧
      IsNested (Layout.flat resolution.text).toList := by
  have hany : (Workspace.resolve ⟨Sample.barredGraph, Sample.barredRegistry, { emitDocs := false }⟩ .guard 0
      (.ofScope ["A"])).outcome.toOption.any (fun resolution => Layout.flat resolution.text =
        "(t['a\\']||'] === undefined || (typeof t['a\\']||'] === 'string')) && " ++
          "t['b'] !== undefined && (typeof t['b'] === 'string')") = true := by decide +kernel
  obtain ⟨resolution, hresolution, htext⟩ := exists_ok_of_any hany
  exact ⟨resolution, hresolution, htext, resolve_isNested Sample.ofText_barredText Sample.ofGraph_barredGraph
    Sample.declaresOnly_barredGraph { emitDocs := false } rfl rfl rfl .guard 0 (.ofScope ["A"]) hresolution⟩

end SchemaGuards
