import SchemaGuards.Proofs.Files
import SchemaGuards.Proofs.Linking.Segments

/-!
# What a root covers

A named declaration is registered when the first segment of its namespace is a root. An operation has a place in
a route file when its namespace begins with all the segments of a root. What is registered has its place,
but a root of several segments may give a place to what is not registered.
-/
namespace SchemaGuards
open Emission

variable {scope : Scope} {first : String}

theorem covers_head (h : scope.IsSegmented) (hfirst : scope.head? = some first) : Covers first scope := by
  rcases List.head?_eq_some_iff.1 hfirst with ⟨rest, rfl⟩
  rw [Covers, Text.splitText_eq_singleton (h first List.mem_cons_self)]
  exact ⟨rest, rfl⟩

theorem isRooted_iff {roots : List String} :
    isRooted roots scope = true ↔ roots = [] ∨ ∃ first ∈ roots, scope.head? = some first := by
  rw [isRooted, Bool.or_eq_true, List.isEmpty_iff, Option.any_eq_true]
  refine or_congr Iff.rfl ⟨?_, ?_⟩
  · rintro ⟨first, hfirst, hroot⟩
    exact ⟨first, of_decide_eq_true hroot, hfirst⟩
  · rintro ⟨first, hroot, hfirst⟩
    exact ⟨first, hfirst, decide_eq_true hroot⟩

/-- What is declared under a root is covered by it. -/
theorem covered_of_isRooted {roots : List String} (h : scope.IsSegmented) (hrooted : isRooted roots scope = true) :
    roots = [] ∨ ∃ root ∈ roots, Covers root scope := by
  rcases isRooted_iff.1 hrooted with hempty | ⟨first, hroot, hfirst⟩
  · exact .inl hempty
  · exact .inr ⟨first, hroot, covers_head h hfirst⟩

theorem Node.exists_identity_iff {node : Node} (hne : node.scope ≠ []) :
    (∃ identity, node.identity? = some identity) ↔ ∃ name, node.name? = some name ∧ name ≠ "" := by
  rw [identity?]
  cases node.name? with
  | none => simp
  | some name => simp [hne]

/-- A declaration is registered exactly when it has an identity and its namespace is rooted. -/
theorem Registry.Lists.registered_iff {registry : Registry} {graph : Graph} (h : registry.Lists graph) {id : NodeId}
    {node : Node} (hid : id ∈ graph.declarations) (hnode : graph.node? id = some node) :
    (∃ entry ∈ registry, entry.node = id) ↔
      (∃ identity, node.identity? = some identity) ∧ isRooted graph.roots node.scope = true := by
  constructor
  · rintro ⟨entry, hentry, rfl⟩
    obtain ⟨_, found, hfound, hidentity, hrooted⟩ := h.sound entry hentry
    cases hnode.symm.trans hfound
    rw [(Node.scope_of_identity? hidentity).1] at hrooted
    exact ⟨⟨entry.identity, hidentity⟩, hrooted⟩
  · rintro ⟨⟨identity, hidentity⟩, hrooted⟩
    rw [← (Node.scope_of_identity? hidentity).1] at hrooted
    exact ⟨_, (Registry.find?_some (h.complete id hid node identity hnode hidentity hrooted)).1, rfl⟩

namespace Workspace
variable {workspace : Workspace}

/-- An operation has a place in some route file exactly when a routed root covers it. -/
theorem routeFiles_includes {routes : List RouteFile} (h : workspace.routeFiles.outcome = .ok routes)
    {operation : Operation NodeId} (hoperation : operation ∈ workspace.graph.operations) :
    (∃ route ∈ routes, route.Includes operation) ↔ ∃ root ∈ workspace.routedRoots, Covers root operation.scope := by
  have hpairs := mem_of_forall₂ (routeFiles_forall₂ h)
  constructor
  · rintro ⟨route, hroute, hincludes⟩
    rcases hpairs.2 route hroute with ⟨root, hroot, hfile⟩
    exact ⟨root, hroot, (routeFile_includes hfile hoperation).1 hincludes⟩
  · rintro ⟨root, hroot, hcovers⟩
    rcases hpairs.1 root hroot with ⟨route, hroute, hfile⟩
    exact ⟨route, hroute, (routeFile_includes hfile hoperation).2 hcovers⟩

/-- Without configured roots every operation is covered, by the first segment of its namespace. -/
theorem covered_of_operation (hroutes : workspace.config.emitRoutes = true) {operation : Operation NodeId}
    (hoperation : operation ∈ workspace.graph.operations) (hscope : operation.scope.IsWritten) :
    (∃ root ∈ workspace.routedRoots, Covers root operation.scope) ↔
      workspace.graph.roots = [] ∨ ∃ root ∈ workspace.graph.roots, Covers root operation.scope := by
  rw [routedRoots, if_pos hroutes, RouteFile.roots]
  by_cases hroots : workspace.graph.roots = []
  · rw [hroots, List.isEmpty_nil, if_pos rfl]
    have hfirst := List.head?_eq_some_head hscope.nonempty
    refine iff_of_true ⟨operation.scope.head hscope.nonempty, ?_, ?_⟩ (.inl rfl)
    · exact mem_distinct.2 (List.mem_filterMap.2 ⟨operation, hoperation, hfirst⟩)
    · exact covers_head hscope.segmented hfirst
  · rw [if_neg (by simpa using hroots)]
    exact (or_iff_right hroots).symm

end Workspace

/-- A named declaration of a document is registered when the first segment of its namespace is a root, and an
operation in its namespace has a place in the route files of any run with these roots when a root covers the
namespace with all its segments; without roots both are so. What is registered has its place. The two agree
exactly when what has its place is named, and no root covers the namespace unless its first segment is a root as
well. -/
theorem registered_iff_included {text : String} {graph : Graph} {registry : Registry}
    (hgraph : Graph.ofText text = .ok graph) (hregistry : Registry.ofGraph graph = .ok registry) {id : NodeId}
    {node : Node} (hid : id ∈ graph.declarations) (hnode : graph.node? id = some node) :
    let IsNamed := ∃ name, node.name? = some name ∧ name ≠ ""
    let IsFirst := ∃ first ∈ graph.roots, node.scope.head? = some first
    let IsRegistered := ∃ entry ∈ registry, entry.node = id
    let IsCovered := graph.roots = [] ∨ ∃ root ∈ graph.roots, Covers root node.scope
    (IsRegistered ↔ IsNamed ∧ (graph.roots = [] ∨ IsFirst)) ∧
    (∀ workspace : Workspace, workspace.graph.roots = graph.roots → workspace.config.emitRoutes = true →
      ∀ routes, workspace.routeFiles.outcome = .ok routes →
      ∀ operation ∈ workspace.graph.operations, operation.scope = node.scope →
        ((∃ route ∈ routes, route.Includes operation) ↔ IsCovered)) ∧
    (IsRegistered → IsCovered) ∧
    ((IsRegistered ↔ IsCovered) ↔
      (IsCovered → IsNamed) ∧ ∀ root ∈ graph.roots, Covers root node.scope → IsFirst) := by
  intro IsNamed IsFirst IsRegistered IsCovered
  obtain ⟨kinds, hlinked, _⟩ := Graph.ofText_isLinked hgraph
  have hwritten : node.scope.IsWritten := (Graph.ofText_isWritten hgraph).1 id hid node hnode
  have hrooted := (hlinked.lists hregistry).registered_iff hid hnode
  have hregistered : IsRegistered ↔ IsNamed ∧ (graph.roots = [] ∨ IsFirst) :=
    hrooted.trans (and_congr (Node.exists_identity_iff hwritten.nonempty) isRooted_iff)
  have hcovered : IsRegistered → IsCovered := fun h => covered_of_isRooted hwritten.segmented (hrooted.1 h).2
  refine ⟨hregistered, ?_, hcovered, ?_⟩
  · intro workspace hroots hemit routes hroutes operation hoperation hscope
    rw [Workspace.routeFiles_includes hroutes hoperation,
      Workspace.covered_of_operation hemit hoperation (hscope ▸ hwritten), hroots, hscope]
  · constructor
    · intro hiff
      refine ⟨fun hcovers => (hregistered.1 (hiff.2 hcovers)).1, fun root hroot hcovers => ?_⟩
      rcases (hregistered.1 (hiff.2 (.inr ⟨root, hroot, hcovers⟩))).2 with hempty | hfirst
      · rw [hempty] at hroot
        cases hroot
      · exact hfirst
    · rintro ⟨hnamed, hall⟩
      refine ⟨hcovered, fun hcovers => hregistered.2 ⟨hnamed hcovers, ?_⟩⟩
      rcases hcovers with hempty | ⟨root, hroot, hcovers⟩
      · exact .inl hempty
      · exact .inr (hall root hroot hcovers)

/-- The only root is the first segment of the only namespace. -/
theorem registered_iff_included_restrictedText :
    (∃ entry ∈ Sample.restrictedRegistry, entry.node = 0) ∧ ∃ root ∈ ["A"], Covers root ["A"] := by
  have hagree := (registered_iff_included Sample.ofText_restrictedText Sample.ofGraph_restrictedGraph
    (List.mem_singleton_self 0) rfl).2.2.2
  have hcovers : ∃ root ∈ ["A"], Covers root ["A"] := ⟨"A", List.mem_singleton_self "A", by decide⟩
  have hfirst : ∀ root ∈ ["A"], Covers root ["A"] → ∃ first ∈ ["A"], ["A"].head? = some first :=
    fun _ _ _ => ⟨"A", List.mem_singleton_self "A", rfl⟩
  exact ⟨(hagree.2 ⟨fun _ => ⟨"M", rfl, by decide⟩, hfirst⟩).2 (.inr hcovers), hcovers⟩

namespace Sample
open Text

/-- A model and an operation in the namespace that is the root as a whole. -/
def dottedRootText : String :=
  "<schema rootNamespaces=\"A.B\"><namespace name=\"A.B\"><model name=\"M\"/>" ++
    "<operation name=\"get\" verb=\"get\" path=\"/m\"><response type=\"M\"/></operation></namespace></schema>"

def dottedRootGraph : Graph where
  roots := ["A.B"]
  nodes := #[.model { decl := { name := some "M", scope := ["A", "B"] }, properties := [] }]
  declarations := [0]
  operations := [{ name := "get", scope := ["A", "B"], path := "/m", verb := .get,
                   responses := [⟨none, some 0⟩] }]
  names := [("A.B.M", 0)]

theorem ofText_dottedRootText : Graph.ofText dottedRootText = .ok dottedRootGraph :=
  (Graph.ofText_eq (toList_append (toList_literal rfl) (toList_literal rfl)) (by decide)).trans (by decide +kernel)

end Sample

/-- The operation is in the route file of the root, but the model is not in the registry. -/
theorem included_dottedRootText :
    ∃ graph operation routes, Graph.ofText Sample.dottedRootText = .ok graph ∧ Registry.ofGraph graph = .ok [] ∧
      (graph.node? 0).bind Node.identity? = some ⟨.model, "M", ["A", "B"]⟩ ∧ 0 ∈ graph.declarations ∧
      operation ∈ graph.operations ∧ operation.scope = ["A", "B"] ∧
      (Workspace.mk graph [] { emitRoutes := true }).routeFiles.outcome = .ok routes ∧
      ∃ route ∈ routes, route.Includes operation := by
  have hok : (Workspace.mk Sample.dottedRootGraph [] { emitRoutes := true }).routeFiles.outcome.isOk = true := by
    decide +kernel
  obtain ⟨routes, hroutes⟩ := exists_ok_of_isOk hok
  refine ⟨Sample.dottedRootGraph, _, routes, Sample.ofText_dottedRootText, by decide, rfl,
    List.mem_singleton_self 0, List.mem_singleton_self _, rfl, hroutes, ?_⟩
  refine (Workspace.routeFiles_includes hroutes (List.mem_singleton_self _)).2 ⟨"A.B", ?_, by decide⟩
  exact List.mem_singleton_self "A.B"

end SchemaGuards
