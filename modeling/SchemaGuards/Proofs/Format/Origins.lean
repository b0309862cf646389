import SchemaGuards.Proofs.Format.Whole
import SchemaGuards.Proofs.Linking.Linked
import SchemaGuards.Proofs.Paths

/-!
# Where the contents of documents come from

Every declaration and every operation of a draft is written by an element that stands in a namespace of the
document, and every type by one inside of that. So what holds of each of them by the rules of the format holds
of all that is read, with no reader in sight.
-/
namespace SchemaGuards

namespace Markup

/-- A tree among others or somewhere inside of them. -/
inductive Tree.StandsIn (item : Tree) : List Tree → Prop
  | here {trees : List Tree} : item ∈ trees → item.StandsIn trees
  | inside {outer : Tree} {trees : List Tree} :
    outer ∈ trees → item.StandsIn outer.children → item.StandsIn trees

theorem Tree.StandsIn.mono {item : Tree} {trees others : List Tree} (h : item.StandsIn trees)
    (hsubset : trees ⊆ others) : item.StandsIn others := by
  cases h with
  | here hitem => exact .here (hsubset hitem)
  | inside houter hinside => exact .inside (hsubset houter) hinside

end Markup

namespace Draft
open Markup

theorem WritesDeclaration.writesBody {scope : Scope} {tree : Tree} {declaration : Declaration}
    (h : WritesDeclaration scope tree declaration) : WritesBody tree declaration.body := by
  cases h with
  | intro _ hbody => exact hbody

/-- Contents whose declarations and operations are written inside of some trees, each by one that stands in a
namespace. The segments of namespaces have no dots. -/
structure Contents.ComesFrom (contents : Contents) (trees : List Tree) : Prop where
  declarations : ∀ declaration ∈ contents.declarations, ∃ scope item, Scope.IsWritten scope ∧
    Tree.StandsIn item trees ∧ WritesDeclaration scope item declaration
  operations : ∀ operation ∈ contents.operations, ∃ scope item, Scope.IsWritten scope ∧
    Tree.StandsIn item trees ∧ WritesOperation scope item operation

namespace Contents.ComesFrom
variable {contents others : Contents} {trees trees' : List Tree}

theorem empty : Contents.ComesFrom {} trees := ⟨by simp, by simp⟩

theorem imp (h : contents.ComesFrom trees) (hstands : ∀ item : Tree, item.StandsIn trees → item.StandsIn trees') :
    contents.ComesFrom trees' := by
  constructor
  · intro declaration hdeclaration
    obtain ⟨scope, item, hscope, hitem, hwrites⟩ := h.declarations declaration hdeclaration
    exact ⟨scope, item, hscope, hstands item hitem, hwrites⟩
  · intro operation hoperation
    obtain ⟨scope, item, hscope, hitem, hwrites⟩ := h.operations operation hoperation
    exact ⟨scope, item, hscope, hstands item hitem, hwrites⟩

theorem cons {tree : Tree} (h : contents.ComesFrom [tree]) (h' : others.ComesFrom trees) :
    (contents ++ others).ComesFrom (tree :: trees) := by
  have hsingle : [tree] ⊆ tree :: trees := by simp
  have hfirst := h.imp fun item hitem => hitem.mono hsingle
  have hrest := h'.imp fun item hitem => hitem.mono (List.subset_cons_self tree trees)
  constructor
  · intro declaration hdeclaration
    exact (List.mem_append.1 hdeclaration).elim (hfirst.declarations declaration) (hrest.declarations declaration)
  · intro operation hoperation
    exact (List.mem_append.1 hoperation).elim (hfirst.operations operation) (hrest.operations operation)

end Contents.ComesFrom

mutual
/-- Only namespaces stand outside of namespaces. -/
theorem WritesItem.comesFrom {outer : Scope} {tree : Tree} {contents : Contents} (houter : outer.IsSegmented)
    (hitem : tree.name = "namespace" ∨ outer ≠ []) (h : WritesItem outer tree contents) :
    contents.ComesFrom [tree] := by
  cases h with
  | @inner _ name _ _ _ _ hitems =>
    have hscope := Scope.isWritten_append houter (Scope.isWritten_splitText name)
    exact (hitems.comesFrom hscope).imp fun _ hinside => .inside List.mem_cons_self hinside
  | operation hwrites =>
    have hname : tree.name ≠ "namespace" := by
      cases hwrites
      simp
    refine ⟨by simp, fun operation hoperation => ?_⟩
    cases List.mem_singleton.1 hoperation
    exact ⟨outer, tree, ⟨houter, hitem.resolve_left hname⟩, .here List.mem_cons_self, hwrites⟩
  | declaration hwrites =>
    have hname : tree.name ≠ "namespace" := by
      intro hname
      simpa [hname] using hwrites.writesBody.name_mem
    refine ⟨fun declaration hdeclaration => ?_, by simp⟩
    cases List.mem_singleton.1 hdeclaration
    exact ⟨outer, tree, ⟨houter, hitem.resolve_left hname⟩, .here List.mem_cons_self, hwrites⟩

theorem WritesItems.comesFrom {scope : Scope} {trees : List Tree} {contents : Contents} (hscope : scope.IsWritten)
    (h : WritesItems scope trees contents) : contents.ComesFrom trees := by
  cases h with
  | nil => exact .empty
  | cons hfirst hrest =>
    exact (hfirst.comesFrom hscope.segmented (.inr hscope.nonempty)).cons (hrest.comesFrom hscope)
end

theorem WritesNamespaces.comesFrom {trees : List Tree} {contents : Contents} (h : WritesNamespaces trees contents) :
    contents.ComesFrom trees := by
  induction h with
  | nil => exact .empty
  | cons hname hfirst _ ih => exact (hfirst.comesFrom Scope.isSegmented_nil (.inl hname)).cons ih

theorem WritesSchema.comesFrom {tree : Tree} {draft : Draft} (h : WritesSchema tree draft) :
    draft.contents.ComesFrom tree.children := by
  cases h with
  | intro hcontents => exact hcontents.comesFrom

section Parts
variable {attributes : List Attribute} {children : List Tree}

/-- What holds of names and of the types among the children holds of the type that is given. -/
theorem WritesType.holds {p : Form → Prop} {found : Option Form} (h : WritesType attributes children found)
    (hnamed : ∀ name, p (.named name)) (hchildren : ∀ child ∈ children, ∀ form, WritesForm child form → p form) :
    ∀ form ∈ found, p form := by
  cases h with
  | absent => simp
  | named => simpa using hnamed _
  | nested _ hform => simpa using hchildren _ (by simp) _ hform

/-- The bodies of an operation are the types of its requests and responses. -/
theorem WritesExchanges.bodies {request : Option Form} {responses : List (Response Form)}
    (h : WritesExchanges children request responses) :
    ∀ form ∈ request.toList ++ responses.filterMap Response.body,
      ∃ child ∈ children, WritesType child.attributes child.children (some form) := by
  induction h with
  | nil => simp
  | request htype _ ih =>
    intro form hform
    rcases List.mem_cons.1 hform with rfl | hform
    · exact ⟨_, List.mem_cons_self, htype⟩
    · obtain ⟨child, hchild, hwrites⟩ := ih form (by simpa using hform)
      exact ⟨child, List.mem_cons_of_mem _ hchild, hwrites⟩
  | @response tree _ request response responses hresponse _ ih =>
    intro form hform
    have hsplit : response.body = some form ∨ form ∈ request.toList ++ responses.filterMap Response.body := by
      simp only [List.mem_append, List.mem_filterMap, List.mem_cons, exists_eq_or_imp] at hform ⊢
      tauto
    rcases hsplit with hbody | hform
    · cases hresponse with
      | intro _ htype =>
        cases hbody
        exact ⟨_, List.mem_cons_self, htype⟩
    · obtain ⟨child, hchild, hwrites⟩ := ih form hform
      exact ⟨child, List.mem_cons_of_mem _ hchild, hwrites⟩

theorem WritesOperation.bodies {scope : Scope} {tree : Tree} {operation : Operation Form}
    (h : WritesOperation scope tree operation) :
    ∀ form ∈ operation.bodies, ∃ child ∈ tree.children, WritesType child.attributes child.children (some form) := by
  cases h with
  | intro _ _ _ _ hexchanges => exact hexchanges.bodies

end Parts

end Draft
end SchemaGuards
