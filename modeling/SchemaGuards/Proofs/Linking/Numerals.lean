import SchemaGuards.Proofs.Linking.Documents
import SchemaGuards.Proofs.Linking.Holdings

/-!
# Numbers of documents

A number gets into a draft through an element or an attribute that takes nothing but a finite decimal literal.
So every number in the graph of a document is one, and every base is declared.
-/
namespace SchemaGuards

namespace Draft
open Markup

theorem areNumeric_of_forall {forms : List Form} (h : ∀ form ∈ forms, form.IsNumeric) : AreNumeric forms := by
  induction forms with
  | nil => trivial
  | cons form rest ih =>
    exact ⟨h form List.mem_cons_self, ih fun other hother => h other (List.mem_cons_of_mem _ hother)⟩

theorem propertiesNumeric_of_forall {properties : List (Property Form)}
    (h : ∀ property ∈ properties, PropertyNumeric property) : PropertiesNumeric properties := by
  induction properties with
  | nil => trivial
  | cons property rest ih =>
    exact ⟨h property List.mem_cons_self, ih fun other hother => h other (List.mem_cons_of_mem _ hother)⟩

/-- The numbers of types and properties, which hold one another, are finite decimal literals. -/
theorem writesForm_and_writesProperty_numeric (tree : Tree) :
    (∀ form, WritesForm tree form → form.IsNumeric) ∧
      ∀ property, WritesProperty tree property → PropertyNumeric property := by
  induction tree using Tree.induct with
  | step name attributes children ih =>
    have hforms := fun child hchild => (ih child hchild).1
    constructor
    · intro form h
      cases h with
      | number _ hnumber => exact hnumber.2
      | reference | string | boolean | unsupported => trivial
      | array htype | record htype =>
        rw [Form.IsNumeric]
        exact htype.holds (fun _ => trivial) hforms _ rfl
      | tuple hparts | union hparts =>
        refine areNumeric_of_forall fun part hpart => ?_
        obtain ⟨child, hchild, hwrites⟩ := (mem_of_forall₂ hparts).2 part hpart
        exact hforms child hchild part hwrites
      | model hproperties =>
        refine propertiesNumeric_of_forall fun property hproperty => ?_
        obtain ⟨child, hchild, hwrites⟩ := (mem_of_forall₂ hproperties).2 property hproperty
        exact (ih child hchild).2 property hwrites
    · intro property h
      cases h with
      | intro _ htype => exact htype.holds (fun _ => trivial) hforms _ rfl

theorem WritesForm.isNumeric {tree : Tree} {form : Form} (h : WritesForm tree form) : form.IsNumeric :=
  (writesForm_and_writesProperty_numeric tree).1 form h

theorem WritesMember.isNumeric {tree : Tree} {member : Member} (h : WritesMember tree member) : member.IsNumeric := by
  obtain ⟨_, hvalue⟩ := h
  intro text htext
  cases hvalue with
  | number _ hnumber =>
    cases htext
    exact hnumber.2
  | string | absent => cases htext

theorem WritesBody.isNumeric {tree : Tree} {body : Body} (h : WritesBody tree body) : body.IsNumeric := by
  cases h with
  | model hproperties =>
    refine propertiesNumeric_of_forall fun property hproperty => ?_
    obtain ⟨child, _, hwrites⟩ := (mem_of_forall₂ hproperties).2 property hproperty
    exact (writesForm_and_writesProperty_numeric child).2 property hwrites
  | enumeration hmembers =>
    intro member hmember
    obtain ⟨child, _, hwrites⟩ := (mem_of_forall₂ hmembers).2 member hmember
    exact hwrites.isNumeric
  | union hvariants =>
    refine areNumeric_of_forall fun variant hvariant => ?_
    obtain ⟨child, _, hwrites⟩ := (mem_of_forall₂ hvariants).2 variant hvariant
    exact hwrites.isNumeric
  | scalar => trivial

def BodiesNumeric (operation : Operation Form) : Prop := ∀ form ∈ operation.bodies, form.IsNumeric

theorem WritesOperation.bodiesNumeric {scope : Scope} {tree : Tree} {operation : Operation Form}
    (h : WritesOperation scope tree operation) : BodiesNumeric operation := by
  intro form hform
  obtain ⟨_, _, htype⟩ := h.bodies form hform
  exact htype.holds (fun _ => trivial) (fun _ _ _ => WritesForm.isNumeric) form rfl

theorem Contents.ComesFrom.isNumeric {contents : Contents} {trees : List Tree} (h : contents.ComesFrom trees) :
    contents.IsNumeric := by
  constructor
  · intro declaration hdeclaration
    obtain ⟨_, _, _, _, hwrites⟩ := h.declarations declaration hdeclaration
    exact hwrites.writesBody.isNumeric
  · intro operation hoperation
    obtain ⟨_, _, _, _, hwrites⟩ := h.operations operation hoperation
    exact hwrites.bodiesNumeric

end Draft

/-- In the graph of a document numbers are finite decimal literals and bases are declared. -/
theorem Graph.ofText_isMade {text : String} {graph : Graph} (h : Graph.ofText text = .ok graph) : graph.IsMade := by
  rw [Graph.ofText] at h
  obtain ⟨draft, hdraft, hlink⟩ := except_bind_ok h
  obtain ⟨tree, _, hwrites⟩ := Draft.ofDocument_writes hdraft
  exact Draft.link_isMade hwrites.comesFrom.isNumeric hlink

end SchemaGuards
