import SchemaGuards.Proofs.Linking.Consistent
import SchemaGuards.Proofs.Linking.Valid
import SchemaGuards.Proofs.Order.Graphs

/-!
# Reordered contents are linked as well, and as valid

Whether a name stands for something and whether a base is of the right kind do not depend on the order of the
declarations. Whether a qualified name is declared anew does in one case only: a declaration without a name of
its own, which nobody can refer to, must not come behind a declaration that is qualified like it. Whether the
graph of a draft is valid is a matter of each declaration and each operation by itself.
-/
namespace SchemaGuards.Draft

/-- No declaration that cannot be referred to is qualified like one that can. -/
def Contents.IsApart (contents : Contents) : Prop :=
  ∀ first ∈ contents.declarations, ∀ second ∈ contents.declarations,
    first.IsNamed → first.qualified = second.qualified → second.IsNamed

theorem Contents.IsApart.of_isNamed {contents : Contents}
    (h : ∀ declaration ∈ contents.declarations, declaration.IsNamed) : contents.IsApart :=
  fun _ _ second hsecond _ _ => h second hsecond

theorem Contents.Reorders.isApart {contents other : Contents} (h : contents.Reorders other)
    (hapart : contents.IsApart) : other.IsApart := by
  intro first hfirst second hsecond
  exact hapart first (h.declarations.mem_iff.2 hfirst) second (h.declarations.mem_iff.2 hsecond)

section Known
variable {contents other : Contents} {scope : Scope}

theorem kindOf_eq {target target' : Target} (h : contents.SharesTarget other target target') :
    kindOf other target' = kindOf contents target := by
  cases h with
  | intrinsic value => rfl
  | declaration place place' hshares =>
    rcases hshares with ⟨declaration, hplace, hplace'⟩
    simp only [kindOf, hplace, hplace']
  | builtin name => rfl
  | member place place' name => rfl

variable (horder : contents.Reorders other)
include horder

theorem Contents.NamesKind.reorder {name : String} {kind : Kind} (h : contents.NamesKind scope name kind) :
    other.NamesKind scope name kind := by
  rcases h with ⟨target, htarget, hkind⟩
  rcases horder.names htarget with ⟨target', htarget', hshares⟩
  exact ⟨target', htarget', (kindOf_eq hshares).trans hkind⟩

theorem Form.IsKnown.reorder {form : Form} (h : form.IsKnown contents scope) : form.IsKnown other scope := by
  induction h with
  | named name target h =>
    rcases horder.names h with ⟨target', htarget', _⟩
    exact .named name target' htarget'
  | indexed kind element _ ih => exact .indexed kind element ih
  | tuple elements _ ih => exact .tuple elements ih
  | union variants _ ih => exact .union variants ih
  | model properties _ ih => exact .model properties ih
  | literal value => exact .literal value
  | unsupported kind => exact .unsupported kind

theorem Body.IsKnown.reorder {body : Body} (h : body.IsKnown contents scope) : body.IsKnown other scope := by
  cases body with
  | model base properties =>
    exact ⟨fun name hname => (h.1 name hname).reorder horder,
      fun property hproperty => (h.2 property hproperty).reorder horder⟩
  | enumeration members => trivial
  | union variants => exact fun variant hvariant => (h variant hvariant).reorder horder
  | scalar base => exact fun name hname => (h name hname).reorder horder

end Known

/-- Among declarations that are apart no qualified name is declared anew, in whatever order they come. -/
theorem pairwise_of_reorders {contents other : Contents} (horder : contents.Reorders other)
    (hdistinct : contents.declarations.Pairwise
      (fun first second => first.IsNamed → first.qualified ≠ second.qualified)) (hapart : contents.IsApart) :
    other.declarations.Pairwise (fun first second => first.IsNamed → first.qualified ≠ second.qualified) := by
  have hboth : contents.declarations.Pairwise
      (fun first second => first.IsNamed ∨ second.IsNamed → first.qualified ≠ second.qualified) := by
    apply hdistinct.imp_of_mem
    intro first second hfirst hsecond h hnamed hqualified
    obtain hnamed | hnamed := hnamed
    · exact h hnamed hqualified
    · exact h (hapart second hsecond first hfirst hnamed hqualified.symm) hqualified
  have hother := (horder.declarations.pairwise_iff (fun {first second} h hnamed hqualified =>
    h hnamed.symm hqualified.symm)).1 hboth
  exact hother.imp (fun h hnamed => h (.inl hnamed))

theorem Contents.IsConsistent.reorder {contents other : Contents} (h : contents.IsConsistent)
    (horder : contents.Reorders other) (hapart : contents.IsApart) : other.IsConsistent := by
  refine ⟨pairwise_of_reorders horder h.distinct hapart, ?_, ?_⟩
  · intro declaration hmem
    exact (h.declarations declaration (horder.declarations.mem_iff.2 hmem)).reorder horder
  · rw [horder.operations_eq]
    intro operation hmem form hform
    exact (h.operations operation hmem form hform).reorder horder

/-- A reordered draft is linked, if the declarations without names are apart from the others. -/
theorem link_reordered {draft other : Draft} (horder : draft.Reorders other) (hapart : draft.contents.IsApart)
    {graph : Graph} (h : draft.link = .ok graph) : ∃ graph', other.link = .ok graph' :=
  link_isOk_iff.2 ((isConsistent_of_link h).reorder horder.contents hapart)

theorem Contents.IsValid.reorder {contents other : Contents} (h : contents.IsValid)
    (horder : contents.Reorders other) : other.IsValid := by
  refine ⟨?_, ?_⟩
  · intro declaration hmem
    exact h.declarations declaration (horder.declarations.mem_iff.2 hmem)
  · rw [horder.operations_eq]
    exact h.operations

/-- The graphs of reordered drafts are both valid or both not. -/
theorem valid_reordered {draft other : Draft} (horder : draft.Reorders other) {graph graph' : Graph}
    (h : draft.link = .ok graph) (h' : other.link = .ok graph') (hvalid : graph.validate = .ok ()) :
    graph'.validate = .ok () := by
  have hcontents := (validate_isOk_iff h).1 hvalid
  exact (validate_isOk_iff h').2 (hcontents.reorder horder.contents)

end SchemaGuards.Draft
