import SchemaGuards.Proofs.Linking.Unfolding
import SchemaGuards.Proofs.Order.Files
import SchemaGuards.Proofs.Order.Naming
import SchemaGuards.Proofs.Registry

/-!
# Graphs of reordered contents

Reordered contents are linked into graphs whose places differ: those of the declarations are permuted, a
built-in scalar is made when it is first named, and what is written in place comes where it is linked. Two
places correspond when the same part of the contents is read from them. Corresponding places hold alike
nodes, and the registries list corresponding declarations.
-/
namespace SchemaGuards.Draft

theorem forall₂_join {α β γ : Type} {related : α → β → Prop} {related' : α → γ → Prop} {joined : β → γ → Prop}
    (hjoin : ∀ value first second, related value first → related' value second → joined first second)
    {values : List α} {firsts : List β} {seconds : List γ} (h : List.Forall₂ related values firsts)
    (h' : List.Forall₂ related' values seconds) : List.Forall₂ joined firsts seconds := by
  induction h generalizing seconds with
  | nil =>
    cases h'
    exact .nil
  | cons hfirst _ ih =>
    cases h' with
    | cons hfirst' hrest' => exact .cons (hjoin _ _ _ hfirst hfirst') (ih hrest')

theorem option_rel_join {α β γ : Type} {related : α → β → Prop} {related' : α → γ → Prop} {joined : β → γ → Prop}
    (hjoin : ∀ value first second, related value first → related' value second → joined first second)
    {value : Option α} {first : Option β} {second : Option γ} (h : Option.Rel related value first)
    (h' : Option.Rel related' value second) : Option.Rel joined first second := by
  cases h with
  | none =>
    cases h'
    exact .none
  | some h =>
    cases h' with
    | some h' => exact .some (hjoin _ _ _ h h')

/-- Places of two graphs from which the same part of the contents is read. -/
inductive Corresponds (contents other : Contents) (graph graph' : Graph) : NodeId → NodeId → Prop
  | reading (scope : Scope) (form : Form) (id id' : NodeId) (h : Reads contents graph scope form id)
    (h' : Reads other graph' scope form id') : Corresponds contents other graph graph' id id'
  | declaration (place place' : NodeId) (h : contents.Shares other place place') :
    Corresponds contents other graph graph' place place'
  | builtin (name : String) (bases : List String) (id id' : NodeId) (hbases : builtinBases? name = some bases)
    (h : graph.HasBuiltin (name :: bases) (some id)) (h' : graph'.HasBuiltin (name :: bases) (some id')) :
    Corresponds contents other graph graph' id id'

section Graphs
variable {contents other : Contents} {graph graph' : Graph}

theorem alike_of_readsProperties {scope : Scope} {properties : List (Property Form)}
    {linked linked' : List (Property NodeId)} (h : List.Forall₂ (ReadsProperty contents graph scope) properties linked)
    (h' : List.Forall₂ (ReadsProperty other graph' scope) properties linked') :
    List.Forall₂ (Property.Alike (Corresponds contents other graph graph')) linked linked' := by
  refine forall₂_join (fun property first second hfirst hsecond => ?_) h h'
  cases hfirst with
  | mk name type optional visibility doc id hreads =>
    cases hsecond with
    | mk _ _ _ _ _ id' hreads' => exact ⟨rfl, .reading scope type id id' hreads hreads', rfl, rfl, rfl⟩

theorem alike_of_holds {id id' : NodeId} {node node' : Node} (h : graph.Holds id node) (h' : graph'.Holds id' node')
    (halike : node.Alike (Corresponds contents other graph graph') node') :
    Option.Rel (Node.Alike (Corresponds contents other graph graph')) (graph.node? id) (graph'.node? id') := by
  rw [h.2, h'.2]
  exact .some halike

/-- A built-in scalar and its bases are the same in both graphs. -/
theorem alike_of_hasBuiltin {name : String} {bases : List String} (hbases : builtinBases? name = some bases)
    {id id' : NodeId} (h : graph.HasBuiltin (name :: bases) (some id))
    (h' : graph'.HasBuiltin (name :: bases) (some id')) :
    Option.Rel (Node.Alike (Corresponds contents other graph graph')) (graph.node? id) (graph'.node? id') := by
  rcases h with ⟨_, base, hid, hholds, hrest⟩
  rcases h' with ⟨_, base', hid', hholds', hrest'⟩
  cases hid
  cases hid'
  refine alike_of_holds hholds hholds' (.scalar _ base base' ?_)
  cases bases with
  | nil =>
    cases hrest
    cases hrest'
    exact .none
  | cons next rest =>
    have hnext := (builtinBases?_chain hbases).2 next rest rfl
    rcases hrest with ⟨extended, deeper, rfl, hextended⟩
    rcases hrest' with ⟨extended', deeper', rfl, hextended'⟩
    exact .some (.builtin next rest extended extended' hnext ⟨extended, deeper, rfl, hextended⟩
      ⟨extended', deeper', rfl, hextended'⟩)

/-- Both graphs read a declaration of the contents as one of theirs. -/
theorem alike_of_readsDeclaration {declaration : Declaration} {node node' : Node}
    (h : ReadsDeclaration contents graph declaration node) (h' : ReadsDeclaration other graph' declaration node') :
    node.Alike (Corresponds contents other graph graph') node' := by
  have hbases : ∀ {base : Option String} {extended extended' : Option NodeId},
      Option.Rel (fun name => Reads contents graph declaration.scope (.named name)) base extended →
      Option.Rel (fun name => Reads other graph' declaration.scope (.named name)) base extended' →
      Option.Rel (Corresponds contents other graph graph') extended extended' :=
    option_rel_join (fun name id id' => .reading declaration.scope (.named name) id id')
  cases h with
  | model base properties extended linked hbody hbase h =>
    cases h' with
    | model base' properties' extended' linked' hbody' hbase' h' =>
      cases hbody.symm.trans hbody'
      exact .model _ _ _ _ _ _ _ (alike_of_readsProperties h h') (hbases hbase hbase') .none
    | enumeration _ hbody' | union _ _ hbody' | scalar _ _ hbody' => cases hbody.symm.trans hbody'
  | enumeration members hbody =>
    cases h' with
    | enumeration members' hbody' =>
      cases hbody.symm.trans hbody'
      exact .enumeration _
    | model _ _ _ _ hbody' | union _ _ hbody' | scalar _ _ hbody' => cases hbody.symm.trans hbody'
  | union variants parts hbody h =>
    cases h' with
    | union variants' parts' hbody' h' =>
      cases hbody.symm.trans hbody'
      exact .union _ _ _ (forall₂_join (fun form id id' => .reading declaration.scope form id id') h h')
    | model _ _ _ _ hbody' | enumeration _ hbody' | scalar _ _ hbody' => cases hbody.symm.trans hbody'
  | scalar base extended hbody hbase =>
    cases h' with
    | scalar base' extended' hbody' hbase' =>
      cases hbody.symm.trans hbody'
      exact .scalar _ _ _ (hbases hbase hbase')
    | model _ _ _ _ hbody' | enumeration _ hbody' | union _ _ hbody' => cases hbody.symm.trans hbody'

variable (horder : contents.Reorders other) (hlinked : contents.LinkedInto graph) (hlinked' : other.LinkedInto graph')
include hlinked hlinked'

theorem alike_of_shares {place place' : Nat} (h : contents.Shares other place place') :
    Option.Rel (Node.Alike (Corresponds contents other graph graph')) (graph.node? place) (graph'.node? place') := by
  rcases h with ⟨declaration, hplace, hplace'⟩
  rcases hlinked.declared place declaration hplace with ⟨node, hnode, hreads⟩
  rcases hlinked'.declared place' declaration hplace' with ⟨node', hnode', hreads'⟩
  rw [hnode, hnode']
  exact .some (alike_of_readsDeclaration hreads hreads')

theorem alike_of_stands {target target' : Target} (h : Contents.SharesTarget contents other target target')
    {id id' : NodeId} (hid : graph.Stands target id) (hid' : graph'.Stands target' id') :
    Option.Rel (Node.Alike (Corresponds contents other graph graph')) (graph.node? id) (graph'.node? id') := by
  cases h with
  | intrinsic value => exact alike_of_holds hid hid' (.primitive _)
  | declaration place place' hshares =>
    cases hid
    cases hid'
    exact alike_of_shares hlinked hlinked' hshares
  | builtin name =>
    rcases hid with ⟨bases, hbases, hid⟩
    rcases hid' with ⟨bases', hbases', hid'⟩
    cases hbases.symm.trans hbases'
    exact alike_of_hasBuiltin hbases hid hid'
  | member place place' name hshares =>
    exact alike_of_holds hid hid' (.member place place' name (.declaration place place' hshares))

include horder

theorem alike_of_reads {scope : Scope} {form : Form} {id id' : NodeId} (h : Reads contents graph scope form id)
    (h' : Reads other graph' scope form id') :
    Option.Rel (Node.Alike (Corresponds contents other graph graph')) (graph.node? id) (graph'.node? id') := by
  have hforms : ∀ {forms : List Form} {ids ids' : List NodeId}, List.Forall₂ (Reads contents graph scope) forms ids →
      List.Forall₂ (Reads other graph' scope) forms ids' →
      List.Forall₂ (Corresponds contents other graph graph') ids ids' :=
    forall₂_join (fun form id id' => .reading scope form id id')
  cases form with
  | named name =>
    cases h with
    | named _ target _ htarget hid =>
      cases h' with
      | named _ target' _ htarget' hid' =>
        rcases hlinked'.faithful with ⟨_, _, hfaithful⟩
        exact alike_of_stands hlinked hlinked' (horder.sharesTarget hfaithful.isDistinct htarget htarget') hid hid'
  | indexed kind element =>
    cases h with
    | indexed _ _ part _ hid hpart =>
      cases h' with
      | indexed _ _ part' _ hid' hpart' =>
        exact alike_of_holds hid hid'
          (.model _ _ _ _ _ _ _ .nil .none (.some (.reading scope element part part' hpart hpart')))
  | tuple elements =>
    cases h with
    | tuple _ parts _ hid hparts =>
      cases h' with
      | tuple _ parts' _ hid' hparts' => exact alike_of_holds hid hid' (.tuple _ _ (hforms hparts hparts'))
  | union variants =>
    cases h with
    | union _ parts _ hid hparts =>
      cases h' with
      | union _ parts' _ hid' hparts' => exact alike_of_holds hid hid' (.union _ _ _ (hforms hparts hparts'))
  | model properties =>
    cases h with
    | model _ linked _ hid hproperties =>
      cases h' with
      | model _ linked' _ hid' hproperties' =>
        have halike := alike_of_readsProperties hproperties hproperties'
        exact alike_of_holds hid hid' (.model _ _ _ _ _ _ _ halike .none .none)
  | literal value =>
    cases h with
    | literal _ _ hid =>
      cases h' with
      | literal _ _ hid' => exact alike_of_holds hid hid' (.primitive value)
  | unsupported kind =>
    cases h with
    | unsupported _ _ hid =>
      cases h' with
      | unsupported _ _ hid' => exact alike_of_holds hid hid' (.unsupported kind)

/-- Corresponding places hold alike nodes. -/
theorem isBisimulation : graph.IsBisimulation graph' (Corresponds contents other graph graph') := by
  intro id id' hid
  cases hid with
  | reading scope form _ _ h h' => exact alike_of_reads horder hlinked hlinked' h h'
  | declaration _ _ h => exact alike_of_shares hlinked hlinked' h
  | builtin name bases _ _ hbases h h' => exact alike_of_hasBuiltin hbases h h'

/-- The operations of both graphs have corresponding bodies. -/
theorem alike_operations :
    List.Forall₂ (Operation.Alike (Corresponds contents other graph graph')) graph.operations graph'.operations := by
  have hoperations := hlinked'.operations
  rw [horder.operations_eq] at hoperations
  refine forall₂_join (fun operation linked linked' h h' => ?_) hlinked.operations hoperations
  have hbodies : ∀ {form : Option Form} {id id' : Option NodeId},
      Option.Rel (Reads contents graph operation.scope) form id →
      Option.Rel (Reads other graph' operation.scope) form id' →
      Option.Rel (Corresponds contents other graph graph') id id' :=
    option_rel_join (fun form id id' => .reading operation.scope form id id')
  refine ⟨h'.name_eq.trans h.name_eq.symm, h'.scope_eq.trans h.scope_eq.symm, h'.path_eq.trans h.path_eq.symm,
    h'.verb_eq.trans h.verb_eq.symm, h'.doc_eq.trans h.doc_eq.symm, hbodies h.request h'.request, ?_⟩
  exact forall₂_join (fun response linked linked' h h' => ⟨h'.1.trans h.1.symm, hbodies h.2 h'.2⟩)
    h.responses h'.responses

end Graphs

theorem forall₂_range {α : Type} (values : List α) :
    List.Forall₂ (fun value place => values[place]? = some value) values (List.range values.length) := by
  rw [List.forall₂_iff_get]
  refine ⟨by simp, fun place hplace hrange => ?_⟩
  simp [hplace]

theorem Contents.Reorders.matched {contents other : Contents} (h : contents.Reorders other) :
    Matched (contents.Shares other) (List.range contents.declarations.length)
      (List.range other.declarations.length) := by
  rcases List.perm_comp_forall₂ h.declarations.symm (forall₂_range contents.declarations) with
    ⟨places, hplaces, hperm⟩
  refine ⟨places, hperm.symm, ?_⟩
  exact forall₂_join (fun declaration place place' h h' => ⟨declaration, h, h'⟩) hplaces
    (forall₂_range other.declarations)

end SchemaGuards.Draft

namespace SchemaGuards

structure Draft.Reorders (draft other : Draft) : Prop where
  roots_eq : other.roots = draft.roots
  contents : draft.contents.Reorders other.contents

theorem Draft.Reorders.symm {draft other : Draft} (h : draft.Reorders other) : other.Reorders draft :=
  ⟨h.roots_eq.symm, h.contents.symm⟩

theorem Registry.contains_iff {registry : Registry} {identity : Identity} :
    registry.contains identity = true ↔ ∃ entry ∈ registry, entry.identity = identity := by
  simp [contains, find?]

/-- The graphs of reordered drafts, with their registries, hold the same schema. -/
theorem Workspace.reorders {draft other : Draft} (horder : draft.Reorders other) {graph graph' : Graph}
    (hgraph : draft.link = .ok graph) (hgraph' : other.link = .ok graph') {registry registry' : Registry}
    (hregistry : Registry.ofGraph graph = .ok registry) (hregistry' : Registry.ofGraph graph' = .ok registry')
    (config : Config) :
    (Workspace.mk graph registry config).Reorders ⟨graph', registry', config⟩
      (Draft.Corresponds draft.contents other.contents graph graph') := by
  have hlinked := Draft.linkedInto hgraph
  have hlinked' := Draft.linkedInto hgraph'
  rcases Draft.link_isLinked hgraph with ⟨hisLinked, hroots⟩
  rcases Draft.link_isLinked hgraph' with ⟨hisLinked', hroots'⟩
  have hroots_eq : graph'.roots = graph.roots := by rw [hroots, hroots', horder.roots_eq]
  cases hisLinked.ofGraph_eq.symm.trans hregistry
  cases hisLinked'.ofGraph_eq.symm.trans hregistry'
  have hentry : ∀ place place', draft.contents.Shares other.contents place place' → Option.Rel
      (fun entry entry' : Entry => entry'.identity = entry.identity ∧
        Draft.Corresponds draft.contents other.contents graph graph' entry.node entry'.node)
      (graph.registrable? place) (graph'.registrable? place') := by
    intro place place' hshares
    have hnodes := Draft.alike_of_shares hlinked hlinked' hshares
    rw [Graph.registrable?, Graph.registrable?, hroots_eq]
    generalize graph.node? place = found at hnodes
    generalize graph'.node? place' = found' at hnodes
    cases hnodes with
    | none => exact .none
    | some halike =>
      dsimp only
      rw [halike.identity_eq, halike.kind_eq]
      split
      · split
        · exact .some ⟨rfl, .declaration place place' hshares⟩
        · exact .none
      · exact .none
  have hentries := horder.contents.matched.filterMap hentry
  rcases hlinked.faithful with ⟨linker, rfl, hfaithful⟩
  rcases hlinked'.faithful with ⟨linker', rfl, hfaithful'⟩
  rw [← hfaithful.declarations_eq, ← hfaithful'.declarations_eq] at hentries
  refine ⟨⟨rfl, Draft.isBisimulation horder.contents hlinked hlinked', ?_⟩, hroots_eq,
    Draft.alike_operations horder.contents hlinked hlinked', hentries⟩
  intro identity
  rw [Bool.eq_iff_iff, Registry.contains_iff, Registry.contains_iff]
  constructor
  · rintro ⟨entry', hmem, rfl⟩
    rcases hentries.exists_left hmem with ⟨entry, hentry, hidentity, _⟩
    exact ⟨entry, hentry, hidentity.symm⟩
  · rintro ⟨entry, hmem, rfl⟩
    rcases hentries.exists_right hmem with ⟨entry', hentry', hidentity, _⟩
    exact ⟨entry', hentry', hidentity⟩

end SchemaGuards
