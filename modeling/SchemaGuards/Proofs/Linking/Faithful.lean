import SchemaGuards.Proofs.Linking.Declarations
import SchemaGuards.Proofs.Linking.Readings

/-!
# Linking gives back the draft

While a draft is linked, declarations stay at their places, names stay bound to them, and each built-in
scalar has at most one place. Every step only adds places or fills the place of one declaration, so what a
graph reads as is kept to the end.
-/
namespace SchemaGuards.Draft

/-- The bases of a built-in scalar are those of its first base, and it is none of them. -/
theorem builtinBases?_chain {name : String} {bases : List String} (h : builtinBases? name = some bases) :
    name ∉ bases ∧ ∀ base rest, bases = base :: rest → builtinBases? base = some rest := by
  rw [builtinBases?, List.lookup_eq_some_iff] at h
  rcases h with ⟨before, after, htable, _⟩
  have hall : ∀ entry ∈ before ++ (name, bases) :: after, entry.1 ∉ entry.2 ∧
      ∀ base ∈ entry.2.head?, builtinBases? base = some entry.2.tail := by
    rw [← htable]
    decide
  rcases hall (name, bases) (by simp) with ⟨hnot, hhead⟩
  refine ⟨hnot, ?_⟩
  rintro base rest rfl
  exact hhead base (by simp)

namespace Linker

/-- A linker whose declarations have all been made, and what it knows of built-in scalars. -/
structure IsFaithful (linker : Linker) (contents : Contents) : Prop where
  declarations_eq : linker.graph.declarations = List.range contents.declarations.length
  binds : ∀ qualified id, linker.graph.declared? qualified = some id ↔ contents.Declares qualified id
  places : ∀ place declaration, contents.declarations[place]? = some declaration →
    ∃ node, linker.graph.node? place = some node ∧ (Linking.placeholder declaration).Revised node
  known : ∀ name id, linker.builtins.lookup name = some id →
    ∃ bases, builtinBases? name = some bases ∧ linker.graph.HasBuiltin (name :: bases) (some id)
  scalars : ∀ id content, linker.graph.Holds id (.scalar content) →
    ∃ name, content.decl = { name := some name, scope := builtinScope } ∧ linker.builtins.lookup name = some id

/-- A step that adds places and fills those of some declarations. -/
structure Continues (linker later : Linker) (contents : Contents) (places : List NodeId) : Prop where
  faithful : later.IsFaithful contents
  keeps : linker.graph.KeepsBut later.graph places
  operations_eq : later.graph.operations = linker.graph.operations

variable {linker middle later : Linker} {contents : Contents} {places others : List NodeId}

theorem IsFaithful.stay (h : linker.IsFaithful contents) : linker.Continues linker contents places :=
  ⟨h, .refl _, rfl⟩

theorem Continues.trans (h : linker.Continues middle contents places) (h' : middle.Continues later contents others) :
    linker.Continues later contents (places ++ others) :=
  ⟨h'.faithful, h.keeps.trans h'.keeps, h'.operations_eq.trans h.operations_eq⟩

theorem IsFaithful.mem_declarations_iff (h : linker.IsFaithful contents) {id : NodeId} :
    id ∈ linker.graph.declarations ↔ ∃ declaration, contents.declarations[id]? = some declaration := by
  simp [h.declarations_eq, List.getElem?_eq_some_iff]

theorem IsFaithful.size_not_mem (h : linker.IsFaithful contents) :
    linker.graph.size ∉ linker.graph.declarations := by
  rw [h.mem_declarations_iff]
  rintro ⟨declaration, hdeclaration⟩
  rcases h.places _ declaration hdeclaration with ⟨node, hnode, _⟩
  exact absurd (Graph.lt_size_of_node? hnode) (Nat.lt_irrefl _)

theorem IsFaithful.isDistinct (h : linker.IsFaithful contents) : contents.IsDistinct := by
  intro qualified place other hplace hother
  rw [← h.binds] at hplace hother
  exact Option.some.inj (hplace.symm.trans hother)

/-- What an enumeration's place holds is never changed. -/
theorem IsFaithful.enumeration_iff (h : linker.IsFaithful contents) {place : Nat} {declaration : Declaration}
    (hdeclaration : contents.declarations[place]? = some declaration) {content : Enumeration}
    (hnode : linker.graph.node? place = some (.enumeration content)) :
    declaration.body = .enumeration content.members := by
  rcases h.places place declaration hdeclaration with ⟨node, hfound, hrevised⟩
  cases hnode.symm.trans hfound
  have hplaceholder := hrevised.symm.enumeration_eq
  rw [Linking.placeholder] at hplaceholder
  split at hplaceholder <;> cases hplaceholder
  assumption

/-- A node that is no scalar can be added. -/
theorem IsFaithful.add (h : linker.IsFaithful contents) {node : Node} (hnode : node.kind ≠ .scalar) :
    linker.Continues { linker with graph := (linker.graph.add node).2 } contents [] := by
  have hkeeps := Graph.keepsBut_add linker.graph node
  refine ⟨⟨h.declarations_eq, h.binds, ?_, ?_, ?_⟩, hkeeps, rfl⟩
  · intro place declaration hdeclaration
    rcases h.places place declaration hdeclaration with ⟨found, hfound, hrevised⟩
    exact ⟨found, hkeeps.kept place (by simp) found hfound, hrevised⟩
  · intro name id hid
    rcases h.known name id hid with ⟨bases, hbases, hbuiltin⟩
    exact ⟨bases, hbases, hkeeps.hasBuiltin (by simp) hbuiltin⟩
  · rintro id content ⟨hnot, hid⟩
    rw [Graph.node?_add] at hid
    split at hid
    · cases hid
      exact absurd rfl hnode
    · exact h.scalars id content ⟨hnot, hid⟩

/-- The place of a new built-in scalar, whose bases have theirs. -/
theorem IsFaithful.addBuiltin (h : linker.IsFaithful contents) {name : String} {bases : List String}
    {base : Option NodeId} (hbases : builtinBases? name = some bases) (hbase : linker.graph.HasBuiltin bases base)
    (hnew : linker.builtins.lookup name = none) :
    let node : Node := .scalar ⟨{ name := some name, scope := builtinScope }, base⟩
    let later : Linker := ⟨(linker.graph.add node).2, (name, linker.graph.size) :: linker.builtins⟩
    linker.Continues later contents [] ∧ later.graph.HasBuiltin (name :: bases) (some linker.graph.size) := by
  intro node later
  have hkeeps : linker.graph.KeepsBut later.graph [] := Graph.keepsBut_add linker.graph node
  have hhas : later.graph.HasBuiltin (name :: bases) (some linker.graph.size) :=
    ⟨linker.graph.size, base, rfl, ⟨h.size_not_mem, by simp [later, Graph.node?_add, node]⟩,
      hkeeps.hasBuiltin (by simp) hbase⟩
  refine ⟨⟨⟨h.declarations_eq, h.binds, ?_, ?_, ?_⟩, hkeeps, rfl⟩, hhas⟩
  · intro place declaration hdeclaration
    rcases h.places place declaration hdeclaration with ⟨found, hfound, hrevised⟩
    exact ⟨found, hkeeps.kept place (by simp) found hfound, hrevised⟩
  · intro other id hid
    rw [List.lookup_cons] at hid
    split at hid
    · next heq =>
      cases hid
      rw [eq_of_beq heq]
      exact ⟨bases, hbases, hhas⟩
    · rcases h.known other id hid with ⟨found, hfound, hbuiltin⟩
      exact ⟨found, hfound, hkeeps.hasBuiltin (by simp) hbuiltin⟩
  · rintro id content ⟨hnot, hid⟩
    rw [Graph.node?_add] at hid
    split at hid
    · next heq =>
      have hcontent : ⟨{ name := some name, scope := builtinScope }, base⟩ = content :=
        Node.scalar.inj (Option.some.inj hid)
      exact ⟨name, by rw [← hcontent], by simp [later, heq]⟩
    · rcases h.scalars id content ⟨hnot, hid⟩ with ⟨other, hother, hlookup⟩
      refine ⟨other, hother, ?_⟩
      have hne : (other == name) = false := by
        rw [beq_eq_false_iff_ne]
        rintro rfl
        rw [hnew] at hlookup
        cases hlookup
      rw [List.lookup_cons, hne]
      exact hlookup

theorem IsFaithful.replace (h : linker.IsFaithful contents) {place : Nat} {declaration : Declaration} {node : Node}
    (hdeclaration : contents.declarations[place]? = some declaration)
    (hrevised : (Linking.placeholder declaration).Revised node) :
    let later : Linker := { linker with graph := linker.graph.replace place node }
    linker.Continues later contents [place] ∧ later.graph.node? place = some node := by
  intro later
  have hkeeps : linker.graph.KeepsBut later.graph [place] := Graph.keepsBut_replace linker.graph place node
  have hplaces : [place] ⊆ linker.graph.declarations := by
    simpa [h.mem_declarations_iff] using ⟨declaration, hdeclaration⟩
  have hplace : later.graph.node? place = some node := by
    rcases h.places place declaration hdeclaration with ⟨old, hold, _⟩
    simp [later, Graph.node?_replace, Graph.lt_size_of_node? hold]
  refine ⟨⟨⟨h.declarations_eq, h.binds, ?_, ?_, ?_⟩, hkeeps, rfl⟩, hplace⟩
  · intro other found hfound
    by_cases hother : other = place
    · subst hother
      cases hdeclaration.symm.trans hfound
      exact ⟨node, hplace, hrevised⟩
    · rcases h.places other found hfound with ⟨old, hold, hrevised'⟩
      exact ⟨old, hkeeps.kept other (by simpa using hother) old hold, hrevised'⟩
  · intro name id hid
    rcases h.known name id hid with ⟨bases, hbases, hbuiltin⟩
    exact ⟨bases, hbases, hkeeps.hasBuiltin hplaces hbuiltin⟩
  · rintro id content ⟨hnot, hid⟩
    have hne : place ≠ id := by
      rintro rfl
      exact hnot (hplaces (by simp))
    rw [Graph.node?_replace, if_neg (fun hand => hne hand.1)] at hid
    exact h.scalars id content ⟨hnot, hid⟩

theorem IsFaithful.addOperation (h : linker.IsFaithful contents) (operation : Operation NodeId) :
    IsFaithful { linker with graph := linker.graph.addOperation operation } contents := by
  refine ⟨h.declarations_eq, h.binds, h.places, ?_, h.scalars⟩
  intro name id hid
  rcases h.known name id hid with ⟨bases, hbases, hbuiltin⟩
  exact ⟨bases, hbases, (Graph.keepsBut_addOperation linker.graph operation).hasBuiltin (by simp) hbuiltin⟩

/-- Each built-in scalar has one place at most. -/
theorem IsFaithful.scalar_unique (h : linker.IsFaithful contents) {id other : NodeId} {content content' : Scalar}
    (hid : linker.graph.Holds id (.scalar content)) (hother : linker.graph.Holds other (.scalar content'))
    (hname : content.decl.name = content'.decl.name) : id = other := by
  rcases h.scalars id content hid with ⟨name, hdecl, hlookup⟩
  rcases h.scalars other content' hother with ⟨name', hdecl', hlookup'⟩
  rw [hdecl, hdecl'] at hname
  cases hname
  exact Option.some.inj (hlookup.symm.trans hlookup')

end Linker

namespace Linking
open Linker

variable {linker later : Linker} {contents : Contents} {places : List NodeId}

theorem addNode_faithful (hfaithful : linker.IsFaithful contents) {node : Node} {id : NodeId}
    (hkind : node.kind ≠ .scalar) (h : addNode node linker = .ok (id, later)) :
    linker.Continues later contents [] ∧ later.graph.Holds id node := by
  rcases addNode_ok h with ⟨rfl, rfl⟩
  exact ⟨hfaithful.add hkind, hfaithful.size_not_mem, by simp [Graph.node?_add]⟩

/-- Searching downwards from a bound finds the greatest number below it. -/
theorem findSome?_reverse_range {α : Type} {find : Nat → Option α} {bound : Nat} {found : α} :
    (List.range bound).reverse.findSome? find = some found ↔
      ∃ n < bound, find n = some found ∧ ∀ m, n < m → m < bound → find m = none := by
  induction bound with
  | zero => simp
  | succ bound ih =>
    rw [List.range_succ, List.reverse_append, List.reverse_singleton, List.singleton_append, List.findSome?_cons]
    cases hbound : find bound with
    | some first =>
      constructor
      · rintro ⟨⟩
        exact ⟨bound, Nat.lt_succ_self bound, hbound, fun m hlt hle => absurd hle (by omega)⟩
      · rintro ⟨n, hn, hfound, hnone⟩
        rcases Nat.lt_succ_iff_lt_or_eq.1 hn with hlt | rfl
        · rw [hnone bound hlt (Nat.lt_succ_self bound)] at hbound
          cases hbound
        · exact hbound.symm.trans hfound
    | none =>
      refine ih.trans ⟨?_, ?_⟩
      · rintro ⟨n, hn, hfound, hnone⟩
        refine ⟨n, Nat.lt_succ_of_lt hn, hfound, fun m hm hle => ?_⟩
        rcases Nat.lt_succ_iff_lt_or_eq.1 hle with hlt | rfl
        · exact hnone m hm hlt
        · exact hbound
      · rintro ⟨n, hn, hfound, hnone⟩
        rcases Nat.lt_succ_iff_lt_or_eq.1 hn with hlt | rfl
        · exact ⟨n, hlt, hfound, fun m hm hle => hnone m hm (Nat.lt_succ_of_lt hle)⟩
        · rw [hbound] at hfound
          cases hfound

/-- Names are looked up from the innermost namespace outwards. -/
theorem lookupDeclaration?_iff (hfaithful : linker.IsFaithful contents) {scope : Scope} {name : String}
    {id : NodeId} :
    lookupDeclaration? linker.graph scope name = some id ↔ contents.Innermost scope name id := by
  have hnone : ∀ qualified, linker.graph.declared? qualified = none ↔
      ∀ other, ¬ contents.Declares qualified other := by
    intro qualified
    simp [← hfaithful.binds, Option.eq_none_iff_forall_not_mem]
  rw [lookupDeclaration?, candidates, List.findSome?_map, findSome?_reverse_range]
  simp only [Function.comp_apply, hfaithful.binds, hnone, Contents.Innermost, Nat.lt_succ_iff]

theorem lookupDeclaration?_none (hfaithful : linker.IsFaithful contents) {scope : Scope} {name : String}
    (h : lookupDeclaration? linker.graph scope name = none) (place : Nat) :
    ¬ contents.Innermost scope name place := by
  rw [← lookupDeclaration?_iff hfaithful, h]
  simp

theorem memberNamed?_faithful (hfaithful : linker.IsFaithful contents) {scope : Scope} {name member : String}
    {place : NodeId} (h : memberNamed? linker.graph scope name = some (place, member)) :
    ∃ owner, name = owner ++ "." ++ member ∧ '.' ∉ member.toList ∧ contents.Innermost scope owner place ∧
      contents.HasMember place member := by
  rw [memberNamed?] at h
  simp only [Option.bind_eq_bind, Option.bind_eq_some_iff] at h
  rcases h with ⟨⟨owner, found⟩, hsplit, id, hid, h⟩
  split at h
  · next content hcontent =>
    split at h
    · next hmember =>
      cases h
      rw [lookupDeclaration?_iff hfaithful] at hid
      rcases splitLastDot?_spec hsplit with ⟨hname, hdot⟩
      have hplace := hid
      rcases hplace with ⟨_, _, ⟨declaration, hdeclaration, _⟩, _⟩
      exact ⟨owner, hname, hdot, hid, declaration, content.members, hdeclaration,
        hfaithful.enumeration_iff hdeclaration hcontent, hmember⟩
    · cases h
  · cases h

/-- A built-in scalar gets its place after its bases, and only when it has none. -/
theorem builtin_faithful (names : List String)
    (hnames : ∀ name bases, names = name :: bases → builtinBases? name = some bases)
    (hfaithful : linker.IsFaithful contents) {found : Option NodeId}
    (h : builtin names linker = .ok (found, later)) :
    linker.Continues later contents [] ∧ later.graph.HasBuiltin names found ∧
      ∀ other ∉ names, later.builtins.lookup other = linker.builtins.lookup other := by
  induction names generalizing found later with
  | nil =>
    cases pure_ok h
    exact ⟨hfaithful.stay, rfl, fun _ _ => rfl⟩
  | cons name bases ih =>
    have hbases := hnames name bases rfl
    rcases builtin_ok h with ⟨id, hid, rfl, rfl⟩ | ⟨hnew, base, middle, id, added, hbase, hadd, rfl, rfl⟩
    · rcases hfaithful.known name id hid with ⟨bases', hbases', hbuiltin⟩
      cases hbases.symm.trans hbases'
      exact ⟨hfaithful.stay, hbuiltin, fun _ _ => rfl⟩
    · rcases builtinBases?_chain hbases with ⟨hnot, hchain⟩
      rcases ih hchain hbase with ⟨hcontinues, hhas, hsame⟩
      rcases addNode_ok hadd with ⟨rfl, rfl⟩
      rcases hcontinues.faithful.addBuiltin hbases hhas ((hsame name hnot).trans hnew) with ⟨hadded, hbuiltin⟩
      refine ⟨hcontinues.trans hadded, hbuiltin, ?_⟩
      intro other hother
      rw [List.mem_cons, not_or] at hother
      rw [List.lookup_cons, beq_eq_false_iff_ne.2 hother.1]
      exact hsame other hother.2

/-- A name gets the place of what it stands for. -/
theorem resolveName_faithful {scope : Scope} {referrer name : String} {id : NodeId}
    (hfaithful : linker.IsFaithful contents) (h : resolveName scope referrer name linker = .ok (id, later)) :
    linker.Continues later contents [] ∧ Reads contents later.graph scope (.named name) id := by
  have hnot : Intrinsic.ofName? name = none → ∀ value : Intrinsic, name ≠ value.name := by
    intro hintrinsic value hvalue
    rw [Intrinsic.ofName?_eq_some_iff.2 hvalue] at hintrinsic
    cases hintrinsic
  cases resolveName_ok h with
  | intrinsic value hvalue hadd =>
    rcases addNode_faithful hfaithful (by simp [Node.kind]) hadd with ⟨hcontinues, hholds⟩
    exact ⟨hcontinues, .named name _ id (.intrinsic value (Intrinsic.ofName?_eq_some_iff.1 hvalue)) hholds⟩
  | declaration hintrinsic hdeclared hlater =>
    subst hlater
    rw [lookupDeclaration?_iff hfaithful] at hdeclared
    exact ⟨hfaithful.stay, .named name _ id (.declaration id (hnot hintrinsic) hdeclared) rfl⟩
  | builtin bases hintrinsic hdeclared hbases hbuiltin =>
    have hundeclared := lookupDeclaration?_none hfaithful hdeclared
    rcases builtin_faithful _ (by rintro _ _ ⟨⟩; exact hbases) hfaithful hbuiltin with ⟨hcontinues, hhas, _⟩
    exact ⟨hcontinues, .named name _ id (.builtin _ (hnot hintrinsic) hundeclared
      (qualified_withoutBuiltinScope name) (by simp [IsBuiltin, hbases])) ⟨bases, hbases, hhas⟩⟩
  | member place member hintrinsic hdeclared hbases hmember hadd =>
    have hundeclared := lookupDeclaration?_none hfaithful hdeclared
    rcases memberNamed?_faithful hfaithful hmember with ⟨owner, hname, hdot, howner, hhas⟩
    rcases addNode_faithful hfaithful (by simp [Node.kind]) hadd with ⟨hcontinues, hholds⟩
    exact ⟨hcontinues, .named name _ id (.member owner member place (hnot hintrinsic) hundeclared
      (fun _ => not_isBuiltin_withoutBuiltinScope hbases) hname hdot howner hhas) hholds⟩

mutual
/-- A type gets a place from which the graph reads as that type. -/
theorem linkForm_faithful (scope : Scope) (referrer : String) (form : Form) {linker later : Linker} {id : NodeId}
    (hfaithful : linker.IsFaithful contents) (h : linkForm scope referrer form linker = .ok (id, later)) :
    linker.Continues later contents [] ∧ Reads contents later.graph scope form id := by
  cases form with
  | named name => exact resolveName_faithful hfaithful h
  | indexed kind element =>
    rw [linkForm] at h
    rcases bind_ok h with ⟨part, middle, hpart, h⟩
    rcases linkForm_faithful scope referrer element hfaithful hpart with ⟨hcontinues, hreads⟩
    rcases addNode_faithful hcontinues.faithful (by simp [Node.kind]) h with ⟨hadded, hholds⟩
    exact ⟨hcontinues.trans hadded, .indexed kind element part id hholds (hreads.keep hadded.keeps (by simp))⟩
  | tuple elements =>
    rw [linkForm] at h
    rcases bind_ok h with ⟨parts, middle, hparts, h⟩
    rcases linkForms_faithful scope referrer elements hfaithful hparts with ⟨hcontinues, hreads⟩
    rcases addNode_faithful hcontinues.faithful (by simp [Node.kind]) h with ⟨hadded, hholds⟩
    exact ⟨hcontinues.trans hadded, .tuple elements parts id hholds (Reads.keepAll hadded.keeps (by simp) hreads)⟩
  | union variants =>
    rw [linkForm] at h
    rcases bind_ok h with ⟨parts, middle, hparts, h⟩
    rcases linkForms_faithful scope referrer variants hfaithful hparts with ⟨hcontinues, hreads⟩
    rcases addNode_faithful hcontinues.faithful (by simp [Node.kind]) h with ⟨hadded, hholds⟩
    exact ⟨hcontinues.trans hadded, .union variants parts id hholds (Reads.keepAll hadded.keeps (by simp) hreads)⟩
  | model properties =>
    rw [linkForm] at h
    rcases bind_ok h with ⟨linked, middle, hlinked, h⟩
    rcases linkProperties_faithful scope referrer properties hfaithful hlinked with ⟨hcontinues, hreads⟩
    rcases addNode_faithful hcontinues.faithful (by simp [Node.kind]) h with ⟨hadded, hholds⟩
    exact ⟨hcontinues.trans hadded,
      .model properties linked id hholds (ReadsProperty.keepAll hadded.keeps (by simp) hreads)⟩
  | literal value =>
    rcases addNode_faithful hfaithful (by simp [Node.kind]) h with ⟨hadded, hholds⟩
    exact ⟨hadded, .literal value id hholds⟩
  | unsupported kind =>
    rcases addNode_faithful hfaithful (by simp [Node.kind]) h with ⟨hadded, hholds⟩
    exact ⟨hadded, .unsupported kind id hholds⟩
termination_by structural form

theorem linkForms_faithful (scope : Scope) (referrer : String) (forms : List Form) {linker later : Linker}
    {ids : List NodeId} (hfaithful : linker.IsFaithful contents)
    (h : linkForms scope referrer forms linker = .ok (ids, later)) :
    linker.Continues later contents [] ∧ List.Forall₂ (Reads contents later.graph scope) forms ids := by
  cases forms with
  | nil =>
    cases pure_ok h
    exact ⟨hfaithful.stay, .nil⟩
  | cons form rest =>
    rw [linkForms] at h
    rcases bind_ok h with ⟨first, middle, hfirst, h⟩
    rcases linkForm_faithful scope referrer form hfaithful hfirst with ⟨hcontinues, hreads⟩
    rcases bind_ok h with ⟨others, last, hothers, h⟩
    rcases linkForms_faithful scope referrer rest hcontinues.faithful hothers with ⟨hcontinues', hreads'⟩
    cases pure_ok h
    exact ⟨hcontinues.trans hcontinues', .cons (hreads.keep hcontinues'.keeps (by simp)) hreads'⟩

theorem linkProperty_faithful (scope : Scope) (referrer : String) (property : Property Form)
    {linker later : Linker} {linked : Property NodeId} (hfaithful : linker.IsFaithful contents)
    (h : linkProperty scope referrer property linker = .ok (linked, later)) :
    linker.Continues later contents [] ∧ ReadsProperty contents later.graph scope property linked := by
  rcases property with ⟨name, type, optional, visibility, doc⟩
  rw [linkProperty] at h
  rcases bind_ok h with ⟨id, middle, hid, h⟩
  cases pure_ok h
  rcases linkForm_faithful scope _ type hfaithful hid with ⟨hcontinues, hreads⟩
  exact ⟨hcontinues, .mk name type optional visibility doc id hreads⟩

theorem linkProperties_faithful (scope : Scope) (referrer : String) (properties : List (Property Form))
    {linker later : Linker} {linked : List (Property NodeId)} (hfaithful : linker.IsFaithful contents)
    (h : linkProperties scope referrer properties linker = .ok (linked, later)) :
    linker.Continues later contents [] ∧
      List.Forall₂ (ReadsProperty contents later.graph scope) properties linked := by
  cases properties with
  | nil =>
    cases pure_ok h
    exact ⟨hfaithful.stay, .nil⟩
  | cons property rest =>
    rw [linkProperties] at h
    rcases bind_ok h with ⟨first, middle, hfirst, h⟩
    rcases linkProperty_faithful scope referrer property hfaithful hfirst with ⟨hcontinues, hreads⟩
    rcases bind_ok h with ⟨others, last, hothers, h⟩
    rcases linkProperties_faithful scope referrer rest hcontinues.faithful hothers with ⟨hcontinues', hreads'⟩
    cases pure_ok h
    exact ⟨hcontinues.trans hcontinues', .cons (hreads.keep hcontinues'.keeps (by simp)) hreads'⟩
end

theorem linkBase_faithful {declaration : Declaration} {kind : Kind} {base : Option String}
    {found : Option NodeId} (hfaithful : linker.IsFaithful contents)
    (h : linkBase declaration kind base linker = .ok (found, later)) :
    linker.Continues later contents [] ∧
      Option.Rel (fun name => Reads contents later.graph declaration.scope (.named name)) base found := by
  rcases linkBase_ok h with ⟨rfl, rfl, rfl⟩ | ⟨name, id, rfl, rfl, hid, _⟩
  · exact ⟨hfaithful.stay, .none⟩
  · rcases resolveName_faithful hfaithful hid with ⟨hcontinues, hreads⟩
    exact ⟨hcontinues, .some hreads⟩

/-- A declaration's place holds its whole body once it is linked. -/
theorem define_faithful {declaration : Declaration} {place : NodeId} {value : Unit}
    (hfaithful : linker.IsFaithful contents) (hdeclaration : contents.declarations[place]? = some declaration)
    (h : define declaration place linker = .ok (value, later)) :
    linker.Continues later contents [place] ∧
      ∃ node, later.graph.node? place = some node ∧ ReadsDeclaration contents later.graph declaration node := by
  -- Filling the place changes no place that the body reads from.
  have hfill : ∀ {middle : Linker} {node : Node}, later = { middle with graph := middle.graph.replace place node } →
      linker.Continues middle contents [] → (placeholder declaration).Revised node →
      ReadsDeclaration contents middle.graph declaration node →
      linker.Continues later contents [place] ∧
        ∃ node, later.graph.node? place = some node ∧ ReadsDeclaration contents later.graph declaration node := by
    rintro middle node rfl hcontinues hrevised hreads
    rcases hcontinues.faithful.replace hdeclaration hrevised with ⟨hreplaced, hnode⟩
    have hplaces : [place] ⊆ middle.graph.declarations := by
      simpa [hcontinues.faithful.mem_declarations_iff] using ⟨declaration, hdeclaration⟩
    exact ⟨hcontinues.trans hreplaced, node, hnode, hreads.keep hreplaced.keeps hplaces⟩
  rcases declaration with ⟨name, scope, doc, body⟩
  cases body with
  | enumeration members =>
    cases pure_ok h
    rcases hfaithful.places place _ hdeclaration with ⟨node, hnode, hrevised⟩
    rw [hrevised.enumeration_eq] at hnode
    exact ⟨hfaithful.stay, _, hnode, .enumeration members rfl⟩
  | model base properties =>
    rcases bind_ok h with ⟨found, middle, hfound, h⟩
    rcases linkBase_faithful hfaithful hfound with ⟨hcontinues, hbase⟩
    rcases bind_ok h with ⟨linked, last, hlinked, h⟩
    rcases linkProperties_faithful scope _ properties hcontinues.faithful hlinked with ⟨hcontinues', hreads⟩
    refine hfill (modify_ok h) (hcontinues.trans hcontinues') (.model _ _ rfl) ?_
    exact .model base properties found linked rfl
      (rel_imp hbase (fun _ _ => Reads.keep hcontinues'.keeps (by simp))) hreads
  | union variants =>
    rcases bind_ok h with ⟨parts, middle, hparts, h⟩
    rcases linkForms_faithful scope _ variants hfaithful hparts with ⟨hcontinues, hreads⟩
    exact hfill (modify_ok h) hcontinues (.union _ _ _) (.union variants parts rfl hreads)
  | scalar base =>
    rcases bind_ok h with ⟨found, middle, hfound, h⟩
    rcases linkBase_faithful hfaithful hfound with ⟨hcontinues, hbase⟩
    exact hfill (modify_ok h) hcontinues (.scalar _ _ _) (.scalar base found rfl hbase)

/-- After all bodies are linked, every declaration's place holds its own. -/
theorem defineAll_faithful (pairs : List (Declaration × NodeId)) {value : PUnit}
    (hfaithful : linker.IsFaithful contents)
    (hpairs : ∀ pair ∈ pairs, contents.declarations[pair.2]? = some pair.1) (hnodup : (pairs.map Prod.snd).Nodup)
    (h : (List.forM pairs (fun (declaration, id) => define declaration id) : Linking PUnit) linker =
      .ok (value, later)) :
    linker.Continues later contents (pairs.map Prod.snd) ∧ ∀ pair ∈ pairs, ∃ node,
      later.graph.node? pair.2 = some node ∧ ReadsDeclaration contents later.graph pair.1 node := by
  induction pairs generalizing linker with
  | nil =>
    cases pure_ok h
    exact ⟨hfaithful.stay, by simp⟩
  | cons pair rest ih =>
    rw [List.forM_eq_forM, List.forM_cons] at h
    rcases bind_ok h with ⟨_, middle, hpair, h⟩
    rw [List.map_cons, List.nodup_cons] at hnodup
    rcases define_faithful hfaithful (hpairs pair (by simp)) hpair with ⟨hcontinues, node, hnode, hreads⟩
    rcases ih hcontinues.faithful (fun other hother => hpairs other (by simp [hother])) hnodup.2 h with
      ⟨hcontinues', hothers⟩
    refine ⟨hcontinues.trans hcontinues', ?_⟩
    intro other hother
    rcases List.mem_cons.1 hother with rfl | hother
    · refine ⟨node, hcontinues'.keeps.kept _ hnodup.1 node hnode, hreads.keep hcontinues'.keeps ?_⟩
      intro place hplace
      rcases List.mem_map.1 hplace with ⟨found, hfound, rfl⟩
      exact hcontinues.faithful.mem_declarations_iff.2 ⟨_, hpairs found (by simp [hfound])⟩
    · exact hothers other hother

theorem linkOption_faithful (scope : Scope) (referrer : String) (form : Option Form) {found : Option NodeId}
    (hfaithful : linker.IsFaithful contents) (h : form.mapM (linkForm scope referrer) linker = .ok (found, later)) :
    linker.Continues later contents [] ∧ Option.Rel (Reads contents later.graph scope) form found := by
  cases form with
  | none =>
    cases pure_ok h
    exact ⟨hfaithful.stay, .none⟩
  | some type =>
    rw [Option.mapM_some] at h
    rcases map_ok h with ⟨id, hid, rfl⟩
    rcases linkForm_faithful scope referrer type hfaithful hid with ⟨hcontinues, hreads⟩
    exact ⟨hcontinues, .some hreads⟩

theorem linkResponses_faithful (scope : Scope) (referrer : String) (responses : List (Response Form))
    {linked : List (Response NodeId)} (hfaithful : linker.IsFaithful contents)
    (h : responses.mapM (linkResponse scope referrer) linker = .ok (linked, later)) :
    linker.Continues later contents [] ∧
      List.Forall₂ (ReadsResponse contents later.graph scope) responses linked := by
  induction responses generalizing linker linked with
  | nil =>
    rw [List.mapM_nil] at h
    cases pure_ok h
    exact ⟨hfaithful.stay, .nil⟩
  | cons response rest ih =>
    rcases linkResponses_cons_ok h with ⟨body, middle, others, hbody, hothers, rfl⟩
    rcases linkOption_faithful scope referrer response.body hfaithful hbody with ⟨hcontinues, hreads⟩
    rcases ih hcontinues.faithful hothers with ⟨hcontinues', hreads'⟩
    exact ⟨hcontinues.trans hcontinues',
      .cons ⟨rfl, rel_imp hreads (fun _ _ => Reads.keep hcontinues'.keeps (by simp))⟩ hreads'⟩

theorem linkOperation_faithful {operation : Operation Form} {value : PUnit} (hfaithful : linker.IsFaithful contents)
    (h : linkOperation operation linker = .ok (value, later)) :
    later.IsFaithful contents ∧ linker.graph.KeepsBut later.graph [] ∧ ∃ linked,
      later.graph.operations = linker.graph.operations ++ [linked] ∧
        ReadsOperation contents later.graph operation linked := by
  rw [linkOperation] at h
  rcases bind_ok h with ⟨request, middle, hrequest, h⟩
  rcases bind_ok h with ⟨responses, last, hresponses, h⟩
  cases modify_ok h
  rcases linkOption_faithful operation.scope _ operation.request hfaithful hrequest with ⟨hcontinues, hreads⟩
  rcases linkResponses_faithful operation.scope _ operation.responses hcontinues.faithful hresponses with
    ⟨hcontinues', hreads'⟩
  have hsteps := hcontinues.trans hcontinues'
  have hkeeps := Graph.keepsBut_addOperation last.graph { operation with request, responses }
  refine ⟨hsteps.faithful.addOperation _, hsteps.keeps.trans hkeeps, { operation with request, responses }, ?_, ?_⟩
  · exact congrArg (· ++ _) hsteps.operations_eq
  · refine ReadsOperation.keep hkeeps (by simp) ⟨rfl, rfl, rfl, rfl, rfl, ?_, hreads'⟩
    exact rel_imp hreads (fun _ _ => Reads.keep hcontinues'.keeps (by simp))

theorem linkOperations_faithful (operations : List (Operation Form)) {value : PUnit}
    (hfaithful : linker.IsFaithful contents) (h : List.forM operations linkOperation linker = .ok (value, later)) :
    later.IsFaithful contents ∧ linker.graph.KeepsBut later.graph [] ∧ ∃ linked,
      later.graph.operations = linker.graph.operations ++ linked ∧
        List.Forall₂ (ReadsOperation contents later.graph) operations linked := by
  induction operations generalizing linker with
  | nil =>
    cases pure_ok h
    exact ⟨hfaithful, .refl _, [], by simp, .nil⟩
  | cons operation rest ih =>
    rw [List.forM_eq_forM, List.forM_cons] at h
    rcases bind_ok h with ⟨_, middle, hmiddle, h⟩
    rcases linkOperation_faithful hfaithful hmiddle with ⟨hnext, hkeeps, first, hfirst, hreads⟩
    rcases ih hnext h with ⟨hlater, hkeeps', others, hothers, hreads'⟩
    refine ⟨hlater, hkeeps.trans hkeeps', first :: others, ?_, .cons (hreads.keep hkeeps' (by simp)) hreads'⟩
    rw [hothers, hfirst, List.append_assoc, List.singleton_append]

end Linking
end SchemaGuards.Draft
