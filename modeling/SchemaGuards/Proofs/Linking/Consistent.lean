import SchemaGuards.Proofs.Linking.Unfolding
import SchemaGuards.Proofs.Traced

/-!
# The drafts that are linked

Linking stops at a name that stands for nothing, at a base of another kind than what extends it, and at a
declaration behind one that can be referred to by the same qualified name. All other drafts are linked. What
a name stands for is a matter of the draft alone, so that linking is decided before it has made a node.
-/
namespace SchemaGuards.Draft

/-- What holds of a type whenever it holds of its parts holds of every type. -/
theorem Form.induct {motive : Form → Prop} (named : ∀ name, motive (.named name))
    (indexed : ∀ kind element, motive element → motive (.indexed kind element))
    (tuple : ∀ elements, (∀ element ∈ elements, motive element) → motive (.tuple elements))
    (union : ∀ variants, (∀ variant ∈ variants, motive variant) → motive (.union variants))
    (model : ∀ properties, (∀ property ∈ properties, motive property.type) → motive (.model properties))
    (literal : ∀ value, motive (.literal value)) (unsupported : ∀ kind, motive (.unsupported kind))
    (form : Form) : motive form := by
  have hsize : ∀ size, ∀ form : Form, sizeOf form < size → motive form := by
    intro size
    induction size with
    | zero =>
      intro form hsize
      omega
    | succ size ih =>
      intro form hsize
      cases form with
      | named name => exact named name
      | indexed kind element =>
        simp only [Form.indexed.sizeOf_spec] at hsize
        exact indexed kind element (ih element (by omega))
      | tuple elements =>
        simp only [Form.tuple.sizeOf_spec] at hsize
        apply tuple
        intro element hmem
        have hless := List.sizeOf_lt_of_mem hmem
        exact ih element (by omega)
      | union variants =>
        simp only [Form.union.sizeOf_spec] at hsize
        apply union
        intro variant hmem
        have hless := List.sizeOf_lt_of_mem hmem
        exact ih variant (by omega)
      | model properties =>
        simp only [Form.model.sizeOf_spec] at hsize
        apply model
        intro property hmem
        have hless := List.sizeOf_lt_of_mem hmem
        obtain ⟨name, type, optional, visibility, doc⟩ := property
        simp only [Property.mk.sizeOf_spec] at hless
        exact ih type (by omega)
      | literal value => exact literal value
      | unsupported kind => exact unsupported kind
  exact hsize _ form (Nat.lt_succ_self _)

/-- Every name in a type stands for something. -/
inductive Form.IsKnown (contents : Contents) (scope : Scope) : Form → Prop
  | named (name : String) (target : Target) (h : contents.Names scope name target) :
    Form.IsKnown contents scope (.named name)
  | indexed (kind : Indexed) (element : Form) (h : element.IsKnown contents scope) :
    Form.IsKnown contents scope (.indexed kind element)
  | tuple (elements : List Form) (h : ∀ element ∈ elements, element.IsKnown contents scope) :
    Form.IsKnown contents scope (.tuple elements)
  | union (variants : List Form) (h : ∀ variant ∈ variants, variant.IsKnown contents scope) :
    Form.IsKnown contents scope (.union variants)
  | model (properties : List (Property Form))
    (h : ∀ property ∈ properties, property.type.IsKnown contents scope) :
    Form.IsKnown contents scope (.model properties)
  | literal (value : Primitive) : Form.IsKnown contents scope (.literal value)
  | unsupported (kind : String) : Form.IsKnown contents scope (.unsupported kind)

def kindOf (contents : Contents) : Target → Option Kind
  | .intrinsic _ => some .primitive
  | .declaration place => contents.declarations[place]?.map (fun declaration => (Linking.placeholder declaration).kind)
  | .builtin _ => some .scalar
  | .member .. => some .member

def Contents.NamesKind (contents : Contents) (scope : Scope) (name : String) (kind : Kind) : Prop :=
  ∃ target, contents.Names scope name target ∧ kindOf contents target = some kind

/-- Every name in a body stands for something, that of a base for something of the same kind. -/
def Body.IsKnown (contents : Contents) (scope : Scope) : Body → Prop
  | .model base properties => (∀ name, base = some name → contents.NamesKind scope name .model) ∧
      ∀ property ∈ properties, property.type.IsKnown contents scope
  | .enumeration _ => True
  | .union variants => ∀ variant ∈ variants, variant.IsKnown contents scope
  | .scalar base => ∀ name, base = some name → contents.NamesKind scope name .scalar

/-- Contents in which nothing is missing and no qualified name is declared anew. -/
structure Contents.IsConsistent (contents : Contents) : Prop where
  distinct : contents.declarations.Pairwise (fun first second => first.IsNamed → first.qualified ≠ second.qualified)
  declarations : ∀ declaration ∈ contents.declarations, declaration.body.IsKnown contents declaration.scope
  operations : ∀ operation ∈ contents.operations, ∀ form ∈ operation.bodies, form.IsKnown contents operation.scope

section Known
variable {contents : Contents} {scope : Scope} {name : String}

/-- A name that some namespace around declares is declared by an innermost one. -/
theorem Contents.exists_innermost {depth place : Nat} (hdepth : depth ≤ scope.length)
    (h : contents.Declares (Text.dotted (scope.take depth ++ [name])) place) :
    ∃ inner, contents.Innermost scope name inner := by
  -- The search goes inwards as long as a namespace further in declares the name.
  induction hgap : scope.length - depth using Nat.strongRecOn generalizing depth place with
  | ind gap ih =>
    by_cases hdeeper : ∃ deeper, depth < deeper ∧ deeper ≤ scope.length ∧
        ∃ other, contents.Declares (Text.dotted (scope.take deeper ++ [name])) other
    · obtain ⟨deeper, hlt, hle, other, hother⟩ := hdeeper
      exact ih (scope.length - deeper) (by omega) hle hother rfl
    · refine ⟨place, depth, hdepth, h, ?_⟩
      intro deeper hlt hle other hother
      exact hdeeper ⟨deeper, hlt, hle, other, hother⟩

theorem Contents.exists_names_of_mem {declaration : Declaration} (hmem : declaration ∈ contents.declarations)
    (hnamed : declaration.IsNamed) {depth : Nat} (hdepth : depth ≤ scope.length)
    (hname : Text.dotted (scope.take depth ++ [name]) = declaration.qualified) :
    ∃ target, contents.Names scope name target := by
  by_cases hintrinsic : ∃ value : Intrinsic, name = value.name
  · obtain ⟨value, hvalue⟩ := hintrinsic
    exact ⟨_, .intrinsic value hvalue⟩
  · obtain ⟨place, hplace⟩ := List.mem_iff_getElem?.1 hmem
    obtain ⟨inner, hinner⟩ := contents.exists_innermost hdepth ⟨declaration, hplace, hnamed, hname.symm⟩
    exact ⟨_, .declaration inner (by simpa using hintrinsic) hinner⟩

/-- Inside its namespace a declaration's own name has a meaning. -/
theorem Contents.exists_names_self {declaration : Declaration} (hmem : declaration ∈ contents.declarations)
    (hnamed : declaration.IsNamed) : ∃ target, contents.Names declaration.scope declaration.name target :=
  contents.exists_names_of_mem hmem hnamed (Nat.le_refl _) (by rw [List.take_length, Declaration.qualified])

theorem Contents.exists_names_of_isBuiltin (h : IsBuiltin name) : ∃ target, contents.Names scope name target := by
  by_cases hintrinsic : ∃ value : Intrinsic, name = value.name
  · obtain ⟨value, hvalue⟩ := hintrinsic
    exact ⟨_, .intrinsic value hvalue⟩
  · have hnot : ∀ value : Intrinsic, name ≠ value.name := by simpa using hintrinsic
    by_cases hdeclared : ∃ place, contents.Innermost scope name place
    · obtain ⟨place, hplace⟩ := hdeclared
      exact ⟨_, .declaration place hnot hplace⟩
    · exact ⟨_, .builtin name hnot (not_exists.1 hdeclared) (.inl rfl) h⟩

end Known

theorem splitLastDot?_append {owner member : String} (hdot : '.' ∉ member.toList) :
    splitLastDot? (owner ++ "." ++ member) = some (owner, member) := by
  cases hsplit : splitLastDot? (owner ++ "." ++ member) with
  | some pair =>
    obtain ⟨owner', member'⟩ := pair
    obtain ⟨hname, hdot'⟩ := splitLastDot?_spec hsplit
    obtain ⟨rfl, rfl⟩ := split_unique hdot hdot' hname
    rfl
  | none =>
    -- A single piece would be the whole name, which has a dot.
    have hpieces : ∀ piece, (owner ++ "." ++ member).toList.splitOn '.' ≠ [piece] := by
      intro piece hpiece
      have hjoin : ['.'].intercalate ((owner ++ "." ++ member).toList.splitOn '.') = (owner ++ "." ++ member).toList :=
        List.intercalate_splitOn '.'
      rw [hpiece, List.intercalate_singleton] at hjoin
      have hnot := not_mem_of_mem_splitOn (hpiece ▸ List.mem_singleton_self piece)
      simp [hjoin] at hnot
    rw [splitLastDot?, Text.splitText] at hsplit
    cases hsplitOn : (owner ++ "." ++ member).toList.splitOn '.' with
    | nil => exact absurd hsplitOn (List.splitOn_ne_nil '.' _)
    | cons piece rest =>
      cases rest with
      | nil => exact absurd hsplitOn (hpieces piece)
      | cons next others =>
        rw [hsplitOn] at hsplit
        simp [List.getLast?_cons] at hsplit

namespace Linking
open Linker

variable {α β : Type} {linker : Linker}

def Proceeds (step : Linking α) (linker : Linker) : Prop := ∃ value later, step linker = .ok (value, later)

theorem Proceeds.pure (value : α) : Proceeds (Pure.pure value) linker := ⟨value, linker, rfl⟩

theorem Proceeds.addNode (node : Node) : Proceeds (addNode node) linker := ⟨_, _, rfl⟩

theorem Proceeds.modify (change : Linker → Linker) : Proceeds (modify change) linker := ⟨_, _, rfl⟩

theorem Proceeds.bind {first : Linking α} {next : α → Linking β} (h : Proceeds first linker)
    (hnext : ∀ value middle, first linker = .ok (value, middle) → Proceeds (next value) middle) :
    Proceeds (first >>= next) linker := by
  obtain ⟨value, middle, hvalue⟩ := h
  obtain ⟨result, later, hresult⟩ := hnext value middle hvalue
  refine ⟨result, later, ?_⟩
  simp only [Bind.bind, StateT.bind, Except.bind, hvalue]
  exact hresult

theorem Proceeds.bind_get {next : Linker → Linking β} (h : Proceeds (next linker) linker) :
    Proceeds (get >>= next) linker := by
  apply Proceeds.bind ⟨linker, linker, rfl⟩
  intro found middle hget
  cases get_ok hget
  exact h

/-- Built-in scalars can always be made. -/
theorem builtin_proceeds (names : List String) : Proceeds (builtin names) linker := by
  induction names generalizing linker with
  | nil => exact .pure none
  | cons name bases ih =>
    rw [builtin]
    apply Proceeds.bind_get
    cases linker.builtins.lookup name with
    | some id => exact .pure _
    | none =>
      refine ih.bind (fun base middle _ => ?_)
      refine (Proceeds.addNode _).bind (fun id added _ => ?_)
      exact (Proceeds.modify _).bind (fun _ _ _ => .pure _)

section Naming
variable {contents : Contents} {scope : Scope} {name : String}

theorem kind_of_stands (hfaithful : linker.IsFaithful contents) {target : Target} {id : NodeId}
    (hnames : contents.Names scope name target) (hid : linker.graph.Stands target id) :
    (linker.graph.node? id).map Node.kind = kindOf contents target := by
  cases hnames with
  | intrinsic value => simp only [hid.2, Option.map_some, kindOf, Node.kind]
  | declaration place hintrinsic hplace =>
    cases hid
    obtain ⟨_, _, ⟨declaration, hdeclaration, _⟩, _⟩ := hplace
    obtain ⟨node, hnode, hrevised⟩ := hfaithful.places id declaration hdeclaration
    simp only [kindOf, hnode, hdeclaration, Option.map_some, hrevised.kind_eq]
  | builtin scalar =>
    obtain ⟨bases, _, place, base, hplace, hholds, _⟩ := hid
    cases hplace
    simp only [hholds.2, Option.map_some, kindOf, Node.kind]
  | member owner member place => simp only [hid.2, Option.map_some, kindOf, Node.kind]

theorem ofName?_eq_none (h : ∀ value : Intrinsic, name ≠ value.name) : Intrinsic.ofName? name = none := by
  rw [Option.eq_none_iff_forall_ne_some]
  intro value hvalue
  exact h value (Intrinsic.ofName?_eq_some_iff.1 hvalue)

theorem lookupDeclaration?_eq_none (hfaithful : linker.IsFaithful contents)
    (h : ∀ place, ¬ contents.Innermost scope name place) : lookupDeclaration? linker.graph scope name = none := by
  rw [Option.eq_none_iff_forall_ne_some]
  intro place hplace
  exact h place ((lookupDeclaration?_iff hfaithful).1 hplace)

theorem memberNamed?_eq_some (hfaithful : linker.IsFaithful contents) {owner member : String} {place : Nat}
    (hdot : '.' ∉ member.toList) (howner : contents.Innermost scope owner place)
    (hmember : contents.HasMember place member) :
    memberNamed? linker.graph scope (owner ++ "." ++ member) = some (place, member) := by
  obtain ⟨declaration, members, hdeclaration, hbody, hmem⟩ := hmember
  obtain ⟨node, hnode, hrevised⟩ := hfaithful.places place declaration hdeclaration
  rw [placeholder, hbody] at hrevised
  cases hrevised.enumeration_eq
  simp only [memberNamed?, splitLastDot?_append hdot, (lookupDeclaration?_iff hfaithful).2 howner, hnode,
    Option.bind_eq_bind, Option.bind_some, if_pos hmem]

/-- A name that stands for something is resolved. -/
theorem resolveName_proceeds (hfaithful : linker.IsFaithful contents) (referrer : String) {target : Target}
    (h : contents.Names scope name target) : Proceeds (resolveName scope referrer name) linker := by
  rw [resolveName]
  cases h with
  | intrinsic value hvalue =>
    rw [Intrinsic.ofName?_eq_some_iff.2 hvalue]
    exact .addNode _
  | declaration place hintrinsic hplace =>
    rw [ofName?_eq_none hintrinsic]
    apply Proceeds.bind_get
    simp only [(lookupDeclaration?_iff hfaithful).2 hplace]
    exact .pure place
  | builtin scalar hintrinsic hdeclaration hscalar hbuiltin =>
    have hbases : withoutBuiltinScope name = scalar := by
      obtain rfl | rfl := hscalar
      · exact withoutBuiltinScope_of_isBuiltin hbuiltin
      · exact withoutBuiltinScope_qualified scalar
    obtain ⟨bases, hfound⟩ := Option.isSome_iff_exists.1 hbuiltin
    rw [ofName?_eq_none hintrinsic]
    apply Proceeds.bind_get
    simp only [lookupDeclaration?_eq_none hfaithful hdeclaration, hbases, hfound]
    refine (builtin_proceeds _).bind (fun found later hlater => ?_)
    obtain ⟨_, hhas, _⟩ := builtin_faithful _ (by rintro _ _ ⟨⟩; exact hfound) hfaithful hlater
    obtain ⟨id, _, rfl, _⟩ := hhas
    exact .pure id
  | member owner member place hintrinsic hdeclaration hbuiltin hname hdot howner hmember =>
    have hbases : builtinBases? (withoutBuiltinScope name) = none := by
      rw [Option.eq_none_iff_forall_ne_some]
      intro bases hfound
      have hscalar := hbuiltin (withoutBuiltinScope name) (by simp [IsBuiltin, hfound])
      exact (qualified_withoutBuiltinScope name).elim hscalar.1 hscalar.2
    rw [ofName?_eq_none hintrinsic]
    apply Proceeds.bind_get
    simp only [lookupDeclaration?_eq_none hfaithful hdeclaration, hbases]
    rw [hname, memberNamed?_eq_some hfaithful hdot howner hmember]
    exact .addNode _

end Naming

section Forms
variable {contents : Contents} {scope : Scope}

theorem linkForms_proceeds (referrer : String) {forms : List Form}
    (h : ∀ form ∈ forms, ∀ linker : Linker, linker.IsFaithful contents →
      Proceeds (linkForm scope referrer form) linker)
    (hfaithful : linker.IsFaithful contents) : Proceeds (linkForms scope referrer forms) linker := by
  induction forms generalizing linker with
  | nil => exact .pure []
  | cons form rest ih =>
    rw [List.forall_mem_cons] at h
    rw [linkForms]
    refine (h.1 linker hfaithful).bind (fun first middle hmiddle => ?_)
    have hnext := (linkForm_faithful scope referrer form hfaithful hmiddle).1.faithful
    exact (ih h.2 hnext).bind (fun _ _ _ => .pure _)

theorem linkProperties_proceeds (referrer : String) {properties : List (Property Form)}
    (h : ∀ property ∈ properties, ∀ (referrer : String) (linker : Linker), linker.IsFaithful contents →
      Proceeds (linkForm scope referrer property.type) linker)
    (hfaithful : linker.IsFaithful contents) : Proceeds (linkProperties scope referrer properties) linker := by
  induction properties generalizing linker with
  | nil => exact .pure []
  | cons property rest ih =>
    rw [List.forall_mem_cons] at h
    rw [linkProperties]
    refine Proceeds.bind ?_ (fun first middle hmiddle => ?_)
    · rw [linkProperty]
      exact (h.1 _ linker hfaithful).bind (fun _ _ _ => .pure _)
    · have hnext := (linkProperty_faithful scope referrer property hfaithful hmiddle).1.faithful
      exact (ih h.2 hnext).bind (fun _ _ _ => .pure _)

theorem linkForm_proceeds (referrer : String) {form : Form} (h : form.IsKnown contents scope)
    (hfaithful : linker.IsFaithful contents) : Proceeds (linkForm scope referrer form) linker := by
  induction h generalizing referrer linker with
  | named name target h => exact resolveName_proceeds hfaithful referrer h
  | indexed kind element _ ih =>
    rw [linkForm]
    exact (ih referrer hfaithful).bind (fun _ _ _ => .addNode _)
  | tuple elements _ ih =>
    rw [linkForm]
    have hparts := linkForms_proceeds referrer (fun form hform linker => ih form hform referrer) hfaithful
    exact hparts.bind (fun _ _ _ => .addNode _)
  | union variants _ ih =>
    rw [linkForm]
    have hparts := linkForms_proceeds referrer (fun form hform linker => ih form hform referrer) hfaithful
    exact hparts.bind (fun _ _ _ => .addNode _)
  | model properties _ ih =>
    rw [linkForm]
    have hparts := linkProperties_proceeds referrer (fun property hproperty referrer _ =>
      ih property hproperty referrer) hfaithful
    exact hparts.bind (fun _ _ _ => .addNode _)
  | literal value => exact .addNode _
  | unsupported kind => exact .addNode _

theorem linkOption_proceeds (referrer : String) {form : Option Form}
    (h : ∀ type, form = some type → type.IsKnown contents scope) (hfaithful : linker.IsFaithful contents) :
    Proceeds (form.mapM (linkForm scope referrer)) linker := by
  cases form with
  | none => exact .pure none
  | some type =>
    rw [Option.mapM_some, map_eq_pure_bind]
    exact (linkForm_proceeds referrer (h type rfl) hfaithful).bind (fun _ _ _ => .pure _)

theorem linkResponses_proceeds (referrer : String) {responses : List (Response Form)}
    (h : ∀ response ∈ responses, ∀ type, response.body = some type → type.IsKnown contents scope)
    (hfaithful : linker.IsFaithful contents) :
    Proceeds (responses.mapM (linkResponse scope referrer)) linker := by
  induction responses generalizing linker with
  | nil =>
    rw [List.mapM_nil]
    exact .pure []
  | cons response rest ih =>
    rw [List.forall_mem_cons] at h
    rw [List.mapM_cons]
    refine Proceeds.bind ?_ (fun first middle hmiddle => ?_)
    · rw [linkResponse]
      exact (linkOption_proceeds referrer h.1 hfaithful).bind (fun _ _ _ => .pure _)
    · rw [linkResponse] at hmiddle
      obtain ⟨body, last, hbody, hmiddle⟩ := bind_ok hmiddle
      cases pure_ok hmiddle
      have hnext := (linkOption_faithful scope referrer _ hfaithful hbody).1.faithful
      exact (ih h.2 hnext).bind (fun _ _ _ => .pure _)

theorem linkOperation_proceeds {operation : Operation Form}
    (h : ∀ form ∈ operation.bodies, form.IsKnown contents operation.scope)
    (hfaithful : linker.IsFaithful contents) : Proceeds (linkOperation operation) linker := by
  have hrequest : ∀ type, operation.request = some type → type.IsKnown contents operation.scope := by
    intro type htype
    apply h
    simp [Operation.bodies, htype]
  have hresponses : ∀ response ∈ operation.responses, ∀ type, response.body = some type →
      type.IsKnown contents operation.scope := by
    intro response hmem type htype
    apply h
    rw [Operation.bodies, List.mem_append, List.mem_filterMap]
    exact .inr ⟨response, hmem, htype⟩
  rw [linkOperation]
  refine (linkOption_proceeds _ hrequest hfaithful).bind (fun request middle hmiddle => ?_)
  have hnext := (linkOption_faithful _ _ _ hfaithful hmiddle).1.faithful
  exact (linkResponses_proceeds _ hresponses hnext).bind (fun _ _ _ => .modify _)

theorem linkOperations_proceeds {operations : List (Operation Form)}
    (h : ∀ operation ∈ operations, ∀ form ∈ operation.bodies, form.IsKnown contents operation.scope)
    (hfaithful : linker.IsFaithful contents) : Proceeds (operations.forM linkOperation) linker := by
  induction operations generalizing linker with
  | nil => exact .pure _
  | cons operation rest ih =>
    rw [List.forall_mem_cons] at h
    rw [List.forM_eq_forM, List.forM_cons]
    refine (linkOperation_proceeds h.1 hfaithful).bind (fun _ middle hmiddle => ?_)
    exact ih h.2 (linkOperation_faithful hfaithful hmiddle).1

/-- A base of the right kind is found. -/
theorem linkBase_proceeds {declaration : Declaration} {kind : Kind} {base : Option String}
    (h : ∀ name, base = some name → contents.NamesKind declaration.scope name kind)
    (hfaithful : linker.IsFaithful contents) : Proceeds (linkBase declaration kind base) linker := by
  cases base with
  | none => exact .pure none
  | some name =>
    obtain ⟨target, htarget, hkind⟩ := h name rfl
    rw [linkBase]
    refine (resolveName_proceeds hfaithful _ htarget).bind (fun id middle hmiddle => ?_)
    obtain ⟨hcontinues, hreads⟩ := resolveName_faithful hfaithful hmiddle
    have hfound : (middle.graph.node? id).map Node.kind = some kind := by
      cases hreads with
      | named _ other _ hother hid =>
        cases hother.unique hfaithful.isDistinct htarget
        rw [kind_of_stands hcontinues.faithful htarget hid, hkind]
    apply Proceeds.bind_get
    simp only [hfound, if_true]
    exact .pure _

theorem define_proceeds {declaration : Declaration} (h : declaration.body.IsKnown contents declaration.scope)
    (hfaithful : linker.IsFaithful contents) (place : NodeId) : Proceeds (define declaration place) linker := by
  obtain ⟨name, scope, doc, body⟩ := declaration
  cases body with
  | model base properties =>
    refine Proceeds.bind (linkBase_proceeds h.1 hfaithful) (fun base middle hmiddle => ?_)
    have hnext := (linkBase_faithful hfaithful hmiddle).1.faithful
    have hproperties : ∀ property ∈ properties, ∀ (referrer : String) (linker : Linker),
        linker.IsFaithful contents → Proceeds (linkForm scope referrer property.type) linker :=
      fun property hproperty referrer linker => linkForm_proceeds referrer (h.2 property hproperty)
    exact (linkProperties_proceeds _ hproperties hnext).bind (fun _ _ _ => .modify _)
  | enumeration members => exact .pure _
  | union variants =>
    have hvariants : ∀ variant ∈ variants, ∀ (referrer : String) (linker : Linker),
        linker.IsFaithful contents → Proceeds (linkForm scope referrer variant) linker :=
      fun variant hvariant referrer linker => linkForm_proceeds referrer (h variant hvariant)
    exact Proceeds.bind (linkForms_proceeds _ (fun variant hmem => hvariants variant hmem _) hfaithful)
      (fun _ _ _ => .modify _)
  | scalar base => exact Proceeds.bind (linkBase_proceeds h hfaithful) (fun _ _ _ => .modify _)

theorem defineAll_proceeds (pairs : List (Declaration × NodeId))
    (h : ∀ pair ∈ pairs, pair.1.body.IsKnown contents pair.1.scope)
    (hpairs : ∀ pair ∈ pairs, contents.declarations[pair.2]? = some pair.1) (hfaithful : linker.IsFaithful contents) :
    Proceeds (List.forM pairs (fun (declaration, id) => define declaration id)) linker := by
  induction pairs generalizing linker with
  | nil => exact .pure _
  | cons pair rest ih =>
    rw [List.forall_mem_cons] at h hpairs
    rw [List.forM_eq_forM, List.forM_cons]
    refine (define_proceeds h.1 hfaithful pair.2).bind (fun _ middle hmiddle => ?_)
    exact ih h.2 hpairs.2 (define_faithful hfaithful hpairs.1 hmiddle).1.faithful

end Forms

section Declare
variable {declarations : List Declaration}

/-- A declaration gets a place exactly when its qualified name is new. -/
theorem declare_proceeds_iff (declaration : Declaration) (hplaced : IsPlaced linker declarations) :
    Proceeds (declare declaration) linker ↔
      ∀ first ∈ declarations, first.IsNamed → first.qualified ≠ declaration.qualified := by
  have hnew : linker.graph.declared? declaration.qualified = none ↔
      ∀ first ∈ declarations, first.IsNamed → first.qualified ≠ declaration.qualified := by
    rw [Option.eq_none_iff_forall_ne_some]
    simp only [ne_eq, hplaced.binds, Contents.Declares, List.mem_iff_getElem?]
    grind
  rw [← hnew, ← Option.not_isSome_iff_eq_none]
  constructor
  · rintro ⟨id, later, h⟩ hsome
    rw [declare] at h
    obtain ⟨_, _, hget, h⟩ := bind_ok h
    cases get_ok hget
    rw [if_pos hsome] at h
    exact not_throw h
  · intro hnone
    rw [declare]
    apply Proceeds.bind_get
    rw [if_neg hnone]
    exact ⟨_, _, rfl⟩

/-- All places are made exactly when no declaration comes behind another one that has its qualified name. -/
theorem declareAll_proceeds_iff (rest : List Declaration) (hplaced : IsPlaced linker declarations)
    (hearlier : declarations.Pairwise (fun first second => first.IsNamed → first.qualified ≠ second.qualified)) :
    Proceeds (rest.mapM declare) linker ↔ (declarations ++ rest).Pairwise
      (fun first second => first.IsNamed → first.qualified ≠ second.qualified) := by
  induction rest generalizing linker declarations with
  | nil =>
    rw [List.mapM_nil, List.append_nil]
    exact ⟨fun _ => hearlier, fun _ => .pure []⟩
  | cons declaration rest ih =>
    rw [List.mapM_cons, List.append_cons]
    have hfirst := declare_proceeds_iff declaration hplaced
    constructor
    · rintro ⟨ids, later, h⟩
      obtain ⟨id, middle, hmiddle, h⟩ := bind_ok h
      obtain ⟨others, last, hothers, _⟩ := bind_ok h
      have hnext : (declarations ++ [declaration]).Pairwise
          (fun first second => first.IsNamed → first.qualified ≠ second.qualified) := by
        rw [List.pairwise_append]
        refine ⟨hearlier, List.pairwise_singleton _ _, ?_⟩
        intro first hmem second hsecond
        rw [List.mem_singleton.1 hsecond]
        exact hfirst.1 ⟨id, middle, hmiddle⟩ first hmem
      exact (ih (declare_placed hplaced hmiddle).2 hnext).1 ⟨others, last, hothers⟩
    · intro hpairwise
      have hnext := (List.pairwise_append.1 hpairwise).1
      have hnew := fun first hmem => (List.pairwise_append.1 hnext).2.2 first hmem declaration (List.mem_singleton_self _)
      refine (hfirst.2 hnew).bind (fun id middle hmiddle => ?_)
      have hrest := (ih (declare_placed hplaced hmiddle).2 hnext).2 hpairwise
      exact hrest.bind (fun _ _ _ => .pure _)

end Declare
end Linking

section Readings
variable {contents : Contents} {graph : Graph} {scope : Scope}

/-- What holds of a type whenever it holds of its parts holds of all that a graph reads as. The names in it stand
for something, and its models have their nodes. -/
theorem Reads.induct {motive : Form → Prop}
    (named : ∀ name target, contents.Names scope name target → motive (.named name))
    (indexed : ∀ kind element, motive element → motive (.indexed kind element))
    (tuple : ∀ elements, (∀ element ∈ elements, motive element) → motive (.tuple elements))
    (union : ∀ variants, (∀ variant ∈ variants, motive variant) → motive (.union variants))
    (model : ∀ properties linked id, graph.Holds id (.model { decl := {}, properties := linked }) →
      List.Forall₂ (ReadsProperty contents graph scope) properties linked →
      (∀ property ∈ properties, motive property.type) → motive (.model properties))
    (literal : ∀ value, motive (.literal value)) (unsupported : ∀ kind, motive (.unsupported kind))
    {form : Form} {id : NodeId} (h : Reads contents graph scope form id) : motive form := by
  induction form using Form.induct generalizing id with
  | named name =>
    cases h with
    | named _ target _ htarget _ => exact named name target htarget
  | indexed kind element ih =>
    cases h with
    | indexed _ _ part _ _ h => exact indexed kind element (ih h)
  | tuple elements ih =>
    cases h with
    | tuple _ parts _ _ h =>
      apply tuple
      intro element hmem
      obtain ⟨part, _, hpart⟩ := (mem_of_forall₂ h).1 element hmem
      exact ih element hmem hpart
  | union variants ih =>
    cases h with
    | union _ parts _ _ h =>
      apply union
      intro variant hmem
      obtain ⟨part, _, hpart⟩ := (mem_of_forall₂ h).1 variant hmem
      exact ih variant hmem hpart
  | model properties ih =>
    cases h with
    | model _ linked _ hid h =>
      apply model properties linked id hid h
      intro property hmem
      obtain ⟨part, _, hpart⟩ := (mem_of_forall₂ h).1 property hmem
      cases hpart with
      | mk _ _ _ _ _ id hpart => exact ih _ hmem hpart
  | literal value => exact literal value
  | unsupported kind => exact unsupported kind

/-- All names in what a graph reads as stand for something. -/
theorem Reads.isKnown {form : Form} {id : NodeId} (h : Reads contents graph scope form id) :
    form.IsKnown contents scope :=
  h.induct .named .indexed .tuple .union (fun properties _ _ _ _ => .model properties) .literal .unsupported

theorem ReadsProperty.isKnown {property : Property Form} {linked : Property NodeId}
    (h : ReadsProperty contents graph scope property linked) : property.type.IsKnown contents scope := by
  cases h with
  | mk _ _ _ _ _ id h => exact h.isKnown

/-- A base that a graph reads at a node of some kind stands for something of that kind. -/
theorem namesKind_of_reads (hlinked : contents.LinkedInto graph) {name : String} {id : NodeId}
    (h : Reads contents graph scope (.named name) id) {node : Node} (hnode : graph.node? id = some node) :
    contents.NamesKind scope name node.kind := by
  cases h with
  | named _ target _ htarget hid =>
    obtain ⟨linker, rfl, hfaithful⟩ := hlinked.faithful
    refine ⟨target, htarget, ?_⟩
    rw [← Linking.kind_of_stands hfaithful htarget hid, hnode, Option.map_some]

theorem ReadsDeclaration.isKnown (hlinked : contents.LinkedInto graph) {declaration : Declaration} {node : Node}
    (h : ReadsDeclaration contents graph declaration node) {kinds : List String}
    (hsupports : graph.Supports kinds node) : declaration.body.IsKnown contents declaration.scope := by
  obtain ⟨name, scope, doc, body⟩ := declaration
  cases h with
  | model base properties extended linked hbody hbase hproperties =>
    cases hbody
    refine ⟨?_, ?_⟩
    · rintro _ rfl
      obtain ⟨id, hid, hreads⟩ : ∃ id, extended = some id ∧ Reads contents graph scope _ id := by
        cases hbase with
        | some hreads => exact ⟨_, rfl, hreads⟩
      obtain ⟨content, hcontent⟩ := hsupports.1 id hid
      exact namesKind_of_reads hlinked hreads hcontent
    · intro property hmem
      obtain ⟨_, _, hproperty⟩ := (mem_of_forall₂ hproperties).1 property hmem
      exact hproperty.isKnown
  | enumeration members hbody =>
    cases hbody
    trivial
  | union variants parts hbody hvariants =>
    cases hbody
    intro variant hmem
    obtain ⟨_, _, hvariant⟩ := (mem_of_forall₂ hvariants).1 variant hmem
    exact hvariant.isKnown
  | scalar base extended hbody hbase =>
    cases hbody
    rintro _ rfl
    obtain ⟨id, hid, hreads⟩ : ∃ id, extended = some id ∧ Reads contents graph scope _ id := by
      cases hbase with
      | some hreads => exact ⟨_, rfl, hreads⟩
    obtain ⟨content, hcontent⟩ := hsupports id hid
    exact namesKind_of_reads hlinked hreads hcontent

theorem ReadsOperation.reads_body {operation : Operation Form} {linked : Operation NodeId}
    (h : ReadsOperation contents graph operation linked) {form : Form} (hform : form ∈ operation.bodies) :
    ∃ id, Reads contents graph operation.scope form id := by
  have hoption : ∀ {body : Option Form} {found : Option NodeId},
      Option.Rel (Reads contents graph operation.scope) body found → body = some form →
      ∃ id, Reads contents graph operation.scope form id := by
    rintro _ _ hrel rfl
    cases hrel with
    | some hreads => exact ⟨_, hreads⟩
  rw [Operation.bodies, List.mem_append, Option.mem_toList, List.mem_filterMap] at hform
  obtain hrequest | ⟨response, hmem, hbody⟩ := hform
  · exact hoption h.request hrequest
  · obtain ⟨_, _, hresponse⟩ := (mem_of_forall₂ h.responses).1 response hmem
    exact hoption hresponse.2 hbody

end Readings

/-- The parts of a draft that is linked stand in a graph. -/
theorem isConsistent_of_link {draft : Draft} {graph : Graph} (h : draft.link = .ok graph) :
    draft.contents.IsConsistent := by
  have hlinked := Draft.linkedInto h
  have hfits := (Draft.link_isLinked h).1.fits
  refine ⟨?_, ?_, ?_⟩
  · obtain ⟨ids, placed, _, _, hplaced, _⟩ := link_phases h
    have hstart := Linking.isPlaced_start draft.roots
    exact (Linking.declareAll_proceeds_iff _ hstart List.Pairwise.nil).1 ⟨ids, placed, hplaced⟩
  · intro declaration hmem
    obtain ⟨place, hplace⟩ := List.mem_iff_getElem?.1 hmem
    obtain ⟨node, hnode, hreads⟩ := hlinked.declared place declaration hplace
    exact hreads.isKnown hlinked (hfits place node hnode).supported
  · intro operation hmem form hform
    obtain ⟨_, _, hreads⟩ := (mem_of_forall₂ hlinked.operations).1 operation hmem
    obtain ⟨_, hbody⟩ := hreads.reads_body hform
    exact hbody.isKnown

/-- A draft is linked exactly when all its names stand for something, every base for something of the same
kind, and no qualified name is declared anew. -/
theorem link_isOk_iff {draft : Draft} : (∃ graph, draft.link = .ok graph) ↔ draft.contents.IsConsistent := by
  refine ⟨fun ⟨graph, h⟩ => isConsistent_of_link h, fun h => ?_⟩
  have hstart := Linking.isPlaced_start draft.roots
  have hproceeds : Linking.Proceeds (Linking.link draft.contents) { graph := { roots := draft.roots } } := by
    rw [Linking.link]
    have hdeclare := (Linking.declareAll_proceeds_iff draft.contents.declarations hstart List.Pairwise.nil).2 h.distinct
    refine hdeclare.bind (fun ids placed hplaced => ?_)
    obtain ⟨rfl, hall⟩ := Linking.declareAll_placed _ hstart hplaced
    have hfaithful : placed.IsFaithful draft.contents := hall.isFaithful
    have hpairs : ∀ pair ∈ draft.contents.declarations.zip (List.range' 0 draft.contents.declarations.length),
        draft.contents.declarations[pair.2]? = some pair.1 := fun pair => Linking.mem_zip_range'_iff.1
    have hdefine := Linking.defineAll_proceeds _
      (fun pair hpair => h.declarations pair.1 (List.of_mem_zip hpair).1) hpairs hfaithful
    refine Linking.Proceeds.bind hdefine (fun _ defined hdefined => ?_)
    obtain ⟨hcontinues, _⟩ := Linking.defineAll_faithful _ hfaithful hpairs (Linking.nodup_zip_range' _) hdefined
    exact Linking.linkOperations_proceeds h.operations hcontinues.faithful
  obtain ⟨value, later, hlater⟩ := hproceeds
  refine ⟨later.graph, ?_⟩
  rw [Draft.link, hlater]
  rfl

end SchemaGuards.Draft
