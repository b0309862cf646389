import SchemaGuards.Proofs.Format.Grammar

/-!
# Types are read as the format has them

The readers of the type language succeed on a tree exactly when it follows the rule of the format for
its name, and then give what the rule says. Forms and properties hold one another, so that the two
results come out of one induction on the tree.
-/
namespace SchemaGuards

theorem except_bind_ok {ε α β : Type} {first : Except ε α} {next : α → Except ε β} {result : β}
    (h : first >>= next = .ok result) : ∃ value, first = .ok value ∧ next value = .ok result := by
  cases first with
  | error error => cases h
  | ok value => exact ⟨value, rfl, h⟩

theorem except_map_ok {ε α β : Type} {step : Except ε α} {change : α → β} {result : β}
    (h : step.map change = .ok result) : ∃ value, step = .ok value ∧ result = change value := by
  cases step with
  | error error => cases h
  | ok value =>
    cases h
    exact ⟨value, rfl, rfl⟩

theorem except_mapError_ok {ε ε' α : Type} {step : Except ε α} {change : ε → ε'} {result : α}
    (h : step.mapError change = .ok result) : step = .ok result := by
  cases step with
  | error error => cases h
  | ok value =>
    cases h
    rfl

theorem except_bind_eq_ok {ε α β : Type} {first : Except ε α} {next : α → Except ε β} {result : β} :
    first >>= next = .ok result ↔ ∃ value, first = .ok value ∧ next value = .ok result := by
  constructor
  · exact except_bind_ok
  · intro h
    obtain ⟨value, rfl, hnext⟩ := h
    exact hnext

theorem except_ok_bind {ε α β : Type} (value : α) (next : α → Except ε β) :
    (Except.ok value >>= next) = next value := rfl

theorem except_map_eq_ok {ε α β : Type} {step : Except ε α} {change : α → β} {result : β} :
    step.map change = .ok result ↔ ∃ value, step = .ok value ∧ result = change value := by
  constructor
  · exact except_map_ok
  · intro h
    obtain ⟨value, rfl, rfl⟩ := h
    rfl

theorem except_mapM_eq_ok {ε α β : Type} {step : α → Except ε β} {values : List α} {results : List β} :
    values.mapM step = .ok results ↔ List.Forall₂ (fun value result => step value = .ok result) values results := by
  induction values generalizing results with
  | nil =>
    rw [List.mapM_nil, List.forall₂_nil_left_iff]
    exact ⟨fun h => (Except.ok.inj h).symm, fun h => congrArg Except.ok h.symm⟩
  | cons value rest ih =>
    rw [List.mapM_cons, List.forall₂_cons_left_iff, except_bind_eq_ok]
    constructor
    · intro h
      obtain ⟨first, hfirst, h⟩ := h
      obtain ⟨others, hothers, h⟩ := except_bind_ok h
      exact ⟨first, others, hfirst, ih.1 hothers, (Except.ok.inj h).symm⟩
    · intro h
      obtain ⟨first, others, hfirst, hothers, rfl⟩ := h
      exact ⟨first, hfirst, except_bind_eq_ok.2 ⟨others, ih.2 hothers, rfl⟩⟩

theorem forall₂_congr_of_mem {α β : Type} {related related' : α → β → Prop} {values : List α}
    {results : List β} (h : ∀ value ∈ values, ∀ result, related value result ↔ related' value result) :
    List.Forall₂ related values results ↔ List.Forall₂ related' values results := by
  induction values generalizing results with
  | nil => rw [List.forall₂_nil_left_iff, List.forall₂_nil_left_iff]
  | cons value rest ih =>
    have hrest := fun results => @ih results (fun other hother => h other (List.mem_cons_of_mem _ hother))
    simp only [List.forall₂_cons_left_iff, h value List.mem_cons_self, hrest]

namespace Draft
open Markup

theorem requireKey_eq_ok {keys : List Attribute} {element key value : String} :
    requireKey keys element key = .ok value ↔ key? keys key = some value := by
  unfold requireKey
  cases key? keys key <;> simp

theorem readFlag_eq_ok {keys : List Attribute} {element key : String} {flag : Bool} :
    readFlag keys element key = .ok flag ↔ WritesFlag (key? keys key) flag := by
  unfold readFlag WritesFlag
  cases key? keys key with
  | none => cases flag <;> simp
  | some value =>
    by_cases htrue : value = "true"
    · cases flag <;> simp [htrue]
    · by_cases hfalse : value = "false" <;> cases flag <;> simp [htrue, hfalse]

theorem readNumber_eq_ok {element key value text : String} :
    readNumber element key value = .ok text ↔ WritesNumber value text := by
  unfold readNumber WritesNumber
  dsimp only
  split
  · next hfinite =>
    rw [Except.ok.injEq, eq_comm]
    constructor
    · rintro rfl
      exact ⟨rfl, hfinite⟩
    · exact And.left
  · next hfinite =>
    constructor
    · intro h
      cases h
    · rintro ⟨rfl, htext⟩
      exact absurd htext hfinite

theorem readVisibility_eq_ok {value : String} {states : LifecycleSet} :
    readVisibility value = .ok states ↔ WritesVisibility value states := by
  unfold readVisibility WritesVisibility
  rw [except_map_eq_ok]
  simp only [except_mapM_eq_ok]
  refine exists_congr fun phases => and_congr_left fun _ => forall₂_congr_of_mem fun part _ phase => ?_
  cases Lifecycle.ofName? part <;> simp

/-- An attribute that need not be there is read like one that is. -/
theorem option_mapM_eq_ok {α β : Type} {read : α → Except ReadError β} {writes : α → β → Prop}
    (hread : ∀ value result, read value = .ok result ↔ writes value result) {given : Option α}
    {result : Option β} : given.mapM read = .ok result ↔ Option.Rel writes given result := by
  cases given with
  | none =>
    constructor
    · intro h
      cases h
      exact .none
    · rintro ⟨⟩
      rfl
  | some value =>
    change (read value).map some = .ok result ↔ _
    rw [except_map_eq_ok]
    constructor
    · intro h
      obtain ⟨found, hfound, rfl⟩ := h
      exact .some ((hread value found).1 hfound)
    · rintro ⟨⟩
      next found hfound => exact ⟨found, (hread value found).2 hfound, rfl⟩

theorem readLeaf_eq_ok {element : String} {children : List Tree} {done : Unit} :
    readLeaf element (toElements children) .closed = .ok done ↔ children = [] := by
  cases children with
  | nil => exact ⟨fun _ => rfl, fun _ => rfl⟩
  | cons child rest =>
    constructor
    · intro h
      cases h
    · intro h
      cases h

theorem readSingle_eq_ok {element : String} {children : List Tree} {found : Option Form} :
    readSingle element none (toElements children) = .ok found ↔
      children = [] ∧ found = none ∨
        ∃ child form, children = [child] ∧ readForm child.toElement = .ok form ∧ found = some form := by
  cases children with
  | nil =>
    rw [toElements, readSingle, Except.ok.injEq, eq_comm]
    simp
  | cons child rest =>
    rw [toElements, readSingle, except_bind_eq_ok]
    simp only [Option.isSome_none, Bool.false_eq_true, if_false]
    cases rest with
    | nil => simp [toElements, readSingle, eq_comm]
    | cons other rest =>
      -- the second child is read before it is refused
      simp only [toElements, readSingle, except_bind_eq_ok, Option.isSome_some, if_true]
      simp

/-- A type in either of its two ways is read as the format has it, when forms are. -/
theorem readOptionalForm_eq_ok {keys : List Attribute} {tree : Tree} {found : Option Form}
    (hform : ∀ child ∈ tree.children, ∀ form, readForm child.toElement = .ok form ↔ WritesForm child form) :
    readOptionalForm keys tree.toElement = .ok found ↔ WritesType keys tree.children found := by
  obtain ⟨name, attributes, children⟩ := tree
  unfold readOptionalForm
  cases htype : key? keys "type" with
  | some type =>
    simp only [Tree.toElement, except_bind_eq_ok, readLeaf_eq_ok]
    constructor
    · intro h
      obtain ⟨_, rfl, h⟩ := h
      cases h
      exact .named htype
    · intro h
      cases h with
      | absent hnone => cases htype.symm.trans hnone
      | named hnamed =>
        cases htype.symm.trans hnamed
        exact ⟨(), rfl, rfl⟩
      | nested hnone _ => cases htype.symm.trans hnone
  | none =>
    simp only [Tree.toElement, except_bind_eq_ok, readSingle_eq_ok]
    constructor
    · intro h
      obtain ⟨single, hsingle, _, _, h⟩ := h
      cases h
      obtain ⟨rfl, rfl⟩ | ⟨child, form, rfl, hchild, rfl⟩ := hsingle
      · exact .absent htype
      · exact .nested htype ((hform child (by simp) form).1 hchild)
    · intro h
      cases h with
      | absent _ => exact ⟨none, .inl ⟨rfl, rfl⟩, (), rfl, rfl⟩
      | named hnamed => cases htype.symm.trans hnamed
      | nested _ hchild =>
        exact ⟨_, .inr ⟨_, _, rfl, (hform _ (by simp) _).2 hchild, rfl⟩, (), rfl, rfl⟩

theorem readForms_eq_mapM (elements : List Element) : readForms elements = elements.mapM readForm := by
  induction elements with
  | nil => rfl
  | cons element rest ih => rw [readForms, ih, List.mapM_cons]

theorem readProperties_eq_mapM (owner : String) (elements : List Element) :
    readProperties owner elements = elements.mapM (readProperty owner) := by
  induction elements with
  | nil => rfl
  | cons element rest ih => rw [readProperties, ih, List.mapM_cons]

theorem mapM_toElements_eq_ok {α : Type} {read : Element → Except ReadError α} {writes : Tree → α → Prop}
    {children : List Tree} {results : List α}
    (hread : ∀ child ∈ children, ∀ result, read child.toElement = .ok result ↔ writes child result) :
    (toElements children).mapM read = .ok results ↔ List.Forall₂ writes children results := by
  rw [except_mapM_eq_ok, toElements_eq_map, List.forall₂_map_left_iff]
  exact forall₂_congr_of_mem hread

theorem mem_of_ofName? {name : String} {kind : FormElement} (h : FormElement.ofName? name = some kind) :
    (name, kind) ∈ [("ref", .reference), ("variant", .reference), ("string", .string), ("number", .number),
      ("boolean", .boolean), ("opaque", .unsupported), ("array", .indexed .array),
      ("record", .indexed .record), ("tuple", .tuple), ("union", .union), ("model", FormElement.model)] := by
  obtain ⟨before, behind, htable, _⟩ := List.lookup_eq_some_iff.1 h
  rw [htable]
  simp

theorem requireForm_eq_ok {element : String} {found : Option Form} {form : Form} :
    requireForm element found = .ok form ↔ found = some form := by
  cases found with
  | none =>
    constructor
    · intro h
      cases h
    · intro h
      cases h
  | some type => rw [requireForm, Except.ok.injEq, Option.some.injEq]

theorem readKeys_ok (attributes : List Attribute) : readKeys (.ok attributes) = .ok attributes := rfl

theorem readEnding_closed (element : String) : readEnding element .closed = .ok () := rfl

theorem readForm_eq_of_indexed {name : String} {kind : Indexed}
    (hkind : FormElement.ofName? name = some (.indexed kind)) (attributes : Attributes) (children : List Element)
    (ending : Ending) :
    readForm ⟨name, attributes, children, ending⟩ = (do
      let keys ← readKeys attributes
      let element ← readOptionalForm keys ⟨name, attributes, children, ending⟩
      (requireForm name element).map (.indexed kind)) := by
  rw [readForm]
  refine bind_congr fun keys => ?_
  simp only [hkind, readLeafForm?, readOptionalForm]
  cases key? keys "type" <;> simp only [bind_assoc]

theorem readProperty_eq_of_name (owner : String) (attributes : Attributes) (children : List Element)
    (ending : Ending) :
    readProperty owner ⟨"property", attributes, children, ending⟩ = (do
      let keys ← readKeys attributes
      let title ← requireKey keys "property" "name"
      let optional ← readFlag keys "property" "optional"
      let visibility ← (key? keys "visibility").mapM readVisibility
      let type ← readOptionalForm keys ⟨"property", attributes, children, ending⟩
      let type ← requireForm "property" type
      pure ⟨title, type, optional, visibility, key? keys "doc"⟩) := by
  rw [readProperty, if_pos rfl]
  refine bind_congr fun keys => bind_congr fun title => bind_congr fun optional => bind_congr fun visibility => ?_
  simp only [readOptionalForm]
  cases key? keys "type" <;> simp only [bind_assoc]

section Forms
variable {name : String} {attributes : List Attribute} {children : List Tree} {form : Form}

theorem readForm_leaf {kind : FormElement} {leaf : Except ReadError Form}
    (hkind : FormElement.ofName? name = some kind) (hleaf : readLeafForm? name attributes kind = some leaf) :
    readForm (Tree.toElement ⟨name, attributes, children⟩) = .ok form ↔ leaf = .ok form ∧ children = [] := by
  simp only [Tree.toElement, readForm, readKeys_ok, except_bind_eq_ok, Except.ok.injEq, exists_eq_left', hkind,
    hleaf, readLeaf_eq_ok]
  constructor
  · intro h
    obtain ⟨found, hfound, _, hchildren, h⟩ := h
    cases h
    exact ⟨hfound, hchildren⟩
  · intro h
    exact ⟨form, h.1, (), h.2, rfl⟩

theorem readForm_indexed {kind : Indexed} (hkind : FormElement.ofName? name = some (.indexed kind)) :
    readForm (Tree.toElement ⟨name, attributes, children⟩) = .ok form ↔
      ∃ element, readOptionalForm attributes (Tree.toElement ⟨name, attributes, children⟩) = .ok (some element) ∧
        form = .indexed kind element := by
  simp only [Tree.toElement, readForm_eq_of_indexed hkind, readKeys_ok, except_ok_bind, except_bind_eq_ok,
    except_map_eq_ok, requireForm_eq_ok]
  constructor
  · intro h
    obtain ⟨_, hfound, element, rfl, hform⟩ := h
    exact ⟨element, hfound, hform⟩
  · intro h
    obtain ⟨element, hfound, hform⟩ := h
    exact ⟨some element, hfound, element, rfl, hform⟩

theorem readForm_tuple (hkind : FormElement.ofName? name = some .tuple) :
    readForm (Tree.toElement ⟨name, attributes, children⟩) = .ok form ↔
      ∃ elements, readForms (toElements children) = .ok elements ∧ form = .tuple elements := by
  simp only [Tree.toElement, readForm, readKeys_ok, except_bind_eq_ok, Except.ok.injEq, exists_eq_left', hkind,
    readLeafForm?, readEnding_closed, exists_const, true_and, pure, Except.pure, eq_comm (b := form)]

theorem readForm_union (hkind : FormElement.ofName? name = some .union) :
    readForm (Tree.toElement ⟨name, attributes, children⟩) = .ok form ↔
      ∃ variants, readForms (toElements children) = .ok variants ∧ form = .union variants := by
  simp only [Tree.toElement, readForm, readKeys_ok, except_bind_eq_ok, Except.ok.injEq, exists_eq_left', hkind,
    readLeafForm?, readEnding_closed, exists_const, true_and, pure, Except.pure, eq_comm (b := form)]

theorem readForm_model (hkind : FormElement.ofName? name = some .model) :
    readForm (Tree.toElement ⟨name, attributes, children⟩) = .ok form ↔
      ∃ properties, readProperties name (toElements children) = .ok properties ∧ form = .model properties := by
  simp only [Tree.toElement, readForm, readKeys_ok, except_bind_eq_ok, Except.ok.injEq, exists_eq_left', hkind,
    readLeafForm?, readEnding_closed, exists_const, true_and, pure, Except.pure, eq_comm (b := form)]

theorem readProperty_eq_ok {owner : String} {property : Property Form} :
    readProperty owner (Tree.toElement ⟨name, attributes, children⟩) = .ok property ↔
      name = "property" ∧ ∃ title type optional visibility,
        key? attributes "name" = some title ∧
        readOptionalForm attributes (Tree.toElement ⟨"property", attributes, children⟩) = .ok (some type) ∧
        WritesFlag (key? attributes "optional") optional ∧
        Option.Rel WritesVisibility (key? attributes "visibility") visibility ∧
        property = ⟨title, type, optional, visibility, key? attributes "doc"⟩ := by
  by_cases hname : name = "property"
  · subst hname
    have hvisibility := fun visibility => @option_mapM_eq_ok _ _ readVisibility WritesVisibility
      (fun _ _ => readVisibility_eq_ok) (key? attributes "visibility") visibility
    simp only [Tree.toElement, readProperty_eq_of_name, readKeys_ok, except_ok_bind, except_bind_eq_ok,
      requireKey_eq_ok, readFlag_eq_ok, requireForm_eq_ok, hvisibility]
    constructor
    · intro h
      obtain ⟨title, htitle, optional, hoptional, visibility, hvisible, _, htype, type, rfl, h⟩ := h
      exact ⟨trivial, title, type, optional, visibility, htitle, htype, hoptional, hvisible,
        (Except.ok.inj h).symm⟩
    · intro h
      obtain ⟨_, title, type, optional, visibility, htitle, htype, hoptional, hvisible, rfl⟩ := h
      exact ⟨title, htitle, optional, hoptional, visibility, hvisible, _, htype, type, rfl, rfl⟩
  · simp [Tree.toElement, readProperty, hname]

theorem readLeafForm?_eq_ok {kind : FormElement} {leaf : Except ReadError Form}
    (hkind : FormElement.ofName? name = some kind) (hleaf : readLeafForm? name attributes kind = some leaf)
    (hform : leaf = .ok form) : WritesForm ⟨name, attributes, []⟩ form := by
  have hname := mem_of_ofName? hkind
  subst hform
  cases kind with
  | reference =>
    obtain ⟨type, htype, rfl⟩ := except_map_ok (Option.some.inj hleaf)
    exact .reference (by simpa using hname) (requireKey_eq_ok.1 htype)
  | string =>
    obtain ⟨value, hvalue, rfl⟩ := except_map_ok (Option.some.inj hleaf)
    obtain rfl : name = "string" := by simpa using hname
    exact .string (requireKey_eq_ok.1 hvalue)
  | number =>
    obtain ⟨value, hvalue, h⟩ := except_bind_ok (Option.some.inj hleaf)
    obtain ⟨text, htext, h⟩ := except_bind_ok h
    cases h
    obtain rfl : name = "number" := by simpa using hname
    exact .number (requireKey_eq_ok.1 hvalue) (readNumber_eq_ok.1 htext)
  | boolean =>
    obtain ⟨value, hvalue, h⟩ := except_bind_ok (Option.some.inj hleaf)
    obtain rfl : name = "boolean" := by simpa using hname
    split at h
    · next htrue =>
      cases h
      exact .boolean (requireKey_eq_ok.1 hvalue) (congrArg some htrue)
    · split at h
      · next hfalse =>
        cases h
        exact .boolean (requireKey_eq_ok.1 hvalue) (.inr (congrArg some hfalse))
      · cases h
  | unsupported =>
    obtain ⟨kind, hunsupported, rfl⟩ := except_map_ok (Option.some.inj hleaf)
    obtain rfl : name = "opaque" := by simpa using hname
    exact .unsupported (requireKey_eq_ok.1 hunsupported)
  | indexed | tuple | union | model => cases hleaf

/-- A tree that is read as a form writes it. -/
theorem writesForm_of_readForm
    (hforms : ∀ child ∈ children, ∀ form, readForm child.toElement = .ok form ↔ WritesForm child form)
    (hproperties : ∀ child ∈ children, ∀ owner property,
      readProperty owner child.toElement = .ok property ↔ WritesProperty child property)
    (h : readForm (Tree.toElement ⟨name, attributes, children⟩) = .ok form) :
    WritesForm ⟨name, attributes, children⟩ form := by
  cases hkind : FormElement.ofName? name with
  | none =>
    simp only [Tree.toElement, readForm, readKeys_ok, except_ok_bind, hkind] at h
    cases h
  | some kind =>
    have hname := mem_of_ofName? hkind
    cases hleaf : readLeafForm? name attributes kind with
    | some leaf =>
      obtain ⟨hform, rfl⟩ := (readForm_leaf hkind hleaf).1 h
      exact readLeafForm?_eq_ok hkind hleaf hform
    | none =>
      cases kind with
      | indexed kind =>
        obtain ⟨element, helement, rfl⟩ := (readForm_indexed hkind).1 h
        have htype := (readOptionalForm_eq_ok hforms).1 helement
        cases kind with
        | array =>
          obtain rfl : name = "array" := by simpa using hname
          exact .array htype
        | record =>
          obtain rfl : name = "record" := by simpa using hname
          exact .record htype
      | tuple =>
        obtain ⟨elements, helements, rfl⟩ := (readForm_tuple hkind).1 h
        obtain rfl : name = "tuple" := by simpa using hname
        exact .tuple ((mapM_toElements_eq_ok hforms).1 (readForms_eq_mapM _ ▸ helements))
      | union =>
        obtain ⟨variants, hvariants, rfl⟩ := (readForm_union hkind).1 h
        obtain rfl : name = "union" := by simpa using hname
        exact .union ((mapM_toElements_eq_ok hforms).1 (readForms_eq_mapM _ ▸ hvariants))
      | model =>
        obtain ⟨properties, hread, rfl⟩ := (readForm_model hkind).1 h
        obtain rfl : name = "model" := by simpa using hname
        rw [readProperties_eq_mapM] at hread
        exact .model ((mapM_toElements_eq_ok fun child hchild => hproperties child hchild _).1 hread)
      | reference | string | number | boolean | unsupported => cases hleaf

/-- A tree that writes a form is read as it. -/
theorem readForm_of_writesForm
    (hforms : ∀ child ∈ children, ∀ form, readForm child.toElement = .ok form ↔ WritesForm child form)
    (hproperties : ∀ child ∈ children, ∀ owner property,
      readProperty owner child.toElement = .ok property ↔ WritesProperty child property)
    (h : WritesForm ⟨name, attributes, children⟩ form) :
    readForm (Tree.toElement ⟨name, attributes, children⟩) = .ok form := by
  cases h with
  | reference hname htype =>
    have hleaf : readLeafForm? name attributes .reference = some ((requireKey attributes name "type").map .named) :=
      rfl
    have hkind : FormElement.ofName? name = some .reference := by
      obtain rfl | rfl := hname <;> rfl
    rw [readForm_leaf hkind hleaf, except_map_eq_ok]
    exact ⟨⟨_, requireKey_eq_ok.2 htype, rfl⟩, rfl⟩
  | string hvalue =>
    rw [readForm_leaf rfl rfl, except_map_eq_ok]
    exact ⟨⟨_, requireKey_eq_ok.2 hvalue, rfl⟩, rfl⟩
  | number hvalue htext =>
    rw [readForm_leaf rfl rfl, except_bind_eq_ok]
    exact ⟨⟨_, requireKey_eq_ok.2 hvalue, except_bind_eq_ok.2 ⟨_, readNumber_eq_ok.2 htext, rfl⟩⟩, rfl⟩
  | @boolean value flag _ hvalue hflag =>
    rw [readForm_leaf rfl rfl, except_bind_eq_ok]
    have hkey : requireKey attributes "boolean" "value" = .ok value := requireKey_eq_ok.2 hvalue
    cases flag with
    | true =>
      obtain rfl : value = "true" := Option.some.inj hflag
      exact ⟨⟨_, hkey, rfl⟩, rfl⟩
    | false =>
      obtain hnone | hfalse := hflag
      · cases hnone
      · obtain rfl : value = "false" := Option.some.inj hfalse
        exact ⟨⟨_, hkey, rfl⟩, rfl⟩
  | unsupported hkind =>
    rw [readForm_leaf rfl rfl, except_map_eq_ok]
    exact ⟨⟨_, requireKey_eq_ok.2 hkind, rfl⟩, rfl⟩
  | array htype =>
    exact (readForm_indexed rfl).2 ⟨_, (readOptionalForm_eq_ok hforms).2 htype, rfl⟩
  | record htype =>
    exact (readForm_indexed rfl).2 ⟨_, (readOptionalForm_eq_ok hforms).2 htype, rfl⟩
  | tuple helements =>
    rw [readForm_tuple rfl, readForms_eq_mapM]
    exact ⟨_, (mapM_toElements_eq_ok hforms).2 helements, rfl⟩
  | union hvariants =>
    rw [readForm_union rfl, readForms_eq_mapM]
    exact ⟨_, (mapM_toElements_eq_ok hforms).2 hvariants, rfl⟩
  | model hread =>
    rw [readForm_model rfl, readProperties_eq_mapM]
    exact ⟨_, (mapM_toElements_eq_ok fun child hchild => hproperties child hchild _).2 hread, rfl⟩

end Forms

/-- Forms and properties, which hold one another, are read as the format has them. -/
theorem readForm_and_readProperty_eq_ok (tree : Tree) :
    (∀ form, readForm tree.toElement = .ok form ↔ WritesForm tree form) ∧
      ∀ owner property, readProperty owner tree.toElement = .ok property ↔ WritesProperty tree property := by
  induction tree using Tree.induct with
  | step name attributes children ih =>
    have hforms := fun child hchild => (ih child hchild).1
    have hproperties := fun child hchild => (ih child hchild).2
    constructor
    · intro form
      exact ⟨writesForm_of_readForm hforms hproperties, readForm_of_writesForm hforms hproperties⟩
    · intro owner property
      have htype := fun found => @readOptionalForm_eq_ok attributes ⟨"property", attributes, children⟩ found hforms
      simp only [readProperty_eq_ok, htype]
      constructor
      · intro h
        obtain ⟨rfl, title, type, optional, visibility, htitle, htype, hoptional, hvisible, rfl⟩ := h
        exact .intro htitle htype hoptional hvisible
      · intro h
        cases h with
        | intro htitle htype hoptional hvisible =>
          exact ⟨rfl, _, _, _, _, htitle, htype, hoptional, hvisible, rfl⟩

theorem readForm_eq_ok {tree : Tree} {form : Form} : readForm tree.toElement = .ok form ↔ WritesForm tree form :=
  (readForm_and_readProperty_eq_ok tree).1 form

theorem readProperties_eq_ok {owner : String} {children : List Tree} {properties : List (Property Form)} :
    readProperties owner (toElements children) = .ok properties ↔
      List.Forall₂ WritesProperty children properties := by
  rw [readProperties_eq_mapM]
  exact mapM_toElements_eq_ok fun child _ => (readForm_and_readProperty_eq_ok child).2 owner

theorem readForms_eq_ok {children : List Tree} {forms : List Form} :
    readForms (toElements children) = .ok forms ↔ List.Forall₂ WritesForm children forms := by
  rw [readForms_eq_mapM]
  exact mapM_toElements_eq_ok fun _ _ _ => readForm_eq_ok

theorem readType_eq_ok {name : String} {attributes : List Attribute} {children : List Tree} {found : Option Form} :
    readOptionalForm attributes (Tree.toElement ⟨name, attributes, children⟩) = .ok found ↔
      WritesType attributes children found :=
  @readOptionalForm_eq_ok attributes ⟨name, attributes, children⟩ found fun _ _ _ => readForm_eq_ok

end Draft
end SchemaGuards
