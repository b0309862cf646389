import SchemaGuards.Draft.Linking

/-!
# What type names stand for

A type name is looked up in four steps: among the intrinsics, the declarations around it, the built-in
scalars and the members of enumerations. What it stands for is a matter of the draft alone.
-/
namespace SchemaGuards.Draft

/-- A declaration can be referred to when neither its name nor its namespace is empty. -/
def Declaration.IsNamed (declaration : Declaration) : Prop :=
  declaration.name ≠ "" ∧ declaration.scope ≠ []

def IsBuiltin (name : String) : Prop := (builtinBases? name).isSome

/-- What a type name stands for. A declaration is given by its position in the draft. -/
inductive Target where
  | intrinsic (value : Intrinsic)
  | declaration (place : Nat)
  | builtin (name : String)
  | member (place : Nat) (name : String)
deriving DecidableEq, Repr

namespace Contents

/-- The declaration at a position can be referred to by a qualified name. -/
def Declares (contents : Contents) (qualified : String) (place : Nat) : Prop :=
  ∃ declaration, contents.declarations[place]? = some declaration ∧ declaration.IsNamed ∧
    declaration.qualified = qualified

/-- The declaration of a name in the innermost of the namespaces around it that has one. -/
def Innermost (contents : Contents) (scope : Scope) (name : String) (place : Nat) : Prop :=
  ∃ depth ≤ scope.length, contents.Declares (Text.dotted (scope.take depth ++ [name])) place ∧
    ∀ deeper, depth < deeper → deeper ≤ scope.length →
      ∀ other, ¬ contents.Declares (Text.dotted (scope.take deeper ++ [name])) other

def HasMember (contents : Contents) (place : Nat) (member : String) : Prop :=
  ∃ declaration members, contents.declarations[place]? = some declaration ∧
    declaration.body = .enumeration members ∧ member ∈ members.map Member.name

/-- What a name inside a namespace stands for. Each step only counts when those before it find nothing. -/
inductive Names (contents : Contents) (scope : Scope) (name : String) : Target → Prop
  | intrinsic (value : Intrinsic) (h : name = value.name) : Names contents scope name (.intrinsic value)
  | declaration (place : Nat) (hintrinsic : ∀ value : Intrinsic, name ≠ value.name)
    (h : contents.Innermost scope name place) : Names contents scope name (.declaration place)
  /-- The namespace of the built-in scalars may be left out. -/
  | builtin (scalar : String) (hintrinsic : ∀ value : Intrinsic, name ≠ value.name)
    (hdeclaration : ∀ place, ¬ contents.Innermost scope name place)
    (h : name = scalar ∨ name = Text.dotted (builtinScope ++ [scalar])) (hscalar : IsBuiltin scalar) :
    Names contents scope name (.builtin scalar)
  | member (owner member : String) (place : Nat) (hintrinsic : ∀ value : Intrinsic, name ≠ value.name)
    (hdeclaration : ∀ place, ¬ contents.Innermost scope name place)
    (hbuiltin : ∀ scalar, IsBuiltin scalar → name ≠ scalar ∧ name ≠ Text.dotted (builtinScope ++ [scalar]))
    (h : name = owner ++ "." ++ member) (hdot : '.' ∉ member.toList)
    (howner : contents.Innermost scope owner place) (hmember : contents.HasMember place member) :
    Names contents scope name (.member place member)

/-- No two declarations can be referred to by the same qualified name. -/
def IsDistinct (contents : Contents) : Prop :=
  ∀ qualified place other, contents.Declares qualified place → contents.Declares qualified other → place = other

end Contents

theorem Intrinsic.ofName?_eq_some_iff {name : String} {value : Intrinsic} :
    Intrinsic.ofName? name = some value ↔ name = value.name := by
  constructor
  · intro h
    have := List.find?_some h
    simpa using Eq.symm (of_decide_eq_true this)
  · rintro rfl
    cases value <;> rfl

theorem Intrinsic.name_injective {first second : Intrinsic} (h : first.name = second.name) : first = second := by
  have hfirst := Intrinsic.ofName?_eq_some_iff.2 (rfl : first.name = first.name)
  rw [h, Intrinsic.ofName?_eq_some_iff.2 rfl] at hfirst
  exact (Option.some.inj hfirst).symm

section Builtins

theorem toList_qualified (scalar : String) :
    (Text.dotted (builtinScope ++ [scalar])).toList = (Text.dotted builtinScope ++ ".").toList ++ scalar.toList := by
  have hdotted : Text.dotted (builtinScope ++ [scalar]) = Text.dotted builtinScope ++ "." ++ scalar := rfl
  rw [hdotted, String.toList_append]

theorem withoutBuiltinScope_qualified (scalar : String) :
    withoutBuiltinScope (Text.dotted (builtinScope ++ [scalar])) = scalar := by
  simp [withoutBuiltinScope, toList_qualified]

theorem qualified_withoutBuiltinScope (name : String) :
    name = withoutBuiltinScope name ∨ name = Text.dotted (builtinScope ++ [withoutBuiltinScope name]) := by
  by_cases hlead : (Text.dotted builtinScope ++ ".").toList.isPrefixOf name.toList = true
  · right
    rcases List.isPrefixOf_iff_prefix.1 hlead with ⟨rest, hrest⟩
    rw [← String.toList_inj, toList_qualified]
    simp [withoutBuiltinScope, ← hrest]
  · left
    simp only [withoutBuiltinScope, if_neg hlead]

/-- No built-in scalar has a name that starts with the namespace of the built-in scalars. -/
theorem withoutBuiltinScope_of_isBuiltin {name : String} (h : IsBuiltin name) : withoutBuiltinScope name = name := by
  rcases Option.isSome_iff_exists.1 h with ⟨bases, hbases⟩
  rw [builtinBases?, List.lookup_eq_some_iff] at hbases
  rcases hbases with ⟨before, after, htable, _⟩
  have hall : ∀ entry ∈ before ++ (name, bases) :: after, withoutBuiltinScope entry.1 = entry.1 := by
    rw [← htable]
    decide
  exact hall (name, bases) (by simp)

theorem not_isBuiltin_withoutBuiltinScope {name : String} (h : builtinBases? (withoutBuiltinScope name) = none)
    {scalar : String} (hscalar : IsBuiltin scalar) :
    name ≠ scalar ∧ name ≠ Text.dotted (builtinScope ++ [scalar]) := by
  constructor
  · rintro rfl
    rw [withoutBuiltinScope_of_isBuiltin hscalar] at h
    simp [IsBuiltin, h] at hscalar
  · rintro rfl
    rw [withoutBuiltinScope_qualified] at h
    simp [IsBuiltin, h] at hscalar

end Builtins

section Splitting

theorem not_mem_of_mem_splitOn {separator : Char} {chars piece : List Char} (h : piece ∈ chars.splitOn separator) :
    separator ∉ piece := by
  induction chars generalizing piece with
  | nil =>
    rw [List.splitOn_nil, List.mem_singleton] at h
    simp [h]
  | cons c rest ih =>
    rw [List.splitOn_cons_eq_if_modifyHead] at h
    cases hrest : rest.splitOn separator with
    | nil => exact absurd hrest (List.splitOn_ne_nil separator rest)
    | cons first others =>
      simp only [hrest] at h ih
      by_cases hc : c = separator
      · rw [if_pos (by simpa using hc), List.mem_cons] at h
        rcases h with rfl | h
        · simp
        · exact ih h
      · rw [if_neg (by simpa using hc), List.modifyHead_cons, List.mem_cons] at h
        rcases h with rfl | h
        · simp [Ne.symm hc, ih]
        · exact ih (List.mem_cons_of_mem _ h)

theorem intercalate_concat {separator : List Char} {pieces : List (List Char)} (last : List Char)
    (h : pieces ≠ []) :
    separator.intercalate (pieces ++ [last]) = separator.intercalate pieces ++ separator ++ last := by
  induction pieces with
  | nil => exact absurd rfl h
  | cons piece rest ih =>
    cases rest with
    | nil => simp [List.intercalate]
    | cons next others =>
      rw [List.cons_append, List.cons_append, List.intercalate_cons_cons, List.intercalate_cons_cons,
        ← List.cons_append, ih (by simp)]
      simp

theorem splitLastDot?_spec {name owner member : String} (h : splitLastDot? name = some (owner, member)) :
    name = owner ++ "." ++ member ∧ '.' ∉ member.toList := by
  have hjoin : ['.'].intercalate (name.toList.splitOn '.') = name.toList := List.intercalate_splitOn '.'
  rcases List.eq_nil_or_concat (name.toList.splitOn '.') with hnil | ⟨pieces, last, hpieces⟩
  · exact absurd hnil (List.splitOn_ne_nil '.' name.toList)
  · rw [List.concat_eq_append] at hpieces
    have hlast : '.' ∉ last := by
      refine not_mem_of_mem_splitOn (?_ : last ∈ name.toList.splitOn '.')
      simp [hpieces]
    have hsplit : Text.splitText '.' name = pieces.map String.ofList ++ [String.ofList last] := by
      simp [Text.splitText, hpieces]
    simp only [splitLastDot?, hsplit, List.getLast?_concat, List.dropLast_concat] at h
    split at h
    · cases h
    · next hlength =>
      cases h
      have hne : pieces ≠ [] := by
        rintro rfl
        simp at hlength
      rw [hpieces, intercalate_concat last hne] at hjoin
      refine ⟨?_, by simpa using hlast⟩
      rw [← String.toList_inj, ← hjoin]
      simp [Text.dotted, String.toList_intercalate, Function.comp_def]

theorem last_unique {before after before' after' : List Char} {separator : Char} (hafter : separator ∉ after)
    (hafter' : separator ∉ after') (h : before ++ separator :: after = before' ++ separator :: after') :
    before = before' ∧ after = after' := by
  rcases List.append_eq_append_iff.1 h with ⟨middle, hmiddle, hrest⟩ | ⟨middle, hmiddle, hrest⟩ <;>
    cases middle with
    | nil => simp_all
    | cons c rest =>
      rw [List.cons_append, List.cons.injEq] at hrest
      simp_all

theorem split_unique {owner member owner' member' : String} (hdot : '.' ∉ member.toList)
    (hdot' : '.' ∉ member'.toList) (h : owner ++ "." ++ member = owner' ++ "." ++ member') :
    owner = owner' ∧ member = member' := by
  rw [← String.toList_inj] at h
  have hchars : owner.toList ++ '.' :: member.toList = owner'.toList ++ '.' :: member'.toList := by
    simpa using h
  rcases last_unique hdot hdot' hchars with ⟨howner, hmember⟩
  exact ⟨String.toList_inj.1 howner, String.toList_inj.1 hmember⟩

end Splitting

namespace Contents
variable {contents : Contents} {scope : Scope} {name : String}

theorem Innermost.unique (hdistinct : contents.IsDistinct) {place other : Nat}
    (h : contents.Innermost scope name place) (h' : contents.Innermost scope name other) : place = other := by
  rcases h with ⟨depth, hdepth, hdeclares, hinner⟩
  rcases h' with ⟨depth', hdepth', hdeclares', hinner'⟩
  rcases Nat.lt_trichotomy depth depth' with hlt | rfl | hlt
  · exact absurd hdeclares' (hinner depth' hlt hdepth' other)
  · exact hdistinct _ place other hdeclares hdeclares'
  · exact absurd hdeclares (hinner' depth hlt hdepth place)

/-- A name stands for one thing. -/
theorem Names.unique (hdistinct : contents.IsDistinct) {target other : Target}
    (h : contents.Names scope name target) (h' : contents.Names scope name other) : target = other := by
  cases h with
  | intrinsic value hvalue =>
    cases h' with
    | intrinsic value' hvalue' => rw [Intrinsic.name_injective (hvalue.symm.trans hvalue')]
    | declaration _ hnot => exact absurd hvalue (hnot value)
    | builtin _ hnot => exact absurd hvalue (hnot value)
    | member _ _ _ hnot => exact absurd hvalue (hnot value)
  | declaration place hintrinsic hplace =>
    cases h' with
    | intrinsic value' hvalue' => exact absurd hvalue' (hintrinsic value')
    | declaration place' _ hplace' => rw [hplace.unique hdistinct hplace']
    | builtin _ _ hnot => exact absurd hplace (hnot place)
    | member _ _ _ _ hnot => exact absurd hplace (hnot place)
  | builtin scalar hintrinsic hdeclaration hscalar hbuiltin =>
    cases h' with
    | intrinsic value' hvalue' => exact absurd hvalue' (hintrinsic value')
    | declaration place' _ hplace' => exact absurd hplace' (hdeclaration place')
    | builtin scalar' _ _ hscalar' hbuiltin' =>
      have hname : ∀ {found}, (name = found ∨ name = Text.dotted (builtinScope ++ [found])) → IsBuiltin found →
          withoutBuiltinScope name = found := by
        rintro found (rfl | rfl) hfound
        · exact withoutBuiltinScope_of_isBuiltin hfound
        · exact withoutBuiltinScope_qualified found
      rw [← hname hscalar hbuiltin, ← hname hscalar' hbuiltin']
    | member _ _ _ _ _ hnot => exact (hscalar.elim (hnot scalar hbuiltin).1 (hnot scalar hbuiltin).2).elim
  | member owner member place hintrinsic hdeclaration hbuiltin hname hdot howner =>
    cases h' with
    | intrinsic value' hvalue' => exact absurd hvalue' (hintrinsic value')
    | declaration place' _ hplace' => exact absurd hplace' (hdeclaration place')
    | builtin scalar' _ _ hscalar' hbuiltin' =>
      exact (hscalar'.elim (hbuiltin scalar' hbuiltin').1 (hbuiltin scalar' hbuiltin').2).elim
    | member owner' member' place' _ _ _ hname' hdot' howner' =>
      rcases split_unique hdot hdot' (hname.symm.trans hname') with ⟨rfl, rfl⟩
      rw [howner.unique hdistinct howner']

end Contents
end SchemaGuards.Draft
