import SchemaGuards.Proofs.Linking.Naming

/-!
# Names in reordered contents

A name is looked up by the qualified names of the declarations, and not by their order. So it stands for the
same declaration, wherever that is, when the declarations are put in another order.
-/
namespace SchemaGuards.Draft

namespace Contents

/-- Contents with the same declarations in whatever order and the same operations. -/
structure Reorders (contents other : Contents) : Prop where
  declarations : contents.declarations.Perm other.declarations
  operations_eq : other.operations = contents.operations

def Shares (contents other : Contents) (place place' : Nat) : Prop :=
  ∃ declaration, contents.declarations[place]? = some declaration ∧
    other.declarations[place']? = some declaration

/-- What a name stands for in either contents: the same thing, with declarations at their positions. -/
inductive SharesTarget (contents other : Contents) : Target → Target → Prop
  | intrinsic (value : Intrinsic) : SharesTarget contents other (.intrinsic value) (.intrinsic value)
  | declaration (place place' : Nat) (h : contents.Shares other place place') :
    SharesTarget contents other (.declaration place) (.declaration place')
  | builtin (name : String) : SharesTarget contents other (.builtin name) (.builtin name)
  | member (place place' : Nat) (name : String) (h : contents.Shares other place place') :
    SharesTarget contents other (.member place name) (.member place' name)

variable {contents other : Contents} {scope : Scope} {name : String}

theorem Reorders.symm (h : contents.Reorders other) : other.Reorders contents :=
  ⟨h.declarations.symm, h.operations_eq.symm⟩

theorem Reorders.declares (h : contents.Reorders other) {qualified : String} {place : Nat}
    (hdeclares : contents.Declares qualified place) :
    ∃ place', other.Declares qualified place' ∧ contents.Shares other place place' := by
  rcases hdeclares with ⟨declaration, hplace, hnamed⟩
  have hmem := h.declarations.mem_iff.1 (List.mem_of_getElem? hplace)
  rcases List.mem_iff_getElem?.1 hmem with ⟨place', hplace'⟩
  exact ⟨place', ⟨declaration, hplace', hnamed⟩, declaration, hplace, hplace'⟩

theorem Reorders.innermost (h : contents.Reorders other) {place : Nat}
    (hinnermost : contents.Innermost scope name place) :
    ∃ place', other.Innermost scope name place' ∧ contents.Shares other place place' := by
  rcases hinnermost with ⟨depth, hdepth, hdeclares, hinner⟩
  rcases h.declares hdeclares with ⟨place', hdeclares', hshares⟩
  refine ⟨place', ⟨depth, hdepth, hdeclares', ?_⟩, hshares⟩
  intro deeper hlt hle found hfound
  rcases h.symm.declares hfound with ⟨found', hfound', _⟩
  exact hinner deeper hlt hle found' hfound'

theorem Reorders.not_innermost (h : contents.Reorders other) (hnot : ∀ place, ¬ contents.Innermost scope name place)
    (place' : Nat) : ¬ other.Innermost scope name place' := by
  intro hinnermost
  rcases h.symm.innermost hinnermost with ⟨place, hplace, _⟩
  exact hnot place hplace

/-- A name stands for the same thing in reordered contents. -/
theorem Reorders.names (h : contents.Reorders other) {target : Target} (hnames : contents.Names scope name target) :
    ∃ target', other.Names scope name target' ∧ contents.SharesTarget other target target' := by
  cases hnames with
  | intrinsic value hvalue => exact ⟨_, .intrinsic value hvalue, .intrinsic value⟩
  | declaration place hintrinsic hplace =>
    rcases h.innermost hplace with ⟨place', hplace', hshares⟩
    exact ⟨_, .declaration place' hintrinsic hplace', .declaration place place' hshares⟩
  | builtin scalar hintrinsic hdeclaration hscalar hbuiltin =>
    exact ⟨_, .builtin scalar hintrinsic (h.not_innermost hdeclaration) hscalar hbuiltin, .builtin scalar⟩
  | member owner member place hintrinsic hdeclaration hbuiltin hname hdot howner hmember =>
    rcases h.innermost howner with ⟨place', hplace', hshares⟩
    have hmember' : other.HasMember place' member := by
      rcases hmember with ⟨declaration, members, hfound, hbody⟩
      rcases hshares with ⟨shared, hshared, hshared'⟩
      cases hfound.symm.trans hshared
      exact ⟨declaration, members, hshared', hbody⟩
    exact ⟨_, .member owner member place' hintrinsic (h.not_innermost hdeclaration) hbuiltin hname hdot hplace' hmember',
      .member place place' member hshares⟩

/-- What a name stands for in one order and what it stands for in another one are the same thing. -/
theorem Reorders.sharesTarget (h : contents.Reorders other) (hdistinct : other.IsDistinct) {target target' : Target}
    (hnames : contents.Names scope name target) (hnames' : other.Names scope name target') :
    contents.SharesTarget other target target' := by
  rcases h.names hnames with ⟨found, hfound, hshares⟩
  cases hfound.unique hdistinct hnames'
  exact hshares

end Contents
end SchemaGuards.Draft
