import SchemaGuards.Decimal.Shortest
import SchemaGuards.Schema.Node
import SchemaGuards.Text.Quoted

/-!
# Values of enumeration members

A member has the value that it is given; with nominal values, its own name unless it is given a text.
A member without a value counts on from the members before it: each adds one, and a number starts the
count anew.
-/
namespace SchemaGuards

def Member.initializer? (nominal : Bool) (member : Member) : Option String :=
  match member.value with
  | some (.string value) => some (Text.quote value)
  | some (.number text) => some (if nominal then Text.quote member.name else text)
  | none => if nominal then some (Text.quote member.name) else none

/-- The count behind a member; a text that is no number leaves it as it is. -/
def Member.countAfter (count : Decimal.Binary64) (member : Member) : Decimal.Binary64 :=
  match member.value with
  | some (.number text) =>
    match Decimal.Binary64.ofText? text with
    | some number => number.addOne
    | none => count
  | _ => count.addOne

namespace Enumeration

/-- The count that a member without a value takes, from the members before it. -/
def countBefore (members : List Member) : Decimal.Binary64 :=
  members.foldl Member.countAfter (.finite false 0 Decimal.Binary64.minExponent)

/-- The literal of the member at a position, in place of a reference to it. -/
def literal (nominal : Bool) (content : Enumeration) (index : Nat) : String :=
  match content.members[index]?.bind (Member.initializer? nominal) with
  | some text => text
  | none => (countBefore (content.members.take index)).text

def position? (content : Enumeration) (name : String) : Option Nat :=
  content.members.findIdx? (fun member => member.name = name)

end Enumeration
end SchemaGuards
