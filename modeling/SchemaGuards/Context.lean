import SchemaGuards.Schema.Node

/-!
# Contexts

A context says where a node is written: in the file of which namespace, over which value, with which
lifecycle argument and inside which other nodes. Inside another node, or in code that belongs to no
file, a registered node is referred to instead of expanded.
-/
namespace SchemaGuards

structure Context where
  depth : Nat := 0
  /-- The expression that reaches the value under test. -/
  accessor : String := "t"
  /-- The nodes being expanded, the innermost first. -/
  ancestry : List NodeId := []
  /-- Whether a registered node is referred to. -/
  locked : Bool := false
  /-- The namespace of the file. -/
  target : Option Scope := none
  lifecycle : String := "V"
deriving DecidableEq, Repr

namespace Context

/-- The context of a declaration in the file of a namespace. -/
def ofScope (scope : Scope) : Context := { target := some scope }

/-- The context of code that belongs to no file. -/
def detached : Context := { locked := true }

def withAccessor (context : Context) (accessor : String) : Context := { context with accessor }

def withLifecycle (context : Context) (lifecycle : String) : Context := { context with lifecycle }

/-- The context of what a node holds, on the same level. -/
def enterFlat (context : Context) (id : NodeId) : Context :=
  { context with ancestry := id :: context.ancestry, locked := true }

def enter (context : Context) (id : NodeId) : Context :=
  { context.enterFlat id with depth := context.depth + 1 }

def parent? (context : Context) : Option NodeId := context.ancestry.head?

def contains (context : Context) (id : NodeId) : Bool := id ∈ context.ancestry

end Context
end SchemaGuards
