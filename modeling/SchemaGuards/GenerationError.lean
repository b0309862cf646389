import SchemaGuards.Schema.Error
import SchemaGuards.Schema.Node

/-!
# What stops a generation run

A run fails on its input, on its configuration, on the file system, or on a graph that breaks the
contract between whoever builds graphs and the expansion of nodes.
-/
namespace SchemaGuards

inductive GenerationError where
  | reading (cause : ReadError)
  | schema (cause : SchemaError)
  | storage (reason : String)
  /-- A node of a kind without a written form. -/
  | unsupportedKind (kind : String)
  | kindMismatch (expected found node : String)
  | malformedIndexed (name reason : String)
  | unknownMember (enumeration member : String)
  /-- A node that contains itself and has no name to be referred to. -/
  | unresolvableCycle (name : String)
  | danglingNode (node : String)
  | invalidConfig (message : String)
deriving DecidableEq, Repr

namespace GenerationError

def message : GenerationError → String
  | .reading cause => "schema parse error: " ++ cause.message
  | .schema cause => "schema error: " ++ cause.message
  | .storage reason => "IO error: " ++ reason
  | .unsupportedKind kind => "could not resolve node of kind '" ++ kind ++ "'"
  | .kindMismatch expected found node =>
    "resolver for " ++ expected ++ " was given a " ++ found ++ " node (" ++ node ++ ")"
  | .malformedIndexed name reason => "malformed indexed model '" ++ name ++ "': " ++ reason
  | .unknownMember enumeration member => "enum '" ++ enumeration ++ "' has no member '" ++ member ++ "'"
  | .unresolvableCycle name =>
    "cycle through unregistered node '" ++ name ++ "' cannot be referenced by name"
  | .danglingNode node => "node " ++ node ++ " does not exist in the schema"
  | .invalidConfig message => "invalid configuration: " ++ message

/-- Whether an error shows a graph that breaks the contract, rather than bad input. -/
def isContractViolation : GenerationError → Bool
  | .reading _ | .schema _ | .storage _ | .invalidConfig _ => false
  | _ => true

end GenerationError
end SchemaGuards
