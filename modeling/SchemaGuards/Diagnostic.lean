/-!
# Diagnostics

A generation run reports what it could not do well and what stopped it, in order. Every code starts
with one fixed lead.
-/
namespace SchemaGuards

inductive Severity where
  /-- The run goes on with a fallback. -/
  | warning
  /-- The run stops. -/
  | error
deriving DecidableEq, Repr

def Severity.name : Severity → String
  | .warning => "warning"
  | .error => "error"

structure Diagnostic where
  code : String
  severity : Severity
  message : String
deriving DecidableEq, Repr

namespace Diagnostic

def codeLead : String := "ironts-"

def report (severity : Severity) (code message : String) : Diagnostic := ⟨codeLead ++ code, severity, message⟩

def text (diagnostic : Diagnostic) : String :=
  diagnostic.severity.name ++ " [" ++ diagnostic.code ++ "]: " ++ diagnostic.message

def isError (diagnostic : Diagnostic) : Bool := diagnostic.severity = .error

end Diagnostic

abbrev Diagnostics := List Diagnostic

def Diagnostics.hasErrors (diagnostics : Diagnostics) : Bool := diagnostics.any Diagnostic.isError

end SchemaGuards
