import SchemaGuards.GenerationError
import SchemaGuards.Lifecycle

/-!
# Generator configuration

The options say what is emitted and how scalars are written. The lifecycle mapping gives the phases
of responses and, for every verb, those of requests.
-/
namespace SchemaGuards

/-- The phases that apply to request and response bodies. -/
structure LifecycleMapping where
  response : LifecycleSet := LifecycleSet.ofList [.read]
  request : Verb → Option LifecycleSet := fun
    | .post => some (LifecycleSet.ofList [.create])
    | .put => some (LifecycleSet.ofList [.create, .update])
    | .patch => some (LifecycleSet.ofList [.update])
    | .delete => some (LifecycleSet.ofList [.delete])
    | .get | .head => some (LifecycleSet.ofList [.query])

def LifecycleMapping.setRequest (mapping : LifecycleMapping) (verb : Verb) (states : Option LifecycleSet) :
    LifecycleMapping :=
  { mapping with request := fun other => if other = verb then states else mapping.request other }

structure Config where
  /-- Write dates and bytes as they are transported. -/
  serializableDates : Bool := false
  /-- Give every member its own name as its value, unless it has a text. -/
  nominalEnums : Bool := false
  emitDocs : Bool := true
  emitTypes : Bool := true
  emitGuards : Bool := false
  /-- Emit a map from routes to bodies for every root namespace. -/
  emitRoutes : Bool := false
  /-- Name imported files with their extension. -/
  importExtensions : Bool := false
  /-- Scalar names with the type texts written for them. -/
  typeMappings : List (String × String) := []
  /-- Scalar names with predicate templates, whose empty braces stand for the value. -/
  guardMappings : List (String × String) := []
  lifecycle : LifecycleMapping := {}

namespace Config

def bind (mappings : List (String × String)) (name text : String) : List (String × String) :=
  (name, text) :: mappings.filter (fun mapping => mapping.1 ≠ name)

/-- Guards and routes refer to types, so they need them. -/
def validate (config : Config) : Except GenerationError Unit :=
  if config.emitGuards && !config.emitTypes then
    .error (.invalidConfig "enable_typeguards requires enable_types")
  else if config.emitRoutes && !config.emitTypes then
    .error (.invalidConfig "enable_routed_typemap requires enable_types")
  else .ok ()

theorem validate_eq_ok_iff {config : Config} :
    config.validate = .ok () ↔
      (config.emitGuards = true ∨ config.emitRoutes = true → config.emitTypes = true) := by
  unfold validate
  cases config.emitGuards <;> cases config.emitRoutes <;> cases config.emitTypes <;> simp

end Config
end SchemaGuards
