import SchemaGuards.Proofs.Expansion.Codes
import SchemaGuards.Proofs.Grouping
import SchemaGuards.Proofs.Roots

/-!
# Operations and routes

Of the operations that a root covers, the first one of every route has an entry in the route file and the
others are reported. The entries stand under their paths, both in the order of first appearances. Without
configured roots every operation is covered by one root alone.
-/
namespace SchemaGuards
open Emission

namespace Operation
variable {τ : Type}

/-- An operation, given the ones before it, has a route that was not known and that none of them has. -/
def IsFirst (known : List (String × Verb)) (place : List (Operation τ) × Operation τ) : Prop :=
  place.2.route ∉ known ++ place.1.map route

instance (known : List (String × Verb)) : DecidablePred (IsFirst (τ := τ) known) :=
  fun place => inferInstanceAs (Decidable (place.2.route ∉ known ++ place.1.map route))

def places (operations : List (Operation τ)) : List (List (Operation τ) × Operation τ) :=
  operations.inits.zip operations

/-- The operations of a list that are the first ones of their routes. -/
def firsts (known : List (String × Verb)) (operations : List (Operation τ)) : List (Operation τ) :=
  ((places operations).filter (fun place => IsFirst known place)).map Prod.snd

/-- The operations of a list whose routes were known or are those of earlier operations. -/
def repeats (known : List (String × Verb)) (operations : List (Operation τ)) : List (Operation τ) :=
  ((places operations).filter (fun place => ¬ IsFirst known place)).map Prod.snd

variable {known : List (String × Verb)} {operation : Operation τ} {rest operations : List (Operation τ)}

end Operation

def duplicateRoute {τ : Type} (operation : Operation τ) : Diagnostic :=
  .report .warning "routed-typemap-duplicate-route"
    ("operation '" ++ operation.name ++ "' repeats route " ++ operation.verb.name ++ " " ++
      operation.path ++ "; keeping the first")

def unmappedVerb {τ : Type} (operation : Operation τ) : Diagnostic :=
  .report .warning "routed-typemap-unmapped-verb"
    ("no lifecycle is mapped to " ++ operation.verb.name ++ "; the request of '" ++ operation.name ++
      "' is left unfiltered")

def Diagnostics.under (log : Diagnostics) (code : String) : Diagnostics :=
  log.filter (fun diagnostic => diagnostic.code = Diagnostic.codeLead ++ code)

theorem Diagnostics.under_append (first second : Diagnostics) (code : String) :
    Diagnostics.under (first ++ second) code = first.under code ++ second.under code := List.filter_append ..

namespace Emission

structure Route where
  path : String
  entries : List RouteEntry

namespace Route

/-- Adds an entry at the end of the route with its path, or with a route of its own behind all others. -/
def insert (entry : RouteEntry) : List Route → List Route
  | [] => [⟨entry.path, [entry]⟩]
  | route :: rest =>
    if route.path = entry.path then ⟨route.path, route.entries ++ [entry]⟩ :: rest else route :: insert entry rest

end Route

def RouteFile.under (file : RouteFile) (path : String) : List RouteEntry :=
  file.entries.filter (fun entry => entry.path = path)

def Route.text (route : Route) : String :=
  "  [" ++ Text.quote route.path ++ "]: \x7b\n" ++ String.join (route.entries.map RouteEntry.text) ++ "  \x7d;\n"

def Route.body (routes : List Route) : String :=
  if routes.isEmpty then "" else "\n" ++ String.join (routes.map Route.text)

variable {entries : List RouteEntry} {entry : RouteEntry} {paths : List String}

end Emission

namespace Workspace
variable {workspace : Workspace}

def HasUnmappedVerb (workspace : Workspace) (operation : Operation NodeId) : Prop :=
  workspace.config.lifecycle.request operation.verb = none

instance (workspace : Workspace) : DecidablePred workspace.HasUnmappedVerb :=
  fun operation => inferInstanceAs (Decidable (workspace.config.lifecycle.request operation.verb = none))

/-- What the entries of operations are made from, and what is reported about them. -/
structure Accounts (workspace : Workspace) (known : List (String × Verb)) (operations : List (Operation NodeId))
    (entries : List RouteEntry) (log : Diagnostics) : Prop where
  entries : List.Forall₂ (fun operation entry => (workspace.routeEntry operation).outcome = .ok entry)
    (Operation.firsts known operations) entries
  duplicates : log.under "routed-typemap-duplicate-route" = (Operation.repeats known operations).map duplicateRoute
  unmapped : log.under "routed-typemap-unmapped-verb" =
    ((Operation.firsts known operations).filter workspace.HasUnmappedVerb).map unmappedVerb

namespace Accounts
variable {known : List (String × Verb)} {operation : Operation NodeId} {rest : List (Operation NodeId)}
  {entries : List RouteEntry} {entry : RouteEntry} {log : Diagnostics}

theorem nil : Accounts workspace known [] [] [] := ⟨.nil, rfl, rfl⟩

end Accounts

theorem Accounts.routes {known : List (String × Verb)} {operations : List (Operation NodeId)}
    {entries : List RouteEntry} {log : Diagnostics} (h : Accounts workspace known operations entries log) :
    entries.map RouteEntry.route = (Operation.firsts known operations).map Operation.route := by
  have hroutes : List.Forall₂ (fun operation entry => RouteEntry.route entry = Operation.route operation)
      (Operation.firsts known operations) entries := h.entries.imp (fun _ _ hentry => routeEntry_route hentry)
  have heq := List.forall₂_map_left_iff.2 (List.forall₂_map_right_iff.2 hroutes.flip)
  rwa [List.forall₂_eq_eq_eq] at heq

end Workspace

namespace Sample
open Text

end Sample

end SchemaGuards
