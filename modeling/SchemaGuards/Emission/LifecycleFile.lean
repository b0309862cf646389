import SchemaGuards.Lifecycle
import SchemaGuards.Written.Reference

/-!
# What files begin with, and the lifecycle helpers

Every file begins with the same two comment lines. Imports follow: first the lifecycle helpers, if
they are needed, then the namespaces.

Declarations from which a restriction can be reached are generic over a lifecycle. The helper file
holds the enumeration of the lifecycles and the type that filters a shape by them.
-/
namespace SchemaGuards.Emission

def header : String :=
  "/* eslint-disable */\n// This file was generated by ironts. Do not edit it by hand.\n"

def lifecycleFileName : String := "lifecycle.ts"

def lifecycleModuleName (extensions : Bool) : String := "./lifecycle" ++ if extensions then ".js" else ""

/-- The parameters of a declaration from which a restriction can be reached. -/
def genericParameters : String := "<V extends Lifecycle = Lifecycle.All>"

def lifecycleImport (extensions : Bool) : String :=
  "import \x7bLifecycle, FilterLifecycle\x7d from '" ++ lifecycleModuleName extensions ++ "';\n"

def scopeImport (extensions : Bool) (scope : Scope) : String :=
  "import * as " ++ Scope.alias scope ++ " from '" ++ Scope.moduleName extensions scope ++ "';\n"

def scopeImports (extensions : Bool) (scopes : List Scope) : String :=
  String.join (scopes.map (scopeImport extensions))

def lifecycleMember (state : Lifecycle) : String := "  " ++ state.name ++ " = '" ++ state.name ++ "',\n"

def filterLines : List String :=
  [ "type VisibilityEntry = \x7bvis?: readonly Lifecycle[]; nested?: unknown\x7d;",
    "",
    "type IsVisible<E, V> = E extends \x7bvis: infer S extends readonly Lifecycle[]\x7d",
    "  ? [V & S[number]] extends [never]",
    "    ? false",
    "    : true",
    "  : true;",
    "",
    "type Nested<T, E, V extends Lifecycle> = E extends \x7bnested: infer N\x7d",
    "  ? FilterLifecycle<T, N, V>",
    "  : T;",
    "",
    "/**",
    " * Removes the properties of `T` that are not visible in lifecycle `V`.",
    " * A property is visible if its allowed states include any state of `V`.",
    " * `M` describes the restrictions per property; the key `'*'` applies to",
    " * every value of a record.",
    " */",
    "export type FilterLifecycle<T, M, V extends Lifecycle> = Lifecycle.All extends V",
    "  ? T",
    "  : T extends readonly (infer E)[]",
    "    ? FilterLifecycle<E, M, V>[]",
    "    : M extends \x7b'*': infer W extends VisibilityEntry\x7d",
    "      ? \x7b[K in keyof T]: Nested<T[K], W, V>\x7d",
    "      : \x7b",
    "          [K in keyof T as K extends keyof M",
    "            ? IsVisible<M[K], V> extends true",
    "              ? K",
    "              : never",
    "            : K]: K extends keyof M ? Nested<T[K], M[K], V> : T[K];",
    "        \x7d;"
  ]

def lifecycleModule : String :=
  header ++ "\nexport enum Lifecycle \x7b\n  All = 'All',\n" ++
    String.join (Lifecycle.all.map lifecycleMember) ++ "\x7d\n\n" ++
    String.join (filterLines.map (fun line => line ++ "\n"))

end SchemaGuards.Emission
