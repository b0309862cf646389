/-!
# Sample documents

Schema documents of any size: a wide one with many namespaces that refer to one another, and a deep
one whose innermost model refers back to the outermost.
-/
namespace SchemaGuards.Sample

/-- A wide document's model: a restricted id, a state, the next model around, and the first model of
the namespace before. -/
def wideModel (models : Nat) (scope : Nat) (model : Nat) : String :=
  "<model name=\"M" ++ toString model ++ "\" doc=\"Model " ++ toString model ++ " of namespace " ++
    toString scope ++ "\">\n<property name=\"id\" type=\"string\" visibility=\"read\"/>\n" ++
    "<property name=\"state\" type=\"State\"/>\n<property name=\"next\" type=\"M" ++
    toString ((model + 1) % models) ++ "\" optional=\"true\"/>\n" ++
    (if 0 < scope then
      "<property name=\"prev\"><array type=\"Bench.N" ++ toString (scope - 1) ++ ".M0\"/></property>\n"
    else "") ++ "</model>\n"

/-- A wide document's namespace: a small enumeration, its models and one operation. -/
def wideNamespace (models : Nat) (scope : Nat) : String :=
  "<namespace name=\"N" ++ toString scope ++ "\">\n" ++
    "<enum name=\"State\"><member name=\"On\"/><member name=\"Off\" value=\"off\"/></enum>\n" ++
    String.join ((List.range models).map (wideModel models scope)) ++
    "<operation name=\"get" ++ toString scope ++ "\" verb=\"get\" path=\"/n" ++ toString scope ++
    "\"><response status=\"200\" type=\"M0\"/></operation>\n</namespace>\n"

/-- A document of namespaces with a number of models each. -/
def wide (namespaces models : Nat) : String :=
  "<schema rootNamespaces=\"Bench\">\n<namespace name=\"Bench\">\n" ++
    String.join ((List.range namespaces).map (wideNamespace models)) ++ "</namespace>\n</schema>\n"

def deepLevel (level : Nat) : String := "<property name=\"l" ++ toString level ++ "\" optional=\"true\"><model>\n"

/-- A document of models nested to a depth, the innermost of which refers to the outermost. -/
def deep (depth : Nat) : String :=
  "<schema rootNamespaces=\"Deep\">\n<namespace name=\"Deep\">\n<model name=\"Root\">\n" ++
    String.join ((List.range depth).map deepLevel) ++ "<property name=\"back\" type=\"Root\"/>\n" ++
    String.join (List.replicate depth "</model></property>\n") ++
    "</model>\n</namespace>\n</schema>\n"

end SchemaGuards.Sample
