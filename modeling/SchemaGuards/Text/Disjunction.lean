/-!
# Disjunctions outside brackets

An expression needs parentheses as a part of a conjunction when it holds a double bar outside every
bracket and every string literal. The scan keeps the open brackets as a depth that stops at zero, and
knows the single, double and back quote.
-/
namespace SchemaGuards.Text

structure OrScan where
  depth : Nat := 0
  /-- The quote that closes the literal being read. -/
  quoted : Option Char := none
  escaped : Bool := false
  last : Char := '\x00'
deriving DecidableEq, Repr

/-- Reads one character; nothing when it completes a double bar outside brackets and literals. -/
def OrScan.step (scan : OrScan) (c : Char) : Option OrScan :=
  match scan.quoted with
  | some closing =>
    if scan.escaped then some { scan with escaped := false, last := c }
    else if c = '\\' then some { scan with escaped := true, last := c }
    else if c = closing then some { scan with quoted := none, last := c }
    else some { scan with last := c }
  | none =>
    if c = '\'' || c = '"' || c = '\x60' then some { scan with quoted := some c, last := c }
    else if c = '(' || c = '[' || c = '{' then some { scan with depth := scan.depth + 1, last := c }
    else if c = ')' || c = ']' || c = '}' then some { scan with depth := scan.depth - 1, last := c }
    else if c = '|' && scan.last = '|' && scan.depth = 0 then none
    else some { scan with last := c }

def OrScan.run (scan : OrScan) (cs : List Char) : Option OrScan := cs.foldlM OrScan.step scan

/-- Whether an expression has a disjunction outside brackets and literals. -/
def hasTopLevelOr (s : String) : Bool := (OrScan.run {} s.toList).isNone

@[simp] theorem OrScan.run_nil (scan : OrScan) : scan.run [] = some scan := rfl

@[simp] theorem OrScan.run_cons (scan : OrScan) (c : Char) (cs : List Char) :
    scan.run (c :: cs) = (scan.step c).bind (fun next => next.run cs) := rfl

theorem OrScan.run_append (scan : OrScan) (cs ds : List Char) :
    scan.run (cs ++ ds) = (scan.run cs).bind (fun next => next.run ds) := by
  simp [OrScan.run, List.foldlM_append, Option.bind_eq_bind]

end SchemaGuards.Text
