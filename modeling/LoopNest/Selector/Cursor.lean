import LoopNest.Selector.Pattern

/-!
# Cursors

A cursor addresses a statement or an expression of one particular kernel. A selector that should
pick a single place is resolved against the list of all matches, which is in program order.
-/

namespace LoopNest

/-- The address of a statement, or of an expression: its statement, the slot in that statement, and
the positions that lead down from there. -/
inductive Cursor where
  | stmt (path : Path)
  | expr (path : Path) (slot : Nat) (steps : List Nat)
deriving DecidableEq

namespace Cursor

/-- The statement, or the one that holds the expression. -/
def path : Cursor → Path
  | stmt p => p
  | expr p _ _ => p

end Cursor

/-- Why a selector does not pick one place. -/
inductive SelectError where
  | notFound (source : String)
  | ambiguous (source : String) (count : Nat)

namespace SelectError

def kindName : SelectError → String
  | notFound _ => "NotFound"
  | ambiguous .. => "Ambiguous"

def message : SelectError → String
  | notFound s => s!"no match for `{s}`"
  | ambiguous s n => s!"`{s}` matches {n} locations; add `#k` to pick one"

end SelectError

namespace Proc

/-- The expressions of a statement that fit, slot by slot and from the outside in. -/
def exprMatches (pattern : Expr) (path : Path) (s : Stmt) : List Cursor :=
  s.exprs.zipIdx.flatMap fun (e, slot) =>
    (e.positions []).filterMap fun (steps, sub) =>
      if pattern.fits sub then some (.expr path slot steps) else none

/-- All places that fit a pattern, in program order. -/
def findAll (p : Proc) (pattern : Pattern) : List Cursor :=
  p.body.visits.flatMap fun (path, s) =>
    match pattern with
    | .expr e => exprMatches e path s
    | _ => if pattern.fits s then [.stmt path] else []

/-- The one place a selector picks. -/
def resolve? (p : Proc) (sel : Selector) : Except SelectError Cursor :=
  let found := p.findAll sel.pattern
  match sel.ordinal, found with
  | some k, _ =>
    match found[k]? with
    | some c => .ok c
    | none => .error (.notFound sel.source)
  | none, [c] => .ok c
  | none, [] => .error (.notFound sel.source)
  | none, _ => .error (.ambiguous sel.source found.length)

/-- The one statement a selector picks. -/
def resolveStmt? (p : Proc) (sel : Selector) : Except SelectError Path :=
  if sel.pattern.isExpr then .error (.notFound sel.source)
  else (p.resolve? sel).map (·.path)

/-- The one expression a selector picks: its statement, slot and positions. -/
def resolveExpr? (p : Proc) (sel : Selector) : Except SelectError (Path × Nat × List Nat) :=
  match p.resolve? sel with
  | .ok (.expr path slot steps) => .ok (path, slot, steps)
  | .ok (.stmt _) => .error (.notFound sel.source)
  | .error e => .error e

end Proc

end LoopNest
