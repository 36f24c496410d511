import LoopNest.Kernel.Parser

/-!
# Selectors

A selector is a fragment of kernel text in which `_` stands for anything, and may end with `#k` to
pick the k-th match in program order:

```text
for k in _:_          the loop over k
C_reg:_               the allocation of C_reg
C[_] += _             a reduction into C at any indices
C_reg = _ #0          the first assignment to C_reg
A[i, k]               the expression A[i, k]
mm256_loadu_ps(_)     a call of a template
```

In brackets, a lone `_` stands for any list of indices.
-/

namespace LoopNest

/-- The name that stands for anything. -/
def wildcard : String := "_"

namespace Expr

/-- Is this list of patterns a lone wildcard, which stands for any indices? -/
def isWildcard : List Expr → Bool
  | [var w] => w == wildcard
  | _ => false

mutual

/-- Does the expression fit this pattern? A name also fits the scalar buffer of that name. -/
def fits : (pattern : Expr) → Expr → Bool
  | var p, e =>
    p == wildcard ||
      match e with
      | var v => p == v
      | read b idx => p == b && idx.isEmpty
      | _ => false
  | int p, int n => p == n
  | float p, float x => p == x
  | read p ps, read b idx => p == b && (isWildcard ps || fitsAll ps idx)
  | binary p pl pr, binary op l r => p == op && pl.fits l && pr.fits r
  | neg p, neg e => p.fits e
  | _, _ => false

def fitsAll : (patterns : List Expr) → List Expr → Bool
  | [], [] => true
  | p :: ps, e :: es => p.fits e && fitsAll ps es
  | _, _ => false

end

/-- Do the indices fit? No patterns at all fit any indices. -/
def fitsIndices : (patterns : Option (List Expr)) → List Expr → Bool
  | none, _ => true
  | some ps, idx => isWildcard ps || fitsAll ps idx

end Expr

/-- The shape a selector looks for. -/
inductive Pattern where
  | loop (var : String) (bound : Expr)
  | alloc (name : String)
  | store (update : Update) (buf : String) (idx : Option (List Expr)) (rhs : Expr)
  | call (template : String)
  | expr (e : Expr)

namespace Pattern

def isExpr : Pattern → Bool
  | expr _ => true
  | _ => false

/-- The word for the kind of pattern. -/
def kindName : Pattern → String
  | loop .. => "loop"
  | alloc _ => "alloc"
  | store .set .. => "assign"
  | store .add .. => "reduce"
  | call _ => "call"
  | expr _ => "expr"

def fits : Pattern → Stmt → Bool
  | loop v bound, .loop h _ => v == h.var && bound.fits h.bound
  | alloc n, .alloc d => n == d.name
  | store u b idx rhs, .store u' b' idx' rhs' =>
    u == u' && b == b' && Expr.fitsIndices idx idx' && rhs.fits rhs'
  | call t, .call t' _ => t == t'
  | _, _ => false

/-- The bare name that the pattern is, if it is one. -/
def name? : Pattern → Option String
  | expr (.var v) => if v = wildcard then none else some v
  | _ => none

end Pattern

/-- A pattern, the number of the match to pick, and the text it was read from. -/
structure Selector where
  pattern : Pattern
  ordinal : Option Nat
  source : String

namespace Selector

open Text
open Text.Parser

/-- Read a bare name as the loop over that variable. -/
def asLoop (s : Selector) : Selector :=
  match s.pattern.name? with
  | some v => { s with pattern := .loop v (.var wildcard) }
  | none => s

/-- Read a bare name as the allocation of that buffer. -/
def asAlloc (s : Selector) : Selector :=
  match s.pattern.name? with
  | some n => { s with pattern := .alloc n }
  | none => s

/-! ### Reading -/

def wildcardMark : Parser Unit := do
  blanks
  text "_"

/-- What follows `for`. -/
def loopPattern : Parser Pattern := do
  blanks
  let v ← ident
  blanks
  keyword "in"
  blanks
  let bound ← LoopNest.expr
  blanks
  text ":"
  wildcardMark
  return .loop v bound

/-- An expression, or a store into the buffer that the left side names. -/
def exprOrStore : Parser Pattern := do
  let left ← LoopNest.expr
  blanks
  let u ← optional do
    if ← startsWith "==" then fail else update
  match u with
  | none => return .expr left
  | some u =>
    blanks
    let rhs ← LoopNest.expr
    match left with
    | .var v => return .store u v none rhs
    | .read b idx => return .store u b (some idx) rhs
    | _ => fail

/-- What follows the name of a template and `(`. -/
def callMark : Parser Unit := do
  blanks
  let _ ← optional (text "_")
  blanks
  text ")"

def anyPattern : Explained Pattern := do
  explain "bad selector" blanks
  if ← explain "bad selector" (hasKeyword "for") then
    explain "expected `for <var> in <bound>:_`" loopPattern
  else
    let start ← get
    let name ← explain "bad selector" (optional ident)
    explain "bad selector" blanks
    let next := (← get).head?
    match name, next with
    | some n, some ':' =>
      explain "bad selector" (text ":")
      explain "expected `_` after `:`" wildcardMark
      return .alloc n
    | some n, some '(' =>
      explain "bad selector" (text "(")
      explain "expected `(_)` after template name" callMark
      return .call n
    | _, _ =>
      set start
      explain "bad selector" exprOrStore

/-- A pattern and nothing after it. -/
def patternOnly : Explained Pattern := do
  let p ← anyPattern
  explain "bad selector" blanks
  if (← get).isEmpty then return p else throw ("trailing input in selector", ← get)

/-- The text before the last `#` and the text after it, if there is a `#`. -/
def splitOrdinal (s : List Char) : List Char × Option (List Char) :=
  let after := s.reverse.takeWhile (· ≠ '#')
  if after.length = s.length then (s, none)
  else (s.take (s.length - after.length - 1), some after.reverse)

def parse (source : String) : Except ParseError Selector := do
  let (body, mark) := splitOrdinal source.toList
  let ordinal ← match mark with
    | none => pure none
    | some mark =>
      let digits := trim mark
      match Decimal.natural? digits with
      | some n => pure (some n)
      | none =>
        let found := String.ofList digits
        throw ⟨s!"expected a match index after `#`, found `{found}`", byteLength body + 1⟩
  let p ← explained (String.ofList body) patternOnly
  return { pattern := p, ordinal, source := String.ofList (trim source.toList) }

end Selector

end LoopNest
