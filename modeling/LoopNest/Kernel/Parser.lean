import LoopNest.Decimal.Reading
import LoopNest.Kernel.Proc
import LoopNest.Text.Lexeme
import LoopNest.Text.ParseError

/-!
# Reading kernel text

```text
file   := proc*
proc   := ('@instr' '(' string ')')? 'proc' ident '(' param,* ')' block
param  := ident ':' ('size' | type)
type   := scalar ('[' expr,+ ']')? ('@' space)?
stmt   := 'for' ident 'in' ('par'|'seq') '(' expr ')' block
        | 'if' expr block
        | ident ':' type ';'
        | ident '(' window,* ')' ';'
        | ident ('[' expr,+ ']')? ('=' | '+=') expr ';'
window := ident ('[' (expr (':' expr)?),+ ']')?
```

A nested expression or statement is read by the parser that is given as `inner`. Each nesting takes
at least one character, so the input bounds the depth.
-/

namespace LoopNest

open Text
open Text.Parser

/-! ### Expressions -/

/-- An unsigned literal. A float has a point or an exponent. -/
def number : Parser Expr := do
  let whole ← takeWhile1 Decimal.isDigit
  let fraction ← optional (do text "."; takeWhile Decimal.isDigit)
  let exponent ← optional do
    let _ ← satisfy fun c => c == 'e' || c == 'E'
    let sign ← optional (satisfy fun c => c == '+' || c == '-')
    let digits ← takeWhile1 Decimal.isDigit
    let n : Int := Decimal.ofDigits digits
    return if sign == some '-' then -n else n
  if fraction.isNone && exponent.isNone then
    ofOption ((Word.ofInt? (Decimal.ofDigits whole)).map Expr.int)
  else
    let places := fraction.getD []
    return .float (Decimal.nearest (Decimal.ofDigits (whole ++ places))
      (exponent.getD 0 - places.length))

/-- Indices in brackets, if a bracket follows the blanks. -/
def indices {α : Type} (p : Parser α) : Parser (List α) := do
  if (← optional (do blanks; text "[")).isNone then return []
  else
    let es ← commaList p
    text "]"
    return es

/-- A name, or an element of a buffer. -/
def access (inner : Parser Expr) : Parser Expr := do
  let name ← ident
  match ← indices inner with
  | [] => return .var name
  | idx => return .read name idx

def atom (inner : Parser Expr) : Parser Expr :=
  number.orElse ((enclosed "(" inner ")").orElse (access inner))

/-- The negative of a literal. -/
def negateLiteral : Expr → Expr
  | .int n => .int (-n)
  | .float x => .float (-x)
  | e => .neg e

/-- Signs, fewer than there are characters in `bound`, and an atom; a sign right before a digit
belongs to the literal. -/
def unaryUpTo (inner : Parser Expr) : (bound : List Char) → Parser Expr
  | [] => fail
  | _ :: bound => do
    if (← optional (text "-")).isNone then atom inner
    else if (← peek).head?.any Decimal.isDigit then return negateLiteral (← number)
    else
      blanks
      return .neg (← unaryUpTo inner bound)

def unary (inner : Parser Expr) : Parser Expr := fun s => unaryUpTo inner (' ' :: s) s

/-- One of the operators, with blanks around it. -/
def operator (ops : List Op) : Parser Op := do
  blanks
  let rec first : List Op → Parser Op
    | [] => fail
    | op :: rest => (do text op.symbol; return op).orElse (first rest)
  let op ← first ops
  blanks
  return op

/-- Operands of `p` joined by the operators that `op` reads, grouped to the left. -/
def leftAssoc (p : Parser Expr) (op : Parser Op) : Parser Expr := do
  let first ← p
  iterate (fun left => do
    match ← optional op with
    | none => return none
    | some op => return some (.binary op left (← p))) first

def multiplicative (inner : Parser Expr) : Parser Expr :=
  leftAssoc (unary inner) (operator [.mul, .div, .mod])

/-- `+` or `-`; the sign `+=` is none of them. -/
def additiveOp : Parser Op := do
  blanks
  if ← startsWith "+=" then fail else operator [.add, .sub]

def additive (inner : Parser Expr) : Parser Expr := leftAssoc (multiplicative inner) additiveOp

/-- At most one comparison. -/
def comparison (inner : Parser Expr) : Parser Expr := do
  let left ← additive inner
  match ← optional (operator [.le, .ge, .eq, .lt, .gt]) with
  | none => return left
  | some op => return .binary op left (← additive inner)

def conjunctionOp : Parser Op := do
  blanks
  keyword "and"
  blanks
  return .and

def conjunction (inner : Parser Expr) : Parser Expr := leftAssoc (comparison inner) conjunctionOp

/-- An expression nested at most as deep as `bound` is long. -/
def exprUpTo : (bound : List Char) → Parser Expr
  | [] => fail
  | _ :: bound => conjunction (exprUpTo bound)

def expr : Parser Expr := fun s => exprUpTo (' ' :: s) s

/-! ### Declarations -/

def scalar : Parser Scalar := do ofOption (Scalar.ofName? (← ident))

def space : Parser Space := do ofOption (Space.ofName? (← ident))

/-- `f32[6, K] @ DRAM`; the shape and the space may be left out. -/
def declOf (name : String) : Parser Decl := do
  let ty ← scalar
  let shape ← indices expr
  let mem ←
    if (← optional (do blanks; text "@")).isSome then (do blanks; space) else pure Space.dram
  return { name, ty, shape, mem }

def param : Parser Param := do
  let name ← ident
  blanks
  text ":"
  blanks
  if ← hasKeyword "size" then return .size name else return .buffer (← declOf name)

/-! ### Statements -/

/-- Statements in braces. -/
def blockOf (inner : Parser Stmt) : Parser Block := do
  text "\x7b"
  blanks
  let stmts ← iterate (fun acc => do
    if ← startsWith "\x7d" then return none
    else
      let s ← inner
      blanks
      return some (s :: acc)) []
  text "\x7d"
  return stmts.reverse

def loopStmt (inner : Parser Stmt) : Parser Stmt := do
  keyword "for"
  blanks
  let var ← ident
  blanks
  keyword "in"
  blanks
  let mode ← if ← hasKeyword "par" then pure Mode.par else (do keyword "seq"; return Mode.seq)
  blanks
  let bound ← enclosed "(" expr ")"
  blanks
  return .loop { var, bound, mode } (← blockOf inner)

def guardStmt (inner : Parser Stmt) : Parser Stmt := do
  keyword "if"
  blanks
  let cond ← expr
  blanks
  return .guard cond (← blockOf inner)

def windowDim : Parser WindowDim := do
  let lo ← expr
  if (← optional (do blanks; text ":")).isSome then
    blanks
    return .interval lo (← expr)
  else return .point lo

def window : Parser Window := do
  let buf ← ident
  return { buf, dims := ← indices windowDim }

def update : Parser Update :=
  (do text "+="; return Update.add).orElse (do text "="; return Update.set)

/-- What follows the name and the blanks at the start of an allocation, a call or a store. -/
def simpleRest (name : String) : Parser Stmt := do
  if (← optional (text ":")).isSome then
    blanks
    return .alloc (← declOf name)
  else if ← startsWith "(" then
    return .call name (← enclosed "(" (separated (spaced window) (text ",")) ")")
  else
    let idx ← indices expr
    blanks
    let u ← update
    blanks
    return .store u name idx (← expr)

def simpleStmt : Parser Stmt := do
  let name ← ident
  blanks
  let s ← simpleRest name
  blanks
  text ";"
  return s

/-- A statement nested at most as deep as `bound` is long. -/
def stmtUpTo : (bound : List Char) → Parser Stmt
  | [] => fail
  | _ :: bound =>
    (loopStmt (stmtUpTo bound)).orElse ((guardStmt (stmtUpTo bound)).orElse simpleStmt)

def stmt : Parser Stmt := fun s => stmtUpTo (' ' :: s) s

def block : Parser Block := blockOf stmt

/-! ### Procedures -/

mutual

/-- Turn bare names of buffers in scope into scalar reads. -/
def Stmt.resolve (buffers : List String) : Stmt → Stmt
  | .loop h body => .loop { h with bound := h.bound.resolve buffers } (Stmt.resolveAll buffers body)
  | .guard c body => .guard (c.resolve buffers) (Stmt.resolveAll buffers body)
  | .store u b idx rhs => .store u b (idx.map (·.resolve buffers)) (rhs.resolve buffers)
  | .alloc d => .alloc { d with shape := d.shape.map (·.resolve buffers) }
  | .call t args => .call t (args.map (·.mapExprs (·.resolve buffers)))

/-- The same for a block, where an allocation is in scope from its own shape on. -/
def Stmt.resolveAll (buffers : List String) : List Stmt → List Stmt
  | [] => []
  | s :: rest =>
    let buffers := (s.decl?.map (·.name)).toList ++ buffers
    s.resolve buffers :: Stmt.resolveAll buffers rest

end

def Proc.resolve (p : Proc) : Proc :=
  { p with body := Stmt.resolveAll (p.bufferParams.map (·.name)) p.body }

def procedure : Parser Proc := do
  let instr ←
    if (← optional (text "@instr")).isSome then do
      blanks
      let s ← enclosed "(" quoted ")"
      blanks
      pure (some s)
    else pure none
  keyword "proc"
  blanks
  let name ← ident
  blanks
  let params ← enclosed "(" (separated (spaced param) (text ",")) ")"
  blanks
  let body ← block
  return Proc.resolve { name, params, body, instr }

/-! ### Whole texts -/

def Expr.parse (s : String) : Except ParseError Expr := whole "expression" expr s

def Stmt.parse (s : String) : Except ParseError Stmt := whole "statement" stmt s

def Proc.parse (s : String) : Except ParseError Proc := whole "procedure" procedure s

/-- All procedures of a file. -/
def Proc.parseAll (s : String) : Except ParseError (List Proc) :=
  let step (acc : List Proc) : Parser (Option (List Proc)) := do
    blanks
    if (← peek).isEmpty then return none else return some ((← procedure) :: acc)
  match iterate step [] s.toList with
  | .ok procs _ => .ok procs.reverse
  | .stop rest => .error (.expected "procedure" (offset s rest))

end LoopNest
