import LoopNest.Kernel.Proc
import LoopNest.Text.Lexeme

/-!
# Kernel text

Expressions are written with the parentheses their precedence requires and no others. Statements
stand one to a line, and every block is indented by two more blanks.
-/

namespace LoopNest

/-- Parentheses around the text if they are needed. -/
def parenthesize (needed : Bool) (s : String) : String := if needed then "(" ++ s ++ ")" else s

/-- The items with commas between them. -/
def commas (items : List String) : String := String.intercalate ", " items

/-- The items in brackets, or nothing if there is none. -/
def brackets (items : List String) : String :=
  if items.isEmpty then "" else "[" ++ commas items ++ "]"

namespace Expr

/-- The least precedence that the left operand of an operator has without parentheses: comparisons
do not chain. -/
def leftMin (op : Op) : Nat := if op.isComparison then op.precedence + 1 else op.precedence

mutual

def text : Expr → String
  | var v => v
  | int n => n.text
  | float x => Decimal.literal x
  | read b idx => b ++ brackets (texts idx)
  | binary op l r =>
    parenthesize (l.precedence < leftMin op) l.text ++ " " ++ op.symbol ++ " " ++
      parenthesize (r.precedence < op.precedence + 1) r.text
  | neg e => "-" ++ parenthesize (e.precedence < 5) e.text

def texts : List Expr → List String
  | [] => []
  | e :: es => e.text :: texts es

end

end Expr

def Decl.text (d : Decl) : String :=
  d.name ++ ": " ++ d.ty.name ++ brackets (Expr.texts d.shape) ++ " @ " ++ d.mem.name

def WindowDim.text : WindowDim → String
  | point e => e.text
  | interval lo hi => lo.text ++ ":" ++ hi.text

def Window.text (w : Window) : String := w.buf ++ brackets (w.dims.map (·.text))

def Param.text : Param → String
  | size n => n ++ ": size"
  | buffer d => d.text

def Update.symbol : Update → String
  | set => "="
  | add => "+="

def indentation (n : Nat) : String := String.ofList (List.replicate n ' ')

namespace Stmt

mutual

/-- The statement; the lines after its first are indented by `indent` or more. -/
def text (indent : Nat) : Stmt → String
  | loop h body =>
    "for " ++ h.var ++ " in " ++ h.mode.name ++ "(" ++ h.bound.text ++ ") \x7b\n" ++
      lines (indent + 2) body ++ indentation indent ++ "\x7d"
  | guard c body =>
    "if " ++ c.text ++ " \x7b\n" ++ lines (indent + 2) body ++ indentation indent ++ "\x7d"
  | store u b idx rhs =>
    b ++ brackets (Expr.texts idx) ++ " " ++ u.symbol ++ " " ++ rhs.text ++ ";"
  | alloc d => d.text ++ ";"
  | call t args => t ++ "(" ++ commas (args.map (·.text)) ++ ");"

/-- The statements of a block, each on its own lines. -/
def lines (indent : Nat) : List Stmt → String
  | [] => ""
  | s :: rest => indentation indent ++ s.text indent ++ "\n" ++ lines indent rest

end

end Stmt

def Proc.text (p : Proc) : String :=
  (match p.instr with
    | some s => "@instr(" ++ Text.quote s ++ ")\n"
    | none => "") ++
  "proc " ++ p.name ++ "(" ++ commas (p.params.map (·.text)) ++ ") \x7b\n" ++
    Stmt.lines 2 p.body ++ "\x7d"

end LoopNest
