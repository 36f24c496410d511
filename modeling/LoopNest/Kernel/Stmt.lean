import LoopNest.Kernel.Expr

/-!
# Statements

A block is a list of statements. A statement is addressed by its path: positions in nested blocks,
outermost first.

`walk` lists a block's statements in program order with their paths; `map` and `flatMap` change them
from the inside out. The other operations on whole blocks are instances of these.
-/

namespace LoopNest

/-- Declaration of a buffer, as a parameter or an allocation. -/
structure Decl where
  name : String
  ty : Scalar
  shape : List Expr
  mem : Space

def Decl.rank (d : Decl) : Nat := d.shape.length

/-- What precedes the body of a loop. The variable runs from 0 up to the bound, exclusive. -/
structure Header where
  var : String
  bound : Expr
  mode : Mode

/-- One dimension of a window: a fixed index, or all from `lo` up to `hi`, exclusive. -/
inductive WindowDim where
  | point (index : Expr)
  | interval (lo hi : Expr)

namespace WindowDim

def exprs : WindowDim → List Expr
  | point e => [e]
  | interval lo hi => [lo, hi]

def mapExprs (f : Expr → Expr) : WindowDim → WindowDim
  | point e => point (f e)
  | interval lo hi => interval (f lo) (f hi)

def isInterval : WindowDim → Bool
  | point _ => false
  | interval _ _ => true

/-- Take as many expressions from the front of a list as the dimension holds. -/
def refill : WindowDim → List Expr → WindowDim × List Expr
  | point _, e :: es => (point e, es)
  | interval _ _, lo :: hi :: es => (interval lo hi, es)
  | d, es => (d, es)

end WindowDim

/-- The part of a buffer that is passed to a template. -/
structure Window where
  buf : String
  dims : List WindowDim

namespace Window

/-- The rank of the part: its number of intervals. -/
def rank (w : Window) : Nat := (w.dims.filter (·.isInterval)).length

/-- The bounds of the intervals. -/
def intervals (w : Window) : List (Expr × Expr) :=
  w.dims.filterMap fun
    | .interval lo hi => some (lo, hi)
    | .point _ => none

def exprs (w : Window) : List Expr := w.dims.flatMap (·.exprs)

def mapExprs (f : Expr → Expr) (w : Window) : Window := { w with dims := w.dims.map (·.mapExprs f) }

end Window

/-- A store replaces the element or adds to it. -/
inductive Update where
  | set
  | add
deriving DecidableEq

/-- A statement. -/
inductive Stmt where
  | loop (header : Header) (body : List Stmt)
  | guard (cond : Expr) (body : List Stmt)
  | store (update : Update) (buf : String) (idx : List Expr) (rhs : Expr)
  | alloc (decl : Decl)
  | call (template : String) (args : List Window)

abbrev Block := List Stmt

/-- Positions in nested blocks that lead to a statement, outermost first. -/
abbrev Path := List Nat

namespace Path

def text (p : Path) : String := "/" ++ String.intercalate "/" (p.map toString)

/-- Position within the innermost block. -/
def position (p : Path) : Nat := p.getLast?.getD 0

/-- The path of the enclosing statement, if there is one. -/
def parent? (p : Path) : Option Path := if p.length ≤ 1 then none else some p.dropLast

def child (p : Path) (i : Nat) : Path := p ++ [i]

/-- The path of another statement in the same block. -/
def sibling (p : Path) (i : Nat) : Path := if p.isEmpty then [] else p.dropLast ++ [i]

end Path

namespace Stmt

def body? : Stmt → Option Block
  | loop _ body => some body
  | guard _ body => some body
  | _ => none

def withBody : Stmt → Block → Stmt
  | loop h _, body => loop h body
  | guard c _, body => guard c body
  | s, _ => s

/-- The word for the kind of statement. -/
def kindName : Stmt → String
  | loop .. => "loop"
  | guard .. => "if"
  | store .set .. => "assign"
  | store .add .. => "reduce"
  | alloc _ => "alloc"
  | call .. => "call"

def header? : Stmt → Option Header
  | loop h _ => some h
  | _ => none

def decl? : Stmt → Option Decl
  | alloc d => some d
  | _ => none

/-! ### Expressions of one statement -/

/-- The expressions that belong to the statement itself, in the order of the text: bound; guard;
indices and right-hand side; shape; window bounds. -/
def exprs : Stmt → List Expr
  | loop h _ => [h.bound]
  | guard c _ => [c]
  | store _ _ idx rhs => idx ++ [rhs]
  | alloc d => d.shape
  | call _ args => args.flatMap (·.exprs)

def mapExprs (f : Expr → Expr) : Stmt → Stmt
  | loop h body => loop { h with bound := f h.bound } body
  | guard c body => guard (f c) body
  | store u b idx rhs => store u b (idx.map f) (f rhs)
  | alloc d => alloc { d with shape := d.shape.map f }
  | call t args => call t (args.map (·.mapExprs f))

/-- Is slot `i` of `exprs` a data value rather than an index? -/
def isDataSlot (i : Nat) : Stmt → Bool
  | store _ _ idx _ => i == idx.length
  | _ => false

/-- Put other expressions in the place of `exprs`. -/
def withExprs : Stmt → List Expr → Stmt
  | loop h body, es => loop { h with bound := es.headD h.bound } body
  | guard c body, es => guard (es.headD c) body
  | store u b idx rhs, es => store u b (es.take idx.length) ((es.drop idx.length).headD rhs)
  | alloc d, es => alloc { d with shape := es }
  | call t args, es =>
    let fill (acc : List WindowDim × List Expr) (d : WindowDim) : List WindowDim × List Expr :=
      let (d', rest) := d.refill acc.2
      (acc.1 ++ [d'], rest)
    let window (acc : List Window × List Expr) (w : Window) : List Window × List Expr :=
      let (dims, rest) := w.dims.foldl fill ([], acc.2)
      (acc.1 ++ [{ w with dims }], rest)
    call t (args.foldl window ([], es)).1

/-! ### Nested statements -/

mutual

/-- The statement and all statements nested in it, in program order. -/
def nested : Stmt → List Stmt
  | loop h body => loop h body :: nestedAll body
  | guard c body => guard c body :: nestedAll body
  | store u b idx rhs => [store u b idx rhs]
  | alloc d => [alloc d]
  | call t args => [call t args]

def nestedAll : List Stmt → List Stmt
  | [] => []
  | s :: rest => s.nested ++ nestedAll rest

end

mutual

/-- Statements in program order with their paths; those inside a statement are left out unless
`descend` holds of it. -/
def walk (descend : Stmt → Bool) (path : Path) : Stmt → List (Path × Stmt)
  | loop h body =>
    (path, loop h body) :: if descend (loop h body) then walkFrom descend path 0 body else []
  | guard c body =>
    (path, guard c body) :: if descend (guard c body) then walkFrom descend path 0 body else []
  | store u b idx rhs => [(path, store u b idx rhs)]
  | alloc d => [(path, alloc d)]
  | call t args => [(path, call t args)]

/-- The same for the statements of a block inside `path`, numbered from `i`. -/
def walkFrom (descend : Stmt → Bool) (path : Path) (i : Nat) : List Stmt → List (Path × Stmt)
  | [] => []
  | s :: rest => s.walk descend (path.child i) ++ walkFrom descend path (i + 1) rest

end

mutual

/-- Change every statement with `f`, those inside first. -/
def map (f : Stmt → Stmt) : Stmt → Stmt
  | loop h body => f (loop h (mapAll f body))
  | guard c body => f (guard c (mapAll f body))
  | store u b idx rhs => f (store u b idx rhs)
  | alloc d => f (alloc d)
  | call t args => f (call t args)

def mapAll (f : Stmt → Stmt) : List Stmt → List Stmt
  | [] => []
  | s :: rest => s.map f :: mapAll f rest

end

mutual

/-- Replace every statement by the statements `f` gives, those inside first. -/
def flatMap (f : Stmt → List Stmt) : Stmt → List Stmt
  | loop h body => f (loop h (flatMapAll f body))
  | guard c body => f (guard c (flatMapAll f body))
  | store u b idx rhs => f (store u b idx rhs)
  | alloc d => f (alloc d)
  | call t args => f (call t args)

def flatMapAll (f : Stmt → List Stmt) : List Stmt → List Stmt
  | [] => []
  | s :: rest => s.flatMap f ++ flatMapAll f rest

end

/-! ### Names -/

/-- Does an expression of this very statement mention the variable? -/
def mentionsHere (v : String) (s : Stmt) : Bool := s.exprs.any (·.mentions v)

/-- Does this very statement write, read or pass on the buffer? -/
def touchesHere (b : String) (s : Stmt) : Bool :=
  (match s with
    | store _ b' _ _ => b' == b
    | call _ args => args.any (·.buf == b)
    | _ => false) || s.exprs.any (·.reads b)

def mentions (v : String) (s : Stmt) : Bool := s.nested.any (·.mentionsHere v)

def touches (b : String) (s : Stmt) : Bool := s.nested.any (·.touchesHere b)

/-- The name this very statement binds. -/
def binds? : Stmt → Option String
  | loop h _ => some h.var
  | alloc d => some d.name
  | _ => none

/-- Rename buffers where this very statement declares, writes or passes them. -/
def mapBuffers (f : String → String) : Stmt → Stmt
  | store u b idx rhs => store u (f b) idx rhs
  | alloc d => alloc { d with name := f d.name }
  | call t args => call t (args.map fun w => { w with buf := f w.buf })
  | s => s

end Stmt

/-- Induction over blocks: a property of a block may be shown from that of the rest and of the body
of the first statement, if it has one. -/
theorem Block.induction {Q : Block → Prop} (nil : Q [])
    (cons : ∀ s rest, (∀ body, s.body? = some body → Q body) → Q rest → Q (s :: rest))
    (b : Block) : Q b := by
  refine Stmt.rec_1 (motive_1 := fun s => ∀ body, s.body? = some body → Q body) (motive_2 := Q)
    ?loop ?guard ?store ?alloc ?call nil cons b
  case loop =>
    rintro h body ih _ ⟨⟩
    exact ih
  case guard =>
    rintro e body ih _ ⟨⟩
    exact ih
  case store => exact fun _ _ _ _ _ h => nomatch h
  case alloc => exact fun _ _ h => nomatch h
  case call => exact fun _ _ _ h => nomatch h

namespace Block

def nested (b : Block) : List Stmt := Stmt.nestedAll b

/-- All statements in program order with their paths. -/
def visits (b : Block) : List (Path × Stmt) := Stmt.walkFrom (fun _ => true) [] 0 b

def mentions (v : String) (b : Block) : Bool := b.nested.any (·.mentionsHere v)

def touches (buf : String) (b : Block) : Bool := b.nested.any (·.touchesHere buf)

/-- Names of the buffers allocated in the block, at any depth. -/
def allocated (b : Block) : List String := b.nested.filterMap fun s => s.decl?.map (·.name)

/-- Put `value` in the place of the variable `v`. -/
def substVar (v : String) (value : Expr) (b : Block) : Block :=
  Stmt.mapAll (·.mapExprs (·.substVar v value)) b

/-- Rename a buffer wherever it is declared, written, read or passed. -/
def renameBuffer (old new : String) (b : Block) : Block :=
  Stmt.mapAll (fun s => (s.mapBuffers fun n => if n = old then new else n).mapExprs
    (·.renameBuffer old new)) b

/-- The statement at a path. -/
def get? : Path → Block → Option Stmt
  | [], _ => none
  | [i], b => b[i]?
  | i :: rest, b => do get? rest (← (← b[i]?).body?)

theorem get?_succ (s : Stmt) (rest : Block) (i : Nat) (path : Path) :
    get? ((i + 1) :: path) (s :: rest) = get? (i :: path) rest := by
  cases path <;> simp [get?]

theorem get?_zero {path : Path} (hpath : path ≠ []) (s : Stmt) (rest : Block) :
    get? (0 :: path) (s :: rest) = s.body?.bind (get? path) := by
  cases path with
  | nil => exact absurd rfl hpath
  | cons i path => simp [get?]

/-- Change the block that holds the statement at a path; `f` gets the position in that block. -/
def edit? (f : Nat → Block → Block) : Path → Block → Option Block
  | [], _ => none
  | [i], b => some (f i b)
  | i :: rest, b => do
    let s ← b[i]?
    let body ← edit? f rest (← s.body?)
    return b.set i (s.withBody body)

/-- Put `new` in the place of `count` statements from position `i` on. -/
def splice (new : Block) (count i : Nat) (b : Block) : Block := b.take i ++ new ++ b.drop (i + count)

/-- Put statements in the place of the one at a path. -/
def replace? (b : Block) (path : Path) (new : Block) : Option Block :=
  edit? (splice new 1) path b

end Block

end LoopNest
