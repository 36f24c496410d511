import LoopNest.Kernel.Types
import LoopNest.Word
import LoopNest.Decimal.Layout

/-!
# Expressions

Index expressions (loop bounds, buffer indices, window bounds, guards) are built from variables,
integers and arithmetic. Data expressions also read buffers and hold float literals.

Two traversals serve all uses: `collect` gathers something from every sub-expression, and `rebuild`
puts other expressions in the place of variables and reads.
-/

namespace LoopNest

/-- An expression. -/
inductive Expr where
  /-- A loop variable or a size parameter. -/
  | var (name : String)
  | int (value : Word)
  | float (value : Float)
  /-- An element of a buffer; no index reads a scalar buffer. -/
  | read (buf : String) (idx : List Expr)
  | binary (op : Op) (left right : Expr)
  | neg (operand : Expr)
deriving Inhabited

/-- Induction over expressions; for a read, the property is known of its indices. -/
@[induction_eliminator]
theorem Expr.induction {Q : Expr → Prop} (var : ∀ v, Q (.var v)) (int : ∀ n, Q (.int n))
    (float : ∀ x, Q (.float x)) (read : ∀ b idx, (∀ e ∈ idx, Q e) → Q (.read b idx))
    (binary : ∀ op l r, Q l → Q r → Q (.binary op l r)) (neg : ∀ e, Q e → Q (.neg e)) (e : Expr) :
    Q e :=
  @Expr.rec Q (fun es => ∀ e ∈ es, Q e) var int float read binary neg
    (fun _ he => absurd he List.not_mem_nil)
    (fun _ _ he hes => List.forall_mem_cons.2 ⟨he, hes⟩) e

namespace Expr

def add (a b : Expr) : Expr := .binary .add a b

def sub (a b : Expr) : Expr := .binary .sub a b

def mul (a b : Expr) : Expr := .binary .mul a b

def div (a b : Expr) : Expr := .binary .div a b

/-- The integer, if the expression is a literal. -/
def int? : Expr → Option Word
  | int n => some n
  | _ => none

/-- Binding strength in kernel text: a negative literal binds like a negation. -/
def precedence : Expr → Nat
  | binary op _ _ => op.precedence
  | neg _ => 5
  | int n => if n < 0 then 5 else 6
  | float x => if Decimal.isNegative x then 5 else 6
  | _ => 6

/-! ### Equality

Float literals are equal as numbers, so the two zeros are. -/

mutual

def same : Expr → Expr → Bool
  | var a, var b => a == b
  | int a, int b => a == b
  | float a, float b => a == b
  | read b idx, read b' idx' => b == b' && sameAll idx idx'
  | binary o l r, binary o' l' r' => o == o' && l.same l' && r.same r'
  | neg a, neg b => a.same b
  | _, _ => false

def sameAll : List Expr → List Expr → Bool
  | [], [] => true
  | a :: as, b :: bs => a.same b && sameAll as bs
  | _, _ => false

end

instance : BEq Expr := ⟨same⟩

/-! ### Sub-expressions -/

/-- Direct sub-expressions, left to right. -/
def children : Expr → List Expr
  | read _ idx => idx
  | binary _ l r => [l, r]
  | neg e => [e]
  | _ => []

/-- Put new sub-expressions in the place of the old ones, as many as there were. -/
def withChildren : Expr → List Expr → Expr
  | read b _, cs => read b cs
  | binary op _ _, [l, r] => binary op l r
  | neg _, [e] => neg e
  | e, _ => e

/-- Follow a list of positions down through the sub-expressions. -/
def get? : List Nat → Expr → Option Expr
  | [], e => some e
  | i :: rest, e => (e.children[i]?).bind (get? rest)

/-- Replace the sub-expression at a list of positions. -/
def set? (new : Expr) : List Nat → Expr → Option Expr
  | [], _ => some new
  | i :: rest, e => do
    let child ← (e.children[i]?).bind (set? new rest)
    return e.withChildren (e.children.set i child)

mutual

/-- What `f` finds at the expression and at all sub-expressions, from the outside in and from left
to right. -/
def collect {α : Type} (f : Expr → List α) : Expr → List α
  | read b idx => f (read b idx) ++ collectAll f idx
  | binary op l r => f (binary op l r) ++ (l.collect f ++ r.collect f)
  | neg e => f (neg e) ++ e.collect f
  | var v => f (var v)
  | int n => f (int n)
  | float x => f (float x)

def collectAll {α : Type} (f : Expr → List α) : List Expr → List α
  | [] => []
  | e :: es => e.collect f ++ collectAll f es

end

mutual

/-- All sub-expressions with their positions, from the outside in and from left to right; `steps`
leads to the expression itself, last step first. -/
def positions (steps : List Nat) : Expr → List (List Nat × Expr)
  | read b idx => (steps.reverse, read b idx) :: positionsFrom steps 0 idx
  | binary op l r =>
    (steps.reverse, binary op l r) :: (l.positions (0 :: steps) ++ r.positions (1 :: steps))
  | neg e => (steps.reverse, neg e) :: e.positions (0 :: steps)
  | var v => [(steps.reverse, var v)]
  | int n => [(steps.reverse, int n)]
  | float x => [(steps.reverse, float x)]

def positionsFrom (steps : List Nat) (i : Nat) : List Expr → List (List Nat × Expr)
  | [] => []
  | e :: es => e.positions (i :: steps) ++ positionsFrom steps (i + 1) es

end

/-- The variables, in order of appearance and with repetitions. -/
def vars (e : Expr) : List String :=
  e.collect fun
    | var v => [v]
    | _ => []

/-- The buffers read, in order of appearance and with repetitions. -/
def buffers (e : Expr) : List String :=
  e.collect fun
    | read b _ => [b]
    | _ => []

def mentions (v : String) (e : Expr) : Bool := e.vars.contains v

def reads (b : String) (e : Expr) : Bool := e.buffers.contains b

/-! ### Replacing variables and reads -/

mutual

/-- Replace variables by `onVar` and reads by `onRead`, which gets the indices already rebuilt. -/
def rebuild (onVar : String → Expr) (onRead : String → List Expr → Expr) : Expr → Expr
  | var v => onVar v
  | int n => int n
  | float x => float x
  | read b idx => onRead b (rebuildAll onVar onRead idx)
  | binary op l r => binary op (l.rebuild onVar onRead) (r.rebuild onVar onRead)
  | neg e => neg (e.rebuild onVar onRead)

def rebuildAll (onVar : String → Expr) (onRead : String → List Expr → Expr) :
    List Expr → List Expr
  | [] => []
  | e :: es => e.rebuild onVar onRead :: rebuildAll onVar onRead es

end

/-- Put `value` in the place of the variable `v`. -/
def substVar (e : Expr) (v : String) (value : Expr) : Expr :=
  e.rebuild (fun w => if w = v then value else var w) read

/-- Read the buffer `new` in the place of `old`. -/
def renameBuffer (old new : String) : Expr → Expr :=
  rebuild var fun b idx => read (if b = old then new else b) idx

/-- Read a bare name that is one of `names` as a scalar buffer. -/
def resolve (names : List String) : Expr → Expr :=
  rebuild (fun v => if names.contains v then read v [] else var v) read

end Expr

end LoopNest
