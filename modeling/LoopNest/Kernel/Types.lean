/-!
# Element types, memory spaces, loop modes and operators

Each of these has a spelling in kernel text; `ofName?` reads it back (`ofName?_name`).
-/

namespace LoopNest

/-- Element type of a buffer. -/
inductive Scalar where
  | f32
  | f64
  | i32
  | i8
deriving DecidableEq

namespace Scalar

def name : Scalar → String
  | f32 => "f32"
  | f64 => "f64"
  | i32 => "i32"
  | i8 => "i8"

def ofName? (s : String) : Option Scalar := [f32, f64, i32, i8].find? (·.name = s)

def isFloat : Scalar → Bool
  | f32 | f64 => true
  | i32 | i8 => false

theorem ofName?_name (t : Scalar) : ofName? t.name = some t := by cases t <;> decide

end Scalar

/-- Where a buffer lives. `dram` is addressable memory; the others are vector register files, which
hold `f32` only and stay out of kernel signatures. -/
inductive Space where
  | dram
  | avx2
  | avx512
deriving DecidableEq

namespace Space

def name : Space → String
  | dram => "DRAM"
  | avx2 => "AVX2"
  | avx512 => "AVX512"

def ofName? (s : String) : Option Space := [dram, avx2, avx512].find? (·.name = s)

def isRegister (m : Space) : Bool := m ≠ dram

/-- Elements of type `t` in one vector register. -/
def lanes : Space → Scalar → Option Nat
  | avx2, .f32 => some 8
  | avx512, .f32 => some 16
  | _, _ => none

/-- May buffers of element type `t` be placed here? -/
def supports (m : Space) (t : Scalar) : Bool := m = dram ∨ t = .f32

theorem ofName?_name (m : Space) : ofName? m.name = some m := by cases m <;> decide

end Space

/-- Whether the iterations of a loop may run in any order. -/
inductive Mode where
  | par
  | seq
deriving DecidableEq

namespace Mode

def name : Mode → String
  | par => "par"
  | seq => "seq"

def ofName? (s : String) : Option Mode := [par, seq].find? (·.name = s)

theorem ofName?_name (m : Mode) : ofName? m.name = some m := by cases m <;> decide

end Mode

/-- Binary operators: arithmetic, comparison and conjunction. -/
inductive Op where
  | add
  | sub
  | mul
  | div
  | mod
  | lt
  | le
  | gt
  | ge
  | eq
  | and
deriving DecidableEq

namespace Op

def all : List Op := [add, sub, mul, div, mod, lt, le, gt, ge, eq, and]

/-- The word for the operator. -/
def name : Op → String
  | add => "add"
  | sub => "sub"
  | mul => "mul"
  | div => "div"
  | mod => "mod"
  | lt => "lt"
  | le => "le"
  | gt => "gt"
  | ge => "ge"
  | eq => "eq"
  | and => "and"

def ofName? (s : String) : Option Op := all.find? (·.name = s)

/-- The operator in kernel text. -/
def symbol : Op → String
  | add => "+"
  | sub => "-"
  | mul => "*"
  | div => "/"
  | mod => "%"
  | lt => "<"
  | le => "<="
  | gt => ">"
  | ge => ">="
  | eq => "=="
  | and => "and"

def ofSymbol? (s : String) : Option Op := all.find? (·.symbol = s)

/-- Binding strength; larger binds tighter. -/
def precedence : Op → Nat
  | and => 1
  | lt | le | gt | ge | eq => 2
  | add | sub => 3
  | mul | div | mod => 4

def isComparison (o : Op) : Bool := o.precedence = 2

def isArithmetic (o : Op) : Bool := 3 ≤ o.precedence

theorem ofName?_name (o : Op) : ofName? o.name = some o := by cases o <;> decide

theorem ofSymbol?_symbol (o : Op) : ofSymbol? o.symbol = some o := by cases o <;> decide

end Op

end LoopNest
