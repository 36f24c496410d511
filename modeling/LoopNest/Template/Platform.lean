import LoopNest.Template.Catalog

/-!
# Platforms

The targets whose templates come with the library, and these templates. The body of a template is
the meaning of the instruction over its operands. In the emission text, the name of a parameter in
braces stands for its address or register.
-/

namespace LoopNest

/-- A target with a catalog of its own. -/
inductive Platform where
  | avx2
deriving DecidableEq

namespace Platform

def all : List Platform := [avx2]

def name : Platform → String
  | avx2 => "avx2"

def ofName? (s : String) : Option Platform := all.find? (·.name = s)

/-! ### Single-precision instructions on vectors of eight -/

/-- The place of a parameter in emission text. -/
def operand (name : String) : String := "\x7b" ++ name ++ "\x7d"

/-- A vector parameter. -/
def vector (mem : Space) (name : String) : Param :=
  .buffer { name, ty := .f32, shape := [.int 8], mem }

/-- The element of a vector that the loop of the template is at. -/
def lane (name : String) : Expr := .read name [.var "i"]

/-- A template that stores `rhs` into every lane of `dst`. -/
def lanewise (name instr : String) (params : List Param) (u : Update) (dst : String) (rhs : Expr) :
    Proc where
  name := name
  params := params
  body := [.loop { var := "i", bound := .int 8, mode := .seq } [.store u dst [.var "i"] rhs]]
  instr := some instr

def setZero : Proc :=
  lanewise "avx2_set0_ps" (operand "dst" ++ " = _mm256_setzero_ps();") [vector .avx2 "dst"]
    .set "dst" (.float 0.0)

def broadcast : Proc :=
  lanewise "mm256_broadcast_ss"
    (operand "out" ++ " = _mm256_broadcast_ss(&" ++ operand "val" ++ ");")
    [vector .avx2 "out", .buffer { name := "val", ty := .f32, shape := [.int 1], mem := .dram }]
    .set "out" (.read "val" [.int 0])

def multiplyAdd : Proc :=
  lanewise "mm256_fmadd_ps"
    (operand "dst" ++ " = _mm256_fmadd_ps(" ++ operand "src1" ++ ", " ++ operand "src2" ++ ", " ++
      operand "dst" ++ ");")
    [vector .avx2 "dst", vector .avx2 "src1", vector .avx2 "src2"]
    .add "dst" (.mul (lane "src1") (lane "src2"))

/-- Like `multiplyAdd`, with the second factor in memory. -/
def multiplyAddMemory : Proc :=
  lanewise "avx2_fmadd_memu_ps"
    (operand "dst" ++ " = _mm256_fmadd_ps(" ++ operand "src1" ++ ", _mm256_loadu_ps(&" ++
      operand "src2" ++ "), " ++ operand "dst" ++ ");")
    [vector .avx2 "dst", vector .avx2 "src1", vector .dram "src2"]
    .add "dst" (.mul (lane "src1") (lane "src2"))

def loadVector : Proc :=
  lanewise "mm256_loadu_ps" (operand "dst" ++ " = _mm256_loadu_ps(&" ++ operand "src" ++ ");")
    [vector .avx2 "dst", vector .dram "src"] .set "dst" (lane "src")

def storeVector : Proc :=
  lanewise "mm256_storeu_ps" ("_mm256_storeu_ps(&" ++ operand "dst" ++ ", " ++ operand "src" ++ ");")
    [vector .dram "dst", vector .avx2 "src"] .set "dst" (lane "src")

def templates : Platform → List Proc
  | avx2 => [setZero, broadcast, multiplyAdd, multiplyAddMemory, loadVector, storeVector]

def catalog (p : Platform) : Catalog := (Catalog.registerAll {} p.templates).1

end Platform

end LoopNest
