import LoopNest.Kernel.Proc
import LoopNest.Text.Spelling

/-!
# Parameters spelled out

The text of a parameter with its expressions as trees, which tells apart what is printed alike.
-/

namespace LoopNest

def Op.tree : Op → String
  | .add => "Add"
  | .sub => "Sub"
  | .mul => "Mul"
  | .div => "Div"
  | .mod => "Mod"
  | .lt => "Lt"
  | .le => "Le"
  | .gt => "Gt"
  | .ge => "Ge"
  | .eq => "Eq"
  | .and => "And"

def Scalar.tree : Scalar → String
  | .f32 => "F32"
  | .f64 => "F64"
  | .i32 => "I32"
  | .i8 => "I8"

mutual

/-- The expression as a tree of its forms. -/
def Expr.tree : Expr → String
  | .var v => "Var(" ++ Text.spell v ++ ")"
  | .int n => "Int(" ++ n.text ++ ")"
  | .float x => "Float(" ++ Decimal.pointed.render x ++ ")"
  | .read b idx =>
    "Read(" ++ Text.spell b ++ ", [" ++ ", ".intercalate (Expr.trees idx) ++ "])"
  | .binary op l r => "Binary(" ++ ", ".intercalate [op.tree, l.tree, r.tree] ++ ")"
  | .neg e => "Neg(" ++ e.tree ++ ")"

def Expr.trees : List Expr → List String
  | [] => []
  | e :: es => e.tree :: Expr.trees es

end

def Param.tree : Param → String
  | .size n => n ++ ": size"
  | .buffer d =>
    d.name ++ ": " ++ d.ty.tree ++ "[" ++ ", ".intercalate (Expr.trees d.shape) ++ "] @ " ++
      d.mem.name

end LoopNest
