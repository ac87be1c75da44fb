import Straightline.Block

/-!
# Sharing computations

Going forward, a unary or binary operation on temporaries and constants that was computed before
becomes a copy of the first result, and so does a floating-point constant given by its bits.
Operands are first replaced by the temporary that they are themselves copies of.
-/

namespace Straightline
namespace Sharing

/-- The shape of a computation that can be shared. -/
inductive Shape where
  | unary
  | tempTemp
  | tempConst
  | constTemp
  | constant
deriving DecidableEq

/-- A computation that can be shared. An operand that the shape does not have is `noTemp`, and is
renamed like the others. -/
structure Computation where
  shape : Shape
  op : Op
  left : Temp
  right : Temp
  const : Const
deriving DecidableEq

namespace Computation

/-- The constant of the shapes that have none. -/
def noConst : Const := ⟨.invalid, 0⟩

/-- The right side as a computation. -/
def ofExpr? : Expr → Option Computation
  | .unop op (.tmp t) => some ⟨.unary, op, t, noTemp, noConst⟩
  | .binop op (.tmp t) (.tmp u) => some ⟨.tempTemp, op, t, u, noConst⟩
  | .binop op (.tmp t) (.const c) => some ⟨.tempConst, op, t, noTemp, c⟩
  | .binop op (.const c) (.tmp u) => some ⟨.constTemp, op, noTemp, u, c⟩
  | .const c => if c.tag = .f64i then some ⟨.constant, .invalid, noTemp, noTemp, c⟩ else none
  | _ => none

/-- The computation as a right side. -/
def expr (x : Computation) : Expr :=
  match x.shape with
  | .unary => .unop x.op (.tmp x.left)
  | .tempTemp => .binop x.op (.tmp x.left) (.tmp x.right)
  | .tempConst => .binop x.op (.tmp x.left) (.const x.const)
  | .constTemp => .binop x.op (.const x.const) (.tmp x.right)
  | .constant => .const x.const

/-- The computation with its operands renamed. -/
def rename (f : Temp → Temp) (x : Computation) : Computation :=
  { x with left := f x.left, right := f x.right }

end Computation

/-- What is known going forward: which temporary a copy stands for, and which temporary holds the
result of a computation. -/
structure Known where
  copyOf : Temp → Option Temp
  result : List (Computation × Temp)

namespace Known

def nothing : Known := ⟨fun _ => none, []⟩

/-- The temporary to use for `t`. -/
def rename (k : Known) (t : Temp) : Temp := (k.copyOf t).getD t

end Known

/-- One statement: what is known behind it, and the statement in its place. -/
def stmt (k : Known) : Stmt → Known × Stmt
  | .assign dst src =>
    match Computation.ofExpr? src with
    | none => (k, .assign dst src)
    | some x =>
      let x := x.rename k.rename
      match k.result.lookup x with
      | some t =>
        ({ k with copyOf := fun u => if u = dst then some t else k.copyOf u }, .assign dst (.tmp t))
      | none => ({ k with result := (x, dst) :: k.result }, .assign dst x.expr)
  | s => (k, s)

/-- Statements in order. -/
def stmts (k : Known) : List Stmt → List Stmt
  | [] => []
  | s :: ss =>
    let (k, s) := stmt k s
    s :: stmts k ss

end Sharing

/-- The block with repeated computations turned into copies. -/
def Block.share (b : Block) : Block := { b with stmts := Sharing.stmts .nothing b.stmts }

end Straightline
