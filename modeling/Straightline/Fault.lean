import Straightline.Block

/-!
# Faults

Work on a block stops for one of two reasons. The block is *ill formed*: it breaks the data model,
and the fault says how and at which node. Or the work *crashed*: it indexed outside a table,
divided by zero, asked for an argument that was not passed. The second kind carries nothing.
-/

namespace Straightline

/-- Uses of a value that has to be an address. -/
inductive AddressUse where
  | next | storeAddress | loadAddress | effectAddress
deriving DecidableEq

/-- How a block breaks the data model. -/
inductive Reason where
  | tempOutOfRange (count : Nat)
  | unknownExpr
  | unknownStmt
  | tempType (ty : Ty)
  | noSuccessor
  | jumpKind (k : JumpKind)
  | negativeLength
  | assignType (dst src : Ty)
  | negativeOffset
  | indexType (ty : Ty)
  | elementType (data elem : Ty)
  | guardType (ty : Ty)
  | exitTarget (tag : Tag)
  | noCallee
  | addressWithoutTouch
  | touchWithoutAddress
  | touchSize (n : Int64)
  | memTouch (t : Touch)
  | stateTouch (t : Touch)
  | stateRegion (off size : Int64)
  | guardedResult
  | useBeforeDef
  | constTag
  | constWidth
  | registerRead
  | notUnary (op : Op)
  | operandType (got want : Ty)
  | notBinary (op : Op)
  | firstOperandType (got want : Ty)
  | secondOperandType (got want : Ty)
  | loadType
  | badCall
  | conditionType (ty : Ty)
  | armTypes (ifZero other : Ty)
  | defTwice (t : Temp)
  | addressType (use : AddressUse) (ty : Ty)
  | window (w : Window)
  | notAtom
  | unknownEffect
  | unknownHelper
  | readOutside (bytes : Nat)
  | writeOutside (bytes : Nat)
  | unaryOp
  | binaryOp
  | constOperand (tag : Tag) (want : Ty)
  | constCondition (tag : Tag)
  | tooDeep (limit : Nat)
deriving DecidableEq

/-- The part of a block that a fault points at. -/
inductive Node where
  | expr (e : Expr)
  | stmt (s : Stmt)
  | block (b : Block)

/-- A broken rule and where it is broken; a hole is no place to point at. -/
structure IllFormed where
  reason : Reason
  node : Option Node

/-- Why work on a block stopped. -/
inductive Fault where
  | illFormed (e : IllFormed)
  | crash

namespace Fault

/-- The fault `r` at expression `e`. -/
def atExpr (r : Reason) : Expr → Fault
  | .missing => illFormed ⟨r, none⟩
  | e => illFormed ⟨r, some (.expr e)⟩

/-- The fault `r` at statement `s`. -/
def atStmt (r : Reason) : Stmt → Fault
  | .missing => illFormed ⟨r, none⟩
  | s => illFormed ⟨r, some (.stmt s)⟩

/-- The fault `r` of the block as a whole. -/
def atBlock (r : Reason) (b : Block) : Fault := illFormed ⟨r, some (.block b)⟩

end Fault

/-- Refuses a hole. -/
def Expr.demand : Expr → Except Fault Unit
  | .missing => .error (.atExpr .unknownExpr .missing)
  | _ => .ok ()

/-- Refuses a hole. -/
def Stmt.demand : Stmt → Except Fault Unit
  | .missing => .error (.atStmt .unknownStmt .missing)
  | _ => .ok ()

/-! ## Types -/

/-- The type of a temporary. -/
def tempTy (temps : Array Ty) (t : Temp) : Except Fault Ty :=
  match if t < 0 then none else temps[t.toNatClampNeg]? with
  | some ty => .ok ty
  | none => .error (.atExpr (.tempOutOfRange temps.size) (.tmp t))

/-- The type of an expression as its head announces it; the operands are not looked at. -/
def Expr.typeIn (temps : Array Ty) : Expr → Except Fault Ty
  | .missing => .error (.atExpr .unknownExpr .missing)
  | .tmp t => tempTy temps t
  | .const c => .ok c.ty
  | .get _ ty | .load ty _ | .call _ ty _ => .ok ty
  | .getIx w _ _ => .ok w.elem
  | .unop op _ | .binop op _ _ => .ok op.result
  | .select _ z _ => z.typeIn temps

end Straightline
