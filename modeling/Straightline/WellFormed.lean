import Straightline.Fault

/-!
# Well-formed blocks

`Block.check` verifies a block against the data model: operators get operands of their types,
temporaries are in range, defined once and before their uses, windows and offsets make sense, and
the successor is an address. In *flat* mode every operand outside the right side of an assignment
has to be an atom, and so do the operands of such a right side.

The check goes through the block in order, and the first broken rule is reported.
-/

namespace Straightline

/-- Goes on if `p` holds. -/
def require (p : Prop) [Decidable p] (f : Fault) : Except Fault Unit :=
  if p then .ok () else .error f

namespace WellFormed

/-- A window has elements and lies at an offset; `fault` places the complaint. -/
def checkWindow (w : Window) (fault : Reason → Fault) : Except Fault Unit :=
  require (0 < w.count ∧ w.elem.bytes ≠ 0 ∧ 0 ≤ w.base) (fault (.window w))

/-- The type `t` of the expression `e` is one that addresses have. -/
def checkAddressTy (use : AddressUse) (e : Expr) (t : Ty) : Except Fault Unit :=
  require (t = .i32 ∨ t = .i64) (.atExpr (.addressType use t) e)

mutual

/-- The type of an expression all of whose parts are in order, given the defined temporaries. -/
def checkExpr (temps : Array Ty) (defs : List Temp) : Expr → Except Fault Ty
  | .missing => .error (.atExpr .unknownExpr .missing)
  | .tmp t => do
    let ty ← tempTy temps t
    require (t ∈ defs) (.atExpr .useBeforeDef (.tmp t))
    .ok ty
  | .const c => do
    require (c.ty ≠ .invalid) (.atExpr .constTag (.const c))
    require (c.fits = true) (.atExpr .constWidth (.const c))
    .ok c.ty
  | .get off ty => do
    require (0 ≤ off ∧ ty.bytes ≠ 0) (.atExpr .registerRead (.get off ty))
    .ok ty
  | .getIx w ix bias => do
    checkWindow w (.atExpr · (.getIx w ix bias))
    let t ← checkExpr temps defs ix
    require (t = .i32) (.atExpr (.indexType t) (.getIx w ix bias))
    .ok w.elem
  | .unop op a => do
    require (op.arity = 1) (.atExpr (.notUnary op) (.unop op a))
    let t ← checkExpr temps defs a
    require (t = op.arg1) (.atExpr (.operandType t op.arg1) (.unop op a))
    .ok op.result
  | .binop op a b => do
    require (op.arity = 2) (.atExpr (.notBinary op) (.binop op a b))
    let t ← checkExpr temps defs a
    require (t = op.arg1) (.atExpr (.firstOperandType t op.arg1) (.binop op a b))
    let t ← checkExpr temps defs b
    require (t = op.arg2) (.atExpr (.secondOperandType t op.arg2) (.binop op a b))
    .ok op.result
  | .load ty a => do
    require (ty.bytes ≠ 0) (.atExpr .loadType (.load ty a))
    let t ← checkExpr temps defs a
    checkAddressTy .loadAddress a t
    .ok ty
  | .call callee ty args => do
    require (callee ≠ "" ∧ ty.bytes ≠ 0) (.atExpr .badCall (.call callee ty args))
    checkExprs temps defs args
    .ok ty
  | .select c z x => do
    let t ← checkExpr temps defs c
    require (t = .i8) (.atExpr (.conditionType t) (.select c z x))
    let tz ← checkExpr temps defs z
    let tx ← checkExpr temps defs x
    require (tz = tx) (.atExpr (.armTypes tz tx) (.select c z x))
    .ok tz

/-- Several expressions, first to last. -/
def checkExprs (temps : Array Ty) (defs : List Temp) : List Expr → Except Fault Unit
  | [] => .ok ()
  | e :: es => do
    let _ ← checkExpr temps defs e
    checkExprs temps defs es

end

/-- An address. -/
def checkAddress (temps : Array Ty) (defs : List Temp) (use : AddressUse) (e : Expr) :
    Except Fault Unit := do
  let t ← checkExpr temps defs e
  checkAddressTy use e t

/-- In flat mode, an atom. -/
def checkAtom (flat : Bool) (e : Expr) : Except Fault Unit :=
  require (flat = true → e.isAtom = true) (.atExpr .notAtom e)

/-- In flat mode, an expression whose operands are atoms. -/
def checkShallow (flat : Bool) (e : Expr) : Except Fault Unit :=
  if flat then do
    e.demand
    e.children.forM (checkAtom true)
  else .ok ()

/-- The defined temporaries after the statement `s` has defined `t`. -/
def define (temps : Array Ty) (defs : List Temp) (t : Temp) (s : Stmt) :
    Except Fault (List Temp) := do
  let _ ← tempTy temps t
  require (t ∉ defs) (.atStmt (.defTwice t) s)
  .ok (t :: defs)

/-- The declared touch of memory. -/
def checkMemTouch (temps : Array Ty) (flat : Bool) (defs : List Temp) (e : Effect) :
    Except Fault Unit :=
  match e.memTouch with
  | .none =>
    require (e.memAddr.isMissing = true ∧ e.memSize = 0) (.atStmt .addressWithoutTouch (.effect e))
  | .read | .write | .modify => do
    require (e.memAddr.isMissing = false) (.atStmt .touchWithoutAddress (.effect e))
    checkAtom flat e.memAddr
    checkAddress temps defs .effectAddress e.memAddr
    require (0 < e.memSize) (.atStmt (.touchSize e.memSize) (.effect e))
  | .other _ => .error (.atStmt (.memTouch e.memTouch) (.effect e))

/-- A declared touch of registers. -/
def checkRegTouch (e : Effect) (t : RegTouch) : Except Fault Unit := do
  require (t.touch ≠ .none ∧ t.touch.isValid = true) (.atStmt (.stateTouch t.touch) (.effect e))
  require (0 ≤ t.off ∧ 0 < t.size) (.atStmt (.stateRegion t.off t.size) (.effect e))

/-- Whether an expression is the constant true. -/
def isTrueConst : Expr → Bool
  | .const c => c.isTrue
  | _ => false

/-- An effect. Its result is defined only if it is sure to happen. -/
def checkEffect (temps : Array Ty) (flat : Bool) (defs : List Temp) (e : Effect) :
    Except Fault (List Temp) := do
  require (e.callee ≠ "") (.atStmt .noCallee (.effect e))
  checkAtom flat e.guard
  let t ← checkExpr temps defs e.guard
  require (t = .i1) (.atStmt (.guardType t) (.effect e))
  e.args.forM fun a => do
    checkAtom flat a
    let _ ← checkExpr temps defs a
  checkMemTouch temps flat defs e
  e.state.forM (checkRegTouch e)
  match e.result with
  | none => .ok defs
  | some t => do
    require (isTrueConst e.guard = true) (.atStmt .guardedResult (.effect e))
    define temps defs t (.effect e)

/-- A statement, given the temporaries defined before it: those defined after it. -/
def checkStmt (temps : Array Ty) (flat : Bool) (defs : List Temp) :
    Stmt → Except Fault (List Temp)
  | .missing => .error (.atStmt .unknownStmt .missing)
  | .noop | .fence => .ok defs
  | .mark addr len => do
    require (0 ≤ len) (.atStmt .negativeLength (.mark addr len))
    .ok defs
  | .assign dst src => do
    checkShallow flat src
    let st ← checkExpr temps defs src
    let dt ← tempTy temps dst
    require (dt = st) (.atStmt (.assignType dt st) (.assign dst src))
    define temps defs dst (.assign dst src)
  | .put off data => do
    checkAtom flat data
    let _ ← checkExpr temps defs data
    require (0 ≤ off) (.atStmt .negativeOffset (.put off data))
    .ok defs
  | .putIx w ix bias data => do
    checkAtom flat ix
    checkAtom flat data
    checkWindow w (.atStmt · (.putIx w ix bias data))
    let t ← checkExpr temps defs ix
    require (t = .i32) (.atStmt (.indexType t) (.putIx w ix bias data))
    let t ← checkExpr temps defs data
    require (t = w.elem) (.atStmt (.elementType t w.elem) (.putIx w ix bias data))
    .ok defs
  | .store addr data => do
    checkAtom flat addr
    checkAtom flat data
    checkAddress temps defs .storeAddress addr
    let _ ← checkExpr temps defs data
    .ok defs
  | .effect e => checkEffect temps flat defs e
  | .exit guard kind dst => do
    checkAtom flat guard
    let t ← checkExpr temps defs guard
    require (t = .i1) (.atStmt (.guardType t) (.exit guard kind dst))
    require (dst.tag = .u32 ∨ dst.tag = .u64)
      (.atStmt (.exitTarget dst.tag) (.exit guard kind dst))
    require (kind.isValid = true) (.atStmt (.jumpKind kind) (.exit guard kind dst))
    .ok defs

/-- Statements in order. -/
def checkStmts (temps : Array Ty) (flat : Bool) :
    List Temp → List Stmt → Except Fault (List Temp)
  | defs, [] => .ok defs
  | defs, s :: ss => do
    let defs ← checkStmt temps flat defs s
    checkStmts temps flat defs ss

/-- The types of the temporaries, the first of which has number `i`. -/
def checkTemps : Nat → List Ty → Except Fault Unit
  | _, [] => .ok ()
  | i, t :: ts => do
    require (t.bytes ≠ 0) (.atExpr (.tempType t) (.tmp (.ofNat i)))
    checkTemps (i + 1) ts

end WellFormed

open WellFormed in
/-- Verifies a block against the data model. -/
def Block.check (b : Block) (flat : Bool) : Except Fault Unit := do
  checkTemps 0 b.temps.toList
  let defs ← checkStmts b.temps flat [] b.stmts
  require (b.next.isMissing = false) (.atBlock .noSuccessor b)
  checkAtom flat b.next
  checkAddress b.temps defs .next b.next
  require (b.kind.isValid = true) (.atBlock (.jumpKind b.kind) b)

end Straightline
