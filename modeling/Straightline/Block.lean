import Straightline.Expr
import Straightline.JumpKind

/-!
# Statements and blocks

A block is a straight-line sequence of statements and a jump. Its temporaries are numbered from
zero and typed by position. `Stmt.missing` is the hole that stands where a statement should be.

The operands of a statement are listed, and rebuilt, in the order in which a run evaluates them.
-/

namespace Straightline

/-- A declared touch of `size` register bytes at `off`. -/
structure RegTouch where
  touch : Touch
  off : Int64
  size : Int64
deriving DecidableEq, Inhabited

/-- A helper call with side effects. It happens only when `guard` holds; what it touches of memory
and registers is declared. -/
structure Effect where
  callee : String
  guard : Expr
  args : List Expr
  /-- The temporary that receives the helper's result. -/
  result : Option Temp
  memTouch : Touch
  /-- The touched address; `missing` when memory is not touched. -/
  memAddr : Expr
  memSize : Int64
  state : List RegTouch
deriving Inhabited

/-- A statement. -/
inductive Stmt where
  /-- No statement. -/
  | missing
  | noop
  /-- The statements that follow come from the `len` bytes of code at `addr`. -/
  | mark (addr : UInt64) (len : Int64)
  | assign (dst : Temp) (src : Expr)
  | put (off : Int64) (data : Expr)
  | putIx (w : Window) (ix : Expr) (bias : Int64) (data : Expr)
  | store (addr data : Expr)
  | effect (e : Effect)
  | fence
  /-- Leave the block for `dst` if `guard` holds. -/
  | exit (guard : Expr) (kind : JumpKind) (dst : Const)
deriving Inhabited

/-- Statements run in order, then control goes to `next`. -/
structure Block where
  /-- The types of the temporaries. -/
  temps : Array Ty
  stmts : List Stmt
  next : Expr
  kind : JumpKind
deriving Inhabited

def RegTouch.region (t : RegTouch) : Region := ⟨t.off, t.off + t.size⟩

namespace Effect

/-- Whether the helper may write some register byte. -/
def writesState (e : Effect) : Bool := e.state.any (·.touch.writes)

def touchesState (e : Effect) : Bool := !e.state.isEmpty

def touchesMem (e : Effect) : Bool := e.memTouch ≠ .none

/-- The result field that names temporary `t`; the marker `noTemp` names none. -/
def resultOf (t : Temp) : Option Temp := if t = noTemp then none else some t

/-- The address, if it is in use, then the guard, then the arguments. -/
def operands (e : Effect) : List Expr :=
  (if e.touchesMem then [e.memAddr] else []) ++ e.guard :: e.args

end Effect

namespace Stmt

def isNoop : Stmt → Bool
  | noop => true
  | _ => false

/-- The expressions a statement holds. -/
def operands : Stmt → List Expr
  | missing | noop | mark _ _ | fence => []
  | assign _ e | put _ e | exit e _ _ => [e]
  | putIx _ ix _ data => [ix, data]
  | store addr data => [addr, data]
  | effect e => e.operands

/-- The statement with `f` run on each operand, first to last. -/
def mapOperandsM {m : Type → Type} [Monad m] (f : Expr → m Expr) : Stmt → m Stmt
  | assign dst src => return assign dst (← f src)
  | put off data => return put off (← f data)
  | putIx w ix bias data => do
    let ix ← f ix
    return putIx w ix bias (← f data)
  | store addr data => do
    let addr ← f addr
    return store addr (← f data)
  | effect e => do
    let memAddr ← if e.touchesMem then f e.memAddr else pure e.memAddr
    let guard ← f e.guard
    let args ← e.args.mapM f
    return effect { e with memAddr, guard, args }
  | exit guard kind dst => return exit (← f guard) kind dst
  | s => pure s

/-- The statement with `f` applied to each operand. -/
def mapOperands (f : Expr → Expr) : Stmt → Stmt
  | assign dst src => assign dst (f src)
  | put off data => put off (f data)
  | putIx w ix bias data => putIx w (f ix) bias (f data)
  | store addr data => store (f addr) (f data)
  | effect e =>
    effect { e with
      memAddr := if e.touchesMem then f e.memAddr else e.memAddr
      guard := f e.guard
      args := e.args.map f }
  | exit guard kind dst => exit (f guard) kind dst
  | s => s

/-- The nodes of all operands, in order. -/
def nodes (s : Stmt) : List Expr := s.operands.flatMap Expr.nodes

/-- The temporary a statement defines. -/
def def? : Stmt → Option Temp
  | assign dst _ => some dst
  | effect e => e.result
  | _ => none

end Stmt

namespace Block

/-- The number of statements that do something. -/
def length (b : Block) : Nat := b.stmts.countP (!·.isNoop)

/-- The address of the code that the block starts with, if it is marked. -/
def addr? (b : Block) : Option UInt64 :=
  b.stmts.findSome? fun
    | .mark addr _ => some addr
    | _ => none

end Block
end Straightline
