import Straightline.Fault

/-!
# Flat form

In a flat block every operand outside the right side of an assignment is an atom, and so is every
operand of such a right side. `Block.flatten` gets there by giving each intermediate value a
temporary of its own, assigned in evaluation order right before the statement that needs it.
Floating-point constants given by their bits always get one, so that later stages can share them.

Trees nested deeper than `maxDepth` are refused.
-/

namespace Straightline
namespace Flat

/-- The deepest nesting of operands that is flattened. -/
def maxDepth : Nat := 512

/-- Code that is being emitted: from the types of the temporaries so far, a value, the statements
emitted on the way, and the types of the temporaries then. -/
def Emit (α : Type) : Type := Array Ty → Except Fault (α × List Stmt × Array Ty)

namespace Emit

variable {α β : Type}

/-- Emits nothing. -/
def just (a : α) : Emit α := fun temps => .ok (a, [], temps)

/-- Emits the code of `x`, then that of `f` at its value. -/
def andThen (x : Emit α) (f : α → Emit β) : Emit β := fun temps => do
  let (a, code, temps) ← x temps
  let (b, more, temps) ← f a temps
  .ok (b, code ++ more, temps)

instance : Monad Emit where
  pure := just
  bind := andThen

instance : LawfulMonad Emit :=
  .mk' Emit
    (fun x => by
      funext temps
      show andThen x just temps = x temps
      unfold andThen
      cases h : x temps with
      | error f => rfl
      | ok r => simp [just, bind, Except.bind])
    (fun a f => by
      funext temps
      show andThen (just a) f temps = f a temps
      unfold andThen
      cases h : f a temps with
      | error e => simp [just, bind, Except.bind, h]
      | ok r => simp [just, bind, Except.bind, h])
    (fun x f g => by
      funext temps
      show andThen (andThen x f) g temps = andThen x (fun a => andThen (f a) g) temps
      unfold andThen
      cases hx : x temps with
      | error e => rfl
      | ok r =>
        cases hf : f r.1 r.2.2 with
        | error e => simp [bind, Except.bind, hf]
        | ok u =>
          cases hg : g u.1 u.2.2 with
          | error e => simp [bind, Except.bind, hf, hg]
          | ok v => simp [bind, Except.bind, hf, hg])

/-- Emits a statement. -/
def stmt (s : Stmt) : Emit Unit := fun temps => .ok ((), [s], temps)

/-- Emits nothing and may fail. -/
def check (x : Except Fault α) : Emit α := fun temps => do
  let a ← x
  .ok (a, [], temps)

/-- Assigns `e` to a fresh temporary of its type. -/
def bindTemp (e : Expr) : Emit Expr := fun temps => do
  let ty ← e.typeIn temps
  let t : Temp := .ofNat temps.size
  .ok (.tmp t, [.assign t e], temps.push ty)

end Emit

/-- The expression with `f` run on its operands; a hole is refused. -/
def operands (f : Expr → Emit Expr) (e : Expr) : Emit Expr := do
  Emit.check e.demand
  e.mapChildrenM f

/-- An atom for the value of `e`, which may nest fewer than `n` levels deep. -/
def atomUpTo : Nat → Expr → Emit Expr
  | 0, e => Emit.check (.error (.atExpr (.tooDeep maxDepth) e))
  | n + 1, e =>
    match e with
    | .tmp t => pure (.tmp t)
    | .const c => if c.tag = .f64i then Emit.bindTemp (.const c) else pure (.const c)
    | e => do
      let e ← operands (atomUpTo n) e
      Emit.bindTemp e

/-- An atom for the operand of a statement. -/
def atom (e : Expr) : Emit Expr := atomUpTo (maxDepth + 1) e

/-- A right side whose operands are atoms. -/
def source (e : Expr) : Emit Expr :=
  if e.isAtom then pure e else operands (atomUpTo maxDepth) e

/-- A statement in flat form, behind the code for its operands. -/
def stmt : Stmt → Emit Unit
  | .noop => pure ()
  | .assign dst src => do
    let src ← source src
    Emit.stmt (.assign dst src)
  | s => do
    Emit.check s.demand
    let s ← s.mapOperandsM atom
    Emit.stmt s

/-- The statements and the successor of a block. -/
def body (next : Expr) : List Stmt → Emit Expr
  | [] => atom next
  | s :: ss => do
    stmt s
    body next ss

end Flat

/-- The block in flat form. -/
def Block.flatten (b : Block) : Except Fault Block := do
  let (next, stmts, temps) ← Flat.body b.next b.stmts b.temps
  .ok { b with temps, stmts, next }

end Straightline
