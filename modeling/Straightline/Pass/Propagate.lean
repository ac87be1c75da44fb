import Straightline.Pass.Simplify

/-!
# Propagating constants and copies

Going forward, every use of a temporary that was assigned an atom is replaced by that atom, the
assignment is dropped, and every other right side is simplified. An exit that can never be taken is
dropped. Floating-point constants given by their bits stay assigned, so that they can be shared.
-/

namespace Straightline

/-- The atoms that stand for temporaries. -/
abbrev Subst := Temp → Option Expr

namespace Subst

def empty : Subst := fun _ => none

/-- From here on `t` stands for `e`. -/
def bind (σ : Subst) (t : Temp) (e : Expr) : Subst := fun u => if u = t then some e else σ u

/-- Replaces a temporary; other expressions stay. -/
def apply (σ : Subst) : Expr → Expr
  | .tmp t => (σ t).getD (.tmp t)
  | e => e

end Subst

namespace Propagate

/-- Temporaries and all constants but the ones that stay assigned. -/
def isCopyable : Expr → Bool
  | .tmp _ => true
  | .const c => c.tag != .f64i
  | _ => false

/-- The right side after replacement of its operands. -/
def source (σ : Subst) (e : Expr) : Except Fault Expr :=
  if e.isAtom then .ok (σ.apply e)
  else do
    e.demand
    (e.mapChildren σ.apply).simplify

/-- Whether a guard is the constant false. -/
def isFalseConst : Expr → Bool
  | .const c => c.isFalse
  | _ => false

/-- One statement: the replacements that hold behind it, and what is left of it. -/
def stmt (σ : Subst) : Stmt → Except Fault (Subst × Option Stmt)
  | .noop => .ok (σ, none)
  | .assign dst src => do
    let src ← source σ src
    .ok (if isCopyable src then (σ.bind dst src, none) else (σ, some (.assign dst src)))
  | .exit guard kind dst =>
    let guard := σ.apply guard
    .ok (σ, if isFalseConst guard then none else some (.exit guard kind dst))
  | s => do
    s.demand
    .ok (σ, some (s.mapOperands σ.apply))

/-- Statements in order: the replacements that hold behind them, and what is left of them. -/
def stmts (σ : Subst) : List Stmt → Except Fault (Subst × List Stmt)
  | [] => .ok (σ, [])
  | s :: ss => do
    let (σ, s) ← stmt σ s
    let (σ, ss) ← stmts σ ss
    .ok (σ, s.toList ++ ss)

end Propagate

/-- The block with constants and copies propagated. -/
def Block.propagate (b : Block) : Except Fault Block := do
  let (σ, stmts) ← Propagate.stmts .empty b.stmts
  .ok { b with stmts, next := σ.apply b.next }

end Straightline
