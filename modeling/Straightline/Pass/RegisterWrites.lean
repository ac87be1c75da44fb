import Straightline.Access
import Straightline.Fault

/-!
# Dropping register writes

Going backward, a register write is dropped if the same bytes are written again before anything can
observe them. Observers are reads of overlapping registers, exits, effects and fences. A memory
access observes the registers that the oracle calls precise, because it may fault.
-/

namespace Straightline
namespace RegisterWrites

/-- The slots that will be written again before anything observes them. -/
abbrev Pending := List Region

namespace Pending

/-- Forgets the slots that a read of `r` observes. -/
def observe (p : Pending) (r : Region) : Pending := p.filter fun s => !s.overlaps r

/-- Forgets the slots that a memory access observes. -/
def observePrecise (p : Pending) (o : Precise) : Pending := p.filter fun s => !o.holds s

/-- What a node of an operand observes; a hole is refused. -/
def node (o : Precise) (p : Pending) : Expr → Except Fault Pending
  | .missing => .error (.atExpr .unknownExpr .missing)
  | .get off ty => .ok (p.observe (.ofTy off ty))
  | .getIx w _ _ => .ok (p.observe w.bounds)
  | .load _ _ => .ok (p.observePrecise o)
  | _ => .ok p

/-- What a statement observes by evaluating its operands. -/
def operands (o : Precise) (p : Pending) (s : Stmt) : Except Fault Pending := do
  s.demand
  s.nodes.foldlM (node o) p

end Pending

/-- One statement in front of the slots pending behind it: the slots pending before it, and what is
left of it. -/
def stmt (o : Precise) (temps : Array Ty) (p : Pending) :
    Stmt → Except Fault (Pending × Option Stmt)
  | .noop => .ok (p, none)
  | .put off data => do
    let ty ← data.typeIn temps
    let slot := Region.ofTy off ty
    if slot ∈ p then .ok (p, none)
    else do
      let p ← Pending.operands o (slot :: p) (.put off data)
      .ok (p, some (.put off data))
  | s => do
    let p := match s with
      | .exit _ _ _ | .effect _ | .fence => []
      | .store _ _ => p.observePrecise o
      | _ => p
    let p ← Pending.operands o p s
    .ok (p, some s)

/-- Statements, the last one first: the slots pending before them, and what is left of them. -/
def stmts (o : Precise) (temps : Array Ty) : List Stmt → Except Fault (Pending × List Stmt)
  | [] => .ok ([], [])
  | s :: ss => do
    let (p, ss) ← stmts o temps ss
    let (p, s) ← stmt o temps p s
    .ok (p, s.toList ++ ss)

end RegisterWrites

/-- The block without the register writes that nothing observes. -/
def Block.dropWrites (b : Block) (o : Precise) : Except Fault Block := do
  let (_, stmts) ← RegisterWrites.stmts o b.temps b.stmts
  .ok { b with stmts }

end Straightline
