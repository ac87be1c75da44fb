import Straightline.BitSet
import Straightline.Journal
import Straightline.Pass.Propagate

/-!
# Dead code

Going backward from the jump, a temporary is live if a later statement that stays uses it. An
assignment to a temporary that is not live is dropped, and so is an effect whose guard is the
constant false. Other effects stay, whether or not their result is used.
-/

namespace Straightline
namespace Liveness

/-- The live temporaries with those used by the given nodes. A negative number cannot be added. -/
def addUses (live : BitSet) : List Expr → Except Fault BitSet
  | [] => .ok live
  | .missing :: _ => .error (.atExpr .unknownExpr .missing)
  | .tmp t :: es =>
    match live.insert t.toInt with
    | .ok live => addUses live es
    | .error _ => .error .crash
  | _ :: es => addUses live es

/-- The state of the backward walk: what is live, which assignments were dropped, what stays. -/
structure Sweep where
  live : BitSet
  dropped : BitSet
  kept : List Stmt

/-- Keeps a statement in front of a sweep. -/
def keep (w : Sweep) (s : Stmt) : Except Fault Sweep := do
  s.demand
  let live ← addUses w.live s.nodes
  .ok { w with live, kept := s :: w.kept }

/-- One statement in front of a sweep. -/
def stmt (w : Sweep) : Stmt → Except Fault Sweep
  | .noop => .ok w
  | .assign dst src =>
    if w.live.contains dst.toInt then keep w (.assign dst src)
    else
      match w.dropped.insert dst.toInt with
      | .ok dropped => .ok { w with dropped }
      | .error _ => .error .crash
  | .effect e => if Propagate.isFalseConst e.guard then .ok w else keep w (.effect e)
  | s => keep w s

/-- Statements, the last one first, in front of the temporaries live behind them. -/
def stmts (live : BitSet) : List Stmt → Except Fault Sweep
  | [] => .ok ⟨live, .empty, []⟩
  | s :: ss => do
    let w ← stmts live ss
    stmt w s

/-- The members of a set, if it was ever written to. -/
def members? (s : BitSet) : Option (List Nat) := if s.words.isEmpty then none else some s.toList

end Liveness

open Liveness in
/-- The block without its dead code. -/
def Block.sweep (b : Block) : Journaled Block := do
  let live ← .silent (addUses (.ofCapacity b.temps.size) b.next.nodes)
  .record (.liveOut live.toList)
  let w ← .silent (Liveness.stmts live b.stmts)
  .record (.deadCode (members? w.dropped) b.stmts.length w.kept.length)
  return { b with stmts := w.kept }

end Straightline
