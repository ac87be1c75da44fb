import Straightline.Journal
import Straightline.Pass.Flat

/-!
# Unrolling loops

A block that jumps back to its own address is a loop. Its body is repeated a few times, each copy
with temporaries of its own, as long as the result stays below a threshold. A block whose last
statement is an exit to its own address is a loop too: that exit is first inverted, so that it
leaves the loop and the jump repeats it.
-/

namespace Straightline
namespace Unroll

/-- How many copies of a body of `n` statements to chain under a threshold; zero for none. -/
def factor (n thresh : Int64) : Nat :=
  if thresh ≤ 0 then 0
  else if n ≤ thresh / 8 then 8
  else if n ≤ thresh / 4 then 4
  else if n ≤ thresh / 2 then 2
  else 0

/-- The expression with `d` added to its temporaries; a hole is refused. -/
def shiftExpr (d : Temp) (e : Expr) : Except Fault Expr :=
  if e.nodes.any Expr.isMissing then .error (.atExpr .unknownExpr .missing)
  else .ok (e.mapTemps (· + d))

/-- The statement with `d` added to its temporaries. -/
def shiftStmt (d : Temp) (s : Stmt) : Except Fault Stmt := do
  s.demand
  match ← s.mapOperandsM (shiftExpr d) with
  | .assign dst src => .ok (.assign (dst + d) src)
  | .effect e => .ok (.effect { e with result := e.result.bind fun t => Effect.resultOf (t + d) })
  | s => .ok s

/-- The copies of a body with numbers `k`, `k + 1`, …, `n` of them; each copy has `size`
temporaries. -/
def copies (size : Temp) (body : List Stmt) : Nat → Nat → Except Fault (List Stmt)
  | 0, _ => .ok []
  | n + 1, k => do
    let ss ← body.mapM (shiftStmt (.ofNat k * size))
    let rest ← copies size body n (k + 1)
    .ok (ss ++ rest)

/-- The types, `n` times over. -/
def repeatTemps (temps : Array Ty) : Nat → Array Ty
  | 0 => #[]
  | n + 1 => temps ++ repeatTemps temps n

/-- The body `n` times over, in flat form. -/
def repeated (b : Block) (n : Nat) : Except Fault Block := do
  let more ← copies (.ofNat b.temps.size) b.stmts (n - 1) 1
  Block.flatten { b with temps := repeatTemps b.temps n, stmts := b.stmts ++ more }

/-- The statements up to the last one that is no noop, that statement, and the noops behind it. -/
def splitLast? (ss : List Stmt) : Option (List Stmt × Stmt × List Stmt) :=
  let back := ss.reverse
  match back.dropWhile Stmt.isNoop with
  | [] => none
  | s :: front => some (front.reverse, s, back.takeWhile Stmt.isNoop)

/-- The loop with its last exit inverted, and the number of that exit. -/
def invert? (b : Block) (next : Const) (addr : UInt64) : Option (Nat × Block) :=
  match splitLast? b.stmts with
  | some (front, .exit guard .boring dst, noops) =>
    if dst.bits = addr ∧ dst.tag = next.tag then
      some (front.length,
        { b with
          stmts := front ++ .exit (.unop .not1 guard) .boring next :: noops
          next := .const dst })
    else none
  | _ => none

/-- A loop, and the number of its last exit if that was inverted. -/
structure Loop where
  body : Block
  inverted : Option Nat

/-- The block as a loop to `addr`. -/
def loop? (b : Block) (addr : UInt64) : Option Loop :=
  match b.kind, b.next with
  | .boring, .const next =>
    if next.tag = .u32 ∨ next.tag = .u64 then
      if next.bits = addr then some ⟨b, none⟩
      else (invert? b next addr).map fun r => ⟨r.2, some r.1⟩
    else none
  | _, _ => none

end Unroll

open Unroll in
/-- The unrolled loop and the number of copies, or nothing if the block is no loop to `addr` or is
too big. -/
def Block.unroll (b : Block) (addr : UInt64) (thresh : Int64) :
    Journaled (Option (Block × Nat)) := do
  if thresh ≤ 0 then
    return none
  else
    match loop? b addr with
    | none => return none
    | some l =>
      match l.inverted with
      | some i => .record (.exitInverted i addr)
      | none => pure ()
      match factor (.ofNat l.body.length) thresh with
      | 0 =>
        .record (.loopTooBig addr l.body.length thresh)
        return none
      | n =>
        let r ← .silent (repeated l.body n)
        return some (r, n)

end Straightline
