import Straightline.Journal

/-!
# Dropping indexed writes

An indexed write is dropped if a later indexed write stores to the same element before anything can
observe it. Observers are accesses that may overlap it, exits, fences, effects that touch registers,
and, if the oracle calls the window precise, memory accesses.
-/

namespace Straightline
namespace WindowWrites

/-- Whether one of the nodes reads what the access `acc` covers, or reads memory while `mem` says
that memory accesses are observers. A hole in front of the first such node is refused. -/
def readsIn (acc : Access) (mem : Bool) : List Expr → Except Fault Bool
  | [] => .ok false
  | e :: es =>
    match e with
    | .missing => .error (.atExpr .unknownExpr .missing)
    | .get off ty =>
      if (Access.fixed off ty).relate acc ≠ .noOverlap then .ok true else readsIn acc mem es
    | .getIx w ix bias =>
      if (Access.indexed w ix bias).relate acc ≠ .noOverlap then .ok true else readsIn acc mem es
    | .load _ _ => if mem then .ok true else readsIn acc mem es
    | _ => readsIn acc mem es

/-- What a later statement means for the write `acc`, apart from its operands. -/
inductive Verdict where
  /-- It overwrites the same element. -/
  | overwrites
  /-- It may observe the element. -/
  | observes
  /-- It does neither. -/
  | passes

/-- The verdict on a later statement. -/
def verdict (temps : Array Ty) (acc : Access) (mem : Bool) : Stmt → Except Fault Verdict
  | .putIx w ix bias _ =>
    .ok (match (Access.indexed w ix bias).relate acc with
      | .exact => .overwrites
      | .unknown => .observes
      | .noOverlap => .passes)
  | .put off data => do
    let ty ← data.typeIn temps
    .ok (if (Access.fixed off ty).relate acc = .noOverlap then .passes else .observes)
  | .exit _ _ _ | .fence => .ok .observes
  | .effect e => .ok (if e.touchesState || (mem && e.touchesMem) then .observes else .passes)
  | .store _ _ => .ok (if mem then .observes else .passes)
  | _ => .ok .passes

/-- The number of the statement that overwrites `acc` unobserved, among the later statements, the
first of which has number `j`. -/
def overwriter? (temps : Array Ty) (acc : Access) (mem : Bool) :
    Nat → List Stmt → Except Fault (Option Nat)
  | _, [] => .ok none
  | j, s :: ss => do
    match ← verdict temps acc mem s with
    | .overwrites => .ok (some j)
    | .observes => .ok none
    | .passes => do
      s.demand
      if ← readsIn acc mem s.nodes then .ok none else overwriter? temps acc mem (j + 1) ss

/-- Whether statement number `i`, in front of the statements `later`, stays. -/
def stays (o : Precise) (temps : Array Ty) (i : Nat) (later : List Stmt) : Stmt → Journaled Bool
  | .putIx w ix bias _ => do
    match ← .silent (overwriter? temps (.indexed w ix bias) (o.holds w.bounds) (i + 1) later) with
    | none => return true
    | some j =>
      .record (.writeRemoved i j w.bounds)
      return false
  | _ => return true

/-- What stays of the statements from number `i` on. -/
def stmts (o : Precise) (temps : Array Ty) : Nat → List Stmt → Journaled (List Stmt)
  | _, [] => return []
  | i, s :: ss => do
    let kept ← stays o temps i ss s
    let rest ← stmts o temps (i + 1) ss
    return if kept then s :: rest else rest

end WindowWrites

/-- The block without the indexed writes that nothing observes. -/
def Block.dropElements (b : Block) (o : Precise) : Journaled Block := do
  let stmts ← WindowWrites.stmts o b.temps 0 b.stmts
  return { b with stmts }

end Straightline
