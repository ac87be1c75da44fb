import Straightline.Journal

/-!
# Reusing indexed reads

An indexed read takes the value of an earlier indexed write to the same element. The search goes
backward from the read, passes over accesses that are sure to be disjoint, and ends at anything that
it cannot see through.
-/

namespace Straightline
namespace WindowReads

/-- How the search for the value of a read ended. -/
inductive Found where
  /-- At the start of the block. -/
  | start
  /-- At statement `i`, whose relation to the read is known. -/
  | stop (i : Nat) (rel : Relation)
  /-- At statement `i`, which wrote the value. -/
  | value (i : Nat) (v : Expr)

/-- Searches for the value of the access `acc` of type `ty`, in the statements before it, the
nearest of which comes first and has number `n - 1`. -/
def search (temps : Array Ty) (acc : Access) (ty : Ty) : Nat → List Stmt → Except Fault Found
  | n + 1, s :: before =>
    match s with
    | .put off data => do
      let dty ← data.typeIn temps
      match (Access.fixed off dty).relate acc with
      | .noOverlap => search temps acc ty n before
      | rel => .ok (.stop n rel)
    | .putIx w ix bias data =>
      match (Access.indexed w ix bias).relate acc with
      | .noOverlap => search temps acc ty n before
      | .exact =>
        if data.isAtom then do
          let dty ← data.typeIn temps
          .ok (if dty = ty then .value n data else .stop n .exact)
        else .ok (.stop n .exact)
      | .unknown => .ok (.stop n .unknown)
    | .effect e => if e.writesState then .ok (.stop n .unknown) else search temps acc ty n before
    | _ => search temps acc ty n before
  | _, _ => .ok .start

/-- Statement number `i` behind the statements `before`, the nearest of which comes first. -/
def stmt (temps : Array Ty) (i : Nat) (before : List Stmt) : Stmt → Journaled Stmt
  | .assign dst (.getIx w ix bias) => do
    match ← .silent (search temps (.indexed w ix bias) w.elem i before) with
    | .start => return .assign dst (.getIx w ix bias)
    | .stop j rel =>
      .record (.readKept i j rel w.bounds)
      return .assign dst (.getIx w ix bias)
    | .value j v =>
      .record (.readForwarded i j w.bounds)
      return .assign dst v
  | s => return s

/-- Statements from number `i` on, behind the statements `before`. -/
def stmts (temps : Array Ty) : Nat → List Stmt → List Stmt → Journaled (List Stmt)
  | _, _, [] => return []
  | i, before, s :: ss => do
    let s' ← stmt temps i before s
    let ss' ← stmts temps (i + 1) (s :: before) ss
    return s' :: ss'

end WindowReads

/-- The block with indexed reads of known elements turned into copies. -/
def Block.reuseElements (b : Block) : Journaled Block := do
  let stmts ← WindowReads.stmts b.temps 0 [] b.stmts
  return { b with stmts }

end Straightline
