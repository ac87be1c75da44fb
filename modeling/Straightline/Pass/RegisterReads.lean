import Straightline.Fault

/-!
# Reusing register reads

Going forward, the value of a register slot is known after a read of it and after a write of an
atom to it, until an overlapping write. A read of a slot whose value is known becomes a copy of that
value, if the types agree. Slots are told apart by the bytes they cover.
-/

namespace Straightline
namespace RegisterReads

/-- The slots whose values are known, each at most once. -/
abbrev Known := List (Region × Expr)

namespace Known

/-- The value of a slot. -/
def find? (k : Known) (r : Region) : Option Expr := k.lookup r

/-- From here on the slot `r` holds `e`. -/
def learn (k : Known) (r : Region) (e : Expr) : Known := (r, e) :: k.filter (·.1 ≠ r)

/-- Forgets all slots that overlap `r`. -/
def forget (k : Known) (r : Region) : Known := k.filter fun s => !s.1.overlaps r

end Known

/-- One statement: the slots known behind it, and the statement in its place. -/
def stmt (temps : Array Ty) (k : Known) : Stmt → Except Fault (Known × Stmt)
  | .assign dst (.get off ty) =>
    match k.find? (.ofTy off ty) with
    | none => .ok (k.learn (.ofTy off ty) (.tmp dst), .assign dst (.get off ty))
    | some v => do
      let vty ← v.typeIn temps
      .ok (k, .assign dst (if vty = ty then v else .get off ty))
  | .put off data => do
    let ty ← data.typeIn temps
    let slot := Region.ofTy off ty
    let k := k.forget slot
    .ok (if data.isAtom then k.learn slot data else k, .put off data)
  | .putIx w ix bias data => .ok (k.forget w.bounds, .putIx w ix bias data)
  | .effect e => .ok (if e.writesState then [] else k, .effect e)
  | s => .ok (k, s)

/-- Statements in order. -/
def stmts (temps : Array Ty) (k : Known) : List Stmt → Except Fault (List Stmt)
  | [] => .ok []
  | s :: ss => do
    let (k, s) ← stmt temps k s
    let ss ← stmts temps k ss
    .ok (s :: ss)

end RegisterReads

/-- The block with reads of known register slots turned into copies. -/
def Block.reuseReads (b : Block) : Except Fault Block := do
  let stmts ← RegisterReads.stmts b.temps [] b.stmts
  .ok { b with stmts }

end Straightline
