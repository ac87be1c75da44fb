import Straightline.Expr

/-!
# Register accesses

What can be said, without running the block, about two accesses to the register file: that they
have no byte in common, that they are the same element, or nothing.

Two accesses through one window with one index differ by their displacements only, so the elements
are the same or disjoint. Accesses at fixed offsets are never reported as the same.
-/

namespace Straightline

/-- What is known about two accesses. -/
inductive Relation where
  | unknown | noOverlap | exact
deriving DecidableEq

def Relation.name : Relation → String
  | unknown => "Unknown"
  | noOverlap => "NoOverlap"
  | exact => "Exact"

/-- A read or write of registers. -/
inductive Access where
  | fixed (off : Int64) (ty : Ty)
  | indexed (w : Window) (ix : Expr) (bias : Int64)

namespace Access

/-- The bytes that the access may touch. -/
def bounds : Access → Region
  | fixed off ty => .ofTy off ty
  | indexed w _ _ => w.bounds

/-- Relates two accesses. -/
def relate (a b : Access) : Relation :=
  if !a.bounds.overlaps b.bounds then .noOverlap
  else
    match a, b with
    | indexed w ix bias, indexed w' ix' bias' =>
      if w ≠ w' then .unknown
      else if !ix.sameAtom ix' then .unknown
      else if w.slot? 0 bias ≠ w.slot? 0 bias' then .noOverlap
      else .exact
    | _, _ => .unknown

end Access

/-- Which registers have to hold their value whenever memory is accessed, because the access may
fault: the answer for the bytes from `lo` to `hi`, both included. -/
abbrev Precise := Int64 → Int64 → Bool

/-- The answer for a region. -/
def Precise.holds (p : Precise) (r : Region) : Bool := p r.lo (r.hi - 1)

/-- No register has to. -/
def Precise.none : Precise := fun _ _ => false

end Straightline
