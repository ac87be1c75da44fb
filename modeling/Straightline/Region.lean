import Straightline.Ty

/-!
# Regions and windows of the register file

A `Region` is a half-open range of register bytes. A `Window` is a circular array laid over the
register file: the element an index selects depends on a value known only when the block runs, the
region that all its elements occupy does not.

Offsets are 64-bit words whose arithmetic wraps. Where a sum leaves the word, a region can end
before it starts; such a region overlaps nothing.
-/

namespace Straightline

/-- The register bytes `lo, …, hi - 1`. -/
structure Region where
  lo : Int64
  hi : Int64
deriving DecidableEq, Inhabited

namespace Region

/-- The bytes of a value of type `t` at offset `off`. -/
def ofTy (off : Int64) (t : Ty) : Region := ⟨off, off + t.size⟩

/-- Whether two regions have a byte in common. -/
def overlaps (r s : Region) : Bool := r.lo < s.hi && s.lo < r.hi

end Region

/-- A circular array of `count` elements of type `elem` from offset `base`. -/
structure Window where
  base : Int64
  elem : Ty
  count : Int64
deriving DecidableEq, Inhabited

namespace Window

/-- The region that all accesses through the window lie in. -/
def bounds (w : Window) : Region := ⟨w.base, w.base + w.count * w.elem.size⟩

/-- The element that index `ix` with displacement `bias` selects: their sum reduced by truncating
division, and moved up by one round if it is negative. A window of no elements has none. -/
def slot? (w : Window) (ix bias : Int64) : Option Int64 :=
  if w.count = 0 then none
  else
    let s := (ix + bias) % w.count
    some (if s < 0 then s + w.count else s)

/-- The register offset of the selected element. -/
def offset? (w : Window) (ix bias : Int64) : Option Int64 :=
  (w.slot? ix bias).map fun s => w.base + s * w.elem.size

end Window
end Straightline
