import Straightline.Ty

/-!
# Constants

A constant is a tag and 64 bits. A tag fixes the type; the two floating-point tags differ only in
how later stages treat the constant, a `f64i` one being kept out of operand position.
-/

namespace Straightline

/-- The width tag of a constant. -/
inductive Tag where
  | invalid | u1 | u8 | u16 | u32 | u64 | f64 | f64i
deriving DecidableEq, Inhabited

namespace Tag

/-- The tags a constant may have. -/
def all : List Tag := [u1, u8, u16, u32, u64, f64, f64i]

def name : Tag → String
  | invalid => "INVALID"
  | u1 => "U1"
  | u8 => "U8"
  | u16 => "U16"
  | u32 => "U32"
  | u64 => "U64"
  | f64 => "F64"
  | f64i => "F64i"

/-- The tag spelled `n`; the spelling of `invalid` names no tag. -/
def ofName? (n : String) : Option Tag := all.find? (·.name == n)

/-- The type of the constants with this tag. -/
def ty : Tag → Ty
  | invalid => .invalid
  | u1 => .i1
  | u8 => .i8
  | u16 => .i16
  | u32 => .i32
  | u64 => .i64
  | f64 | f64i => .f64

/-- Floating-point tags, whose constants are bit patterns of any value. -/
def isFloat : Tag → Bool
  | f64 | f64i => true
  | _ => false

end Tag

/-- The tag under which a value of type `t` is written; single precision has none. -/
def Ty.tag : Ty → Tag
  | .i1 => .u1
  | .i8 => .u8
  | .i16 => .u16
  | .i32 => .u32
  | .i64 => .u64
  | .f64 => .f64
  | .f32 | .invalid => .invalid

/-- A literal: its tag and its value, zero-extended, or the bit pattern of a double. -/
structure Const where
  tag : Tag
  bits : UInt64
deriving DecidableEq, Inhabited

namespace Const

/-- The constant of type `t` that holds the low bits of `v`. -/
def ofTy (t : Ty) (v : UInt64) : Const := ⟨t.tag, v &&& t.mask⟩

def ofBool (b : Bool) : Const := ⟨.u1, if b then 1 else 0⟩

def ty (c : Const) : Ty := c.tag.ty

def isTrue (c : Const) : Bool := c.tag == .u1 && c.bits == 1

def isFalse (c : Const) : Bool := c.tag == .u1 && c.bits == 0

/-- Whether the bits lie within the width of the tag. -/
def fits (c : Const) : Bool := c.tag.isFloat || c.bits &&& ~~~c.ty.mask == 0

end Const
end Straightline
