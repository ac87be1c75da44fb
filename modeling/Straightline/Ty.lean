/-!
# Value types

Every value of a block is a machine word of one of seven types. `Ty.invalid` stands where no type
is known: the result of an unknown operator, the missing second operand of a unary one. It has no
bytes, no bits and an empty mask.

Values are kept zero-extended in 64 bits, so a type is used through its `mask`.
-/

namespace Straightline

/-- The type of a value. -/
inductive Ty where
  | invalid | i1 | i8 | i16 | i32 | i64 | f32 | f64
deriving DecidableEq, Inhabited

namespace Ty

/-- The types a value may have, narrowest first. -/
def all : List Ty := [i1, i8, i16, i32, i64, f32, f64]

def name : Ty → String
  | invalid => "INVALID"
  | i1 => "I1"
  | i8 => "I8"
  | i16 => "I16"
  | i32 => "I32"
  | i64 => "I64"
  | f32 => "F32"
  | f64 => "F64"

/-- The type spelled `n`; the spelling of `invalid` names no type. -/
def ofName? (n : String) : Option Ty := all.find? (·.name == n)

/-- The number of register or memory bytes a value occupies. -/
def bytes : Ty → Nat
  | invalid => 0
  | i1 | i8 => 1
  | i16 => 2
  | i32 | f32 => 4
  | i64 | f64 => 8

/-- The number of bytes as a register offset. -/
def size (t : Ty) : Int64 := .ofNat t.bytes

/-- The width of a value. A truth value is one bit wide although it occupies a byte. -/
def bits : Ty → Nat
  | i1 => 1
  | t => t.bytes * 8

/-- The low `bits` bits. -/
def mask (t : Ty) : UInt64 := .ofNat ((1 <<< t.bits) - 1)

def isInt : Ty → Bool
  | i1 | i8 | i16 | i32 | i64 => true
  | _ => false

end Ty
end Straightline
