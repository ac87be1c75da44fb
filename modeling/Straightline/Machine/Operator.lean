import Straightline.Op

/-!
# What operators compute

Operators work on values kept in 64 bits. `Op.apply1` and `Op.apply2` compute at the width that the
operator is about; the machine then cuts the result to the operator's type. An operator applied to
the wrong number of operands has no result.

A shift by the width or more leaves nothing, or the sign everywhere; the amount is the low byte of
the second operand. Changing the sign of a double flips its top bit.
-/

namespace Straightline

/-- One for true, zero for false. -/
def flag (b : Bool) : UInt64 := if b then 1 else 0

/-- The low `w` bits of a value. -/
def lowBits (w : Nat) (a : UInt64) : BitVec w := a.toBitVec.setWidth w

def Arith.apply (f : Arith) (a b : UInt64) : UInt64 :=
  match f with
  | add => a + b
  | sub => a - b
  | mul => a * b
  | or => a ||| b
  | and => a &&& b
  | xor => a ^^^ b

/-- Shifting a `w`-bit word by `n` places. -/
def Shift.apply {w : Nat} (f : Shift) (a : BitVec w) (n : Nat) : BitVec w :=
  match f with
  | shl => a <<< n
  | shr => a >>> n
  | sar => a.sshiftRight n

/-- Comparing two words of one width. -/
def Order.holds {w : Nat} (o : Order) (a b : BitVec w) : Bool :=
  match o with
  | ltS => a.slt b
  | ltU => a.ult b
  | leS => a.sle b
  | leU => a.ule b

def Conversion.apply (c : Conversion) (a : UInt64) : UInt64 :=
  match c with
  | u1to8 | u1to32 | u1to64 | low32to1 => a &&& 1
  | s1to32 | s1to64 => if a &&& 1 = 0 then 0 else ~~~0
  | u8to32 | u8to64 | low32to8 => a.toUInt8.toUInt64
  | s8to32 => a.toUInt8.toInt8.toInt32.toUInt32.toUInt64
  | u16to32 | low32to16 => a.toUInt16.toUInt64
  | s16to32 => a.toUInt16.toInt16.toInt32.toUInt32.toUInt64
  | u32to64 | low64to32 => a.toUInt32.toUInt64
  | s32to64 => a.toUInt32.toInt32.toInt64.toUInt64
  | high64to32 => a >>> 32

def FloatOp.apply (f : FloatOp) (a b : UInt64) : UInt64 :=
  let x := Float.ofBits a
  let y := Float.ofBits b
  match f with
  | add => (x + y).toBits
  | sub => (x - y).toBits
  | mul => (x * y).toBits
  | div => (x / y).toBits

namespace Op

/-- The result of a unary operator, before it is cut to the result type. -/
def apply1 (op : Op) (a : UInt64) : Option UInt64 :=
  match op with
  | not1 | not _ => some (~~~a)
  | convert c => some (c.apply a)
  | negF64 => some (a ^^^ 0x8000000000000000)
  | bitsOfF64 | f64OfBits => some a
  | _ => none

/-- The result of a binary operator, before it is cut to the result type. -/
def apply2 (op : Op) (a b : UInt64) : Option UInt64 :=
  match op with
  | arith f _ => some (f.apply a b)
  | shift f w =>
    some (.ofBitVec ((f.apply (lowBits w.bits a) b.toUInt8.toNat).setWidth 64))
  | equal _ => some (flag (a == b))
  | differ _ => some (flag (a != b))
  | order32 o => some (flag (o.holds (lowBits 32 a) (lowBits 32 b)))
  | order64 o => some (flag (o.holds a.toBitVec b.toBitVec))
  | mullS32 => some (a.toUInt32.toInt32.toInt64 * b.toUInt32.toInt32.toInt64).toUInt64
  | mullU32 => some (a.toUInt32.toUInt64 * b.toUInt32.toUInt64)
  | join32 => some (a.toUInt32.toUInt64 <<< 32 ||| b.toUInt32.toUInt64)
  | float f => some (f.apply a b)
  | _ => none

end Op
end Straightline
