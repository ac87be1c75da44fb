import Straightline.Ty

/-!
# Operators

Operators come in families indexed by width. An operator has a result type and one or two operand
types; `Ty.invalid` as second operand type marks a unary operator. `Op.table` lists the operators
in their fixed order, which the block generator draws from.
-/

namespace Straightline

/-- The widths of integer arithmetic. -/
inductive Width where
  | w8 | w16 | w32 | w64
deriving DecidableEq

namespace Width

def all : List Width := [w8, w16, w32, w64]

def name : Width → String
  | w8 => "8"
  | w16 => "16"
  | w32 => "32"
  | w64 => "64"

def ty : Width → Ty
  | w8 => .i8
  | w16 => .i16
  | w32 => .i32
  | w64 => .i64

def bits : Width → Nat
  | w8 => 8
  | w16 => 16
  | w32 => 32
  | w64 => 64

end Width

/-- Two-operand arithmetic whose result has the type of its operands. -/
inductive Arith where
  | add | sub | mul | or | and | xor
deriving DecidableEq

namespace Arith

def all : List Arith := [add, sub, mul, or, and, xor]

def name : Arith → String
  | add => "Add"
  | sub => "Sub"
  | mul => "Mul"
  | or => "Or"
  | and => "And"
  | xor => "Xor"

end Arith

/-- Shifts; the amount is a byte. -/
inductive Shift where
  | shl | shr | sar
deriving DecidableEq

namespace Shift

def all : List Shift := [shl, shr, sar]

def name : Shift → String
  | shl => "Shl"
  | shr => "Shr"
  | sar => "Sar"

end Shift

/-- Order comparisons, signed and unsigned. -/
inductive Order where
  | ltS | ltU | leS | leU
deriving DecidableEq

namespace Order

def all : List Order := [ltS, ltU, leS, leU]

def relation : Order → String
  | ltS | ltU => "CmpLT"
  | leS | leU => "CmpLE"

def sign : Order → String
  | ltS | leS => "S"
  | ltU | leU => "U"

end Order

/-- Changes of integer width: zero extension (`u`), sign extension (`s`), low part, high part. -/
inductive Conversion where
  | u1to8 | u1to32 | u1to64 | s1to32 | s1to64
  | u8to32 | s8to32 | u8to64 | u16to32 | s16to32 | u32to64 | s32to64
  | low32to1 | low32to8 | low32to16 | low64to32 | high64to32
deriving DecidableEq

namespace Conversion

def all : List Conversion :=
  [u1to8, u1to32, u1to64, s1to32, s1to64, u8to32, s8to32, u8to64, u16to32, s16to32, u32to64,
    s32to64, low32to1, low32to8, low32to16, low64to32, high64to32]

def name : Conversion → String
  | u1to8 => "1Uto8"
  | u1to32 => "1Uto32"
  | u1to64 => "1Uto64"
  | s1to32 => "1Sto32"
  | s1to64 => "1Sto64"
  | u8to32 => "8Uto32"
  | s8to32 => "8Sto32"
  | u8to64 => "8Uto64"
  | u16to32 => "16Uto32"
  | s16to32 => "16Sto32"
  | u32to64 => "32Uto64"
  | s32to64 => "32Sto64"
  | low32to1 => "32to1"
  | low32to8 => "32to8"
  | low32to16 => "32to16"
  | low64to32 => "64to32"
  | high64to32 => "64HIto32"

def source : Conversion → Ty
  | u1to8 | u1to32 | u1to64 | s1to32 | s1to64 => .i1
  | u8to32 | s8to32 | u8to64 => .i8
  | u16to32 | s16to32 => .i16
  | u32to64 | s32to64 | low32to1 | low32to8 | low32to16 => .i32
  | low64to32 | high64to32 => .i64

def target : Conversion → Ty
  | low32to1 => .i1
  | u1to8 | low32to8 => .i8
  | low32to16 => .i16
  | u1to32 | s1to32 | u8to32 | s8to32 | u16to32 | s16to32 | low64to32 | high64to32 => .i32
  | u1to64 | s1to64 | u8to64 | u32to64 | s32to64 => .i64

end Conversion

/-- Two-operand arithmetic on doubles. -/
inductive FloatOp where
  | add | sub | mul | div
deriving DecidableEq

namespace FloatOp

def all : List FloatOp := [add, sub, mul, div]

def name : FloatOp → String
  | add => "AddF64"
  | sub => "SubF64"
  | mul => "MulF64"
  | div => "DivF64"

end FloatOp

/-- An operator of the block language. -/
inductive Op where
  | invalid
  | arith (f : Arith) (w : Width)
  | shift (f : Shift) (w : Width)
  | equal (w : Width)
  | differ (w : Width)
  | order32 (o : Order)
  | order64 (o : Order)
  /-- The full product of two 32-bit words, signed. -/
  | mullS32
  /-- The full product of two 32-bit words, unsigned. -/
  | mullU32
  /-- A double word from its high and its low half. -/
  | join32
  | not1
  | not (w : Width)
  | convert (c : Conversion)
  | float (f : FloatOp)
  | negF64
  | bitsOfF64
  | f64OfBits
deriving DecidableEq, Inhabited

namespace Op

/-- All operators, in the order of the language's table. -/
def table : List Op :=
  Arith.all.flatMap (fun f => Width.all.map (arith f))
    ++ Shift.all.flatMap (fun f => Width.all.map (shift f))
    ++ Width.all.map equal ++ Width.all.map differ
    ++ Order.all.map order32 ++ Order.all.map order64
    ++ [mullS32, mullU32, join32, not1] ++ Width.all.map not
    ++ Conversion.all.map convert ++ FloatOp.all.map float
    ++ [negF64, bitsOfF64, f64OfBits]

def name : Op → String
  | invalid => "INVALID"
  | arith f w => f.name ++ w.name
  | shift f w => f.name ++ w.name
  | equal w => "CmpEQ" ++ w.name
  | differ w => "CmpNE" ++ w.name
  | order32 o => o.relation ++ "32" ++ o.sign
  | order64 o => o.relation ++ "64" ++ o.sign
  | mullS32 => "MullS32"
  | mullU32 => "MullU32"
  | join32 => "32HLto64"
  | not1 => "Not1"
  | not w => "Not" ++ w.name
  | convert c => c.name
  | float f => f.name
  | negF64 => "NegF64"
  | bitsOfF64 => "ReinterpF64asI64"
  | f64OfBits => "ReinterpI64asF64"

/-- The operator spelled `n`. -/
def ofName? (n : String) : Option Op := table.find? (·.name == n)

def isValid : Op → Bool
  | invalid => false
  | _ => true

/-- The type of the result. -/
def result : Op → Ty
  | invalid => .invalid
  | arith _ w | shift _ w | not w => w.ty
  | equal _ | differ _ | order32 _ | order64 _ | not1 => .i1
  | mullS32 | mullU32 | join32 | bitsOfF64 => .i64
  | convert c => c.target
  | float _ | negF64 | f64OfBits => .f64

/-- The type of the first operand. -/
def arg1 : Op → Ty
  | invalid => .invalid
  | arith _ w | shift _ w | not w | equal w | differ w => w.ty
  | order32 _ | mullS32 | mullU32 | join32 => .i32
  | order64 _ | f64OfBits => .i64
  | not1 => .i1
  | convert c => c.source
  | float _ | negF64 | bitsOfF64 => .f64

/-- The type of the second operand, `invalid` if there is none. -/
def arg2 : Op → Ty
  | arith _ w | equal w | differ w => w.ty
  | shift _ _ => .i8
  | order32 _ | mullS32 | mullU32 | join32 => .i32
  | order64 _ => .i64
  | float _ => .f64
  | invalid | not1 | not _ | convert _ | negF64 | bitsOfF64 | f64OfBits => .invalid

/-- The number of operands. -/
def arity (op : Op) : Nat :=
  if !op.isValid then 0 else if op.arg2 = .invalid then 1 else 2

def isShift : Op → Bool
  | shift _ _ => true
  | _ => false

end Op
end Straightline
