import Straightline.Machine.Operator
import Straightline.Fault

/-!
# Simplifying right sides

`Expr.simplify` replaces a flat right side by a constant or by one of its operands where that is
sure to be the same value: operators on constants are computed, neutral operands dropped, and a
conditional with a constant condition decided. A constant operand of another type than the operator
asks for is refused.

Constants are computed on the bits as they stand, by rules of their own (`computed1`, `computed2`);
on bits that lie within the width of their tags these agree with what the machine computes. Shifts
by the width or more and floating-point arithmetic are left to the machine.
-/

namespace Straightline

/-- The low `n` bits of a word, with bit `n - 1` as the sign; `n` is not zero. -/
def signExtend (v : UInt64) (n : Nat) : UInt64 :=
  let s := 64 - n
  ((v <<< .ofNat s).toInt64 >>> .ofNat s).toUInt64

namespace Op

/-- A unary operator on the bits of a constant. -/
def computed1 (op : Op) (v : UInt64) : Option UInt64 :=
  match op with
  | not1 | not _ => some (~~~v)
  | convert c =>
    match c with
    | .s1to32 | .s1to64 => some (signExtend v 1)
    | .s8to32 => some (signExtend v 8)
    | .s16to32 => some (signExtend v 16)
    | .s32to64 => some (signExtend v 32)
    | .high64to32 => some (v >>> 32)
    | _ => some v
  | _ => none

/-- A shift of a word whose width is `w` bits, by less than `w`. -/
def computedShift (f : Shift) (w : Nat) (a b : UInt64) : UInt64 :=
  match f with
  | .shl => a <<< b
  | .shr => a >>> b
  | .sar => ((signExtend a w).toInt64 >>> b.toInt64).toUInt64

/-- A comparison of words of `w` bits. -/
def computedOrder (o : Order) (w : Nat) (a b : UInt64) : Bool :=
  match o with
  | .ltS => (signExtend a w).toInt64 < (signExtend b w).toInt64
  | .leS => (signExtend a w).toInt64 ≤ (signExtend b w).toInt64
  | .ltU => a < b
  | .leU => a ≤ b

/-- A binary operator on the bits of two constants. -/
def computed2 (op : Op) (a b : UInt64) : Option UInt64 :=
  match op with
  | arith f _ => some (f.apply a b)
  | shift f w => if b < .ofNat w.bits then some (computedShift f w.bits a b) else none
  | equal _ => some (flag (a == b))
  | differ _ => some (flag (a != b))
  | order32 o => some (flag (computedOrder o 32 a b))
  | order64 o => some (flag (computedOrder o 64 a b))
  | mullS32 => some ((signExtend a 32).toInt64 * (signExtend b 32).toInt64).toUInt64
  | mullU32 => some (a * b)
  | join32 => some (a <<< 32 ||| b)
  | _ => none

end Op

namespace Expr

/-- The constant that an expression is. -/
def const? : Expr → Option Const
  | const c => some c
  | _ => none

/-- Refuses a constant of another type than `want` as operand of `e`. -/
def demandType (e : Expr) (want : Ty) (c : Const) : Except Fault Unit :=
  if c.ty = want then .ok () else .error (.atExpr (.constOperand c.tag want) e)

/-- Whether an expression is a constant with the given bits. -/
def hasBits (v : UInt64) : Expr → Bool
  | const c => c.bits == v
  | _ => false

/-- The operand that a constant neutral operand leaves over. -/
def neutral? (op : Op) (a b : Expr) : Option Expr :=
  match op with
  | .shift _ _ | .arith .sub _ => if b.hasBits 0 then some a else none
  | .arith .or _ | .arith .add _ | .arith .xor _ =>
    if b.hasBits 0 then some a else if a.hasBits 0 then some b else none
  | .arith .and w =>
    if b.hasBits w.ty.mask then some a else if a.hasBits w.ty.mask then some b else none
  | _ => none

/-- The value of an operator at one temporary twice. -/
def doubled? (op : Op) (a b : Expr) : Option Expr :=
  match a, b with
  | tmp t, tmp u =>
    if t = u then
      match op with
      | .arith .and _ | .arith .or _ => some (tmp t)
      | .arith .xor w | .arith .sub w => some (const (.ofTy w.ty 0))
      | _ => none
    else none
  | _, _ => none

/-- A simpler right side of the same value, or the same right side. -/
def simplify : Expr → Except Fault Expr
  | unop op a =>
    match a.const? with
    | none => .ok (unop op a)
    | some c => do
      demandType (unop op a) op.arg1 c
      .ok (match op.computed1 c.bits with
        | some v => const (.ofTy op.result v)
        | none => unop op a)
  | binop op a b => do
    a.const?.forM (demandType (binop op a b) op.arg1)
    b.const?.forM (demandType (binop op a b) op.arg2)
    match a.const?, b.const? with
    | some c, some d =>
      .ok (match op.computed2 c.bits d.bits with
        | some v => const (.ofTy op.result v)
        | none => binop op a b)
    | _, _ => .ok ((neutral? op a b <|> doubled? op a b).getD (binop op a b))
  | select c z x =>
    match c.const? with
    | none => .ok (select c z x)
    | some k =>
      if k.tag = .u8 then .ok (if k.bits = 0 then z else x)
      else .error (.atExpr (.constCondition k.tag) (select c z x))
  | e => .ok e

end Expr
end Straightline
