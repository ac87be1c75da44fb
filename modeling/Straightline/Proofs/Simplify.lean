import Mathlib
import Straightline.Pass.Simplify
import Straightline.Proofs.Evaluation

/-!
# Simplified right sides have the same value

A typed right side is simplified without a failure, and what it becomes can stand for it
(`Expr.simplify_spec`): same type, same value on every machine. `simplified_right_sides_agree` says
so of the expressions that the checker accepts, and of the operators on constants which of them are
computed.

Constants are computed on 64-bit words, the machine computes at the operator's width. The two are
brought together on low bits: `signExtend` is sign extension of the low bits
(`toBitVec_signExtend`), and words with the same low bits are cut alike (`and_mask_congr`).
-/

namespace Straightline

/-! ## Low bits -/

theorem smod_shift : ∀ s < 64, (Int64.ofNat s).toBitVec.smod 64 = BitVec.ofNat 64 s := by decide

theorem toBitVec_signExtend (v : UInt64) {n : Nat} (hn : 0 < n) (hle : n ≤ 64) :
    (signExtend v n).toBitVec = (lowBits n v).signExtend 64 := by
  have hs : 64 - n < 64 := by omega
  have hshift : (signExtend v n).toBitVec = (v.toBitVec <<< (64 - n)).sshiftRight (64 - n) := by
    -- words are shifted by the amount modulo 64, taken with its sign to the right
    show (v <<< .ofNat (64 - n)).toBitVec.sshiftRight'
      ((Int64.ofNat (64 - n)).toBitVec.smod 64) = _
    have hl : ((UInt64.ofNat (64 - n)).toBitVec % 64).toNat = 64 - n := by
      rw [BitVec.toNat_umod]
      simp [UInt64.ofNat]
      omega
    have hr : (BitVec.ofNat 64 (64 - n)).toNat = 64 - n := by
      rw [BitVec.toNat_ofNat]
      omega
    rw [smod_shift _ hs, UInt64.toBitVec_shiftLeft, BitVec.shiftLeft_eq', hl, BitVec.sshiftRight',
      hr]
  rw [hshift]
  -- bit by bit: below `n` a bit of the word, above it the sign, which stood at the top
  apply BitVec.eq_of_getLsbD_eq
  intro i hi
  rw [BitVec.getLsbD_sshiftRight, BitVec.getLsbD_signExtend, BitVec.msb_eq_getLsbD_last,
    BitVec.msb_eq_getLsbD_last, BitVec.getLsbD_shiftLeft, BitVec.getLsbD_shiftLeft, lowBits,
    BitVec.getLsbD_setWidth, BitVec.getLsbD_setWidth]
  grind

/-- Words with the same low bits are cut alike. -/
theorem and_mask_congr {T : Ty} {u v : UInt64} (h : lowBits T.bits u = lowBits T.bits v) :
    u &&& T.mask = v &&& T.mask := by
  rw [← UInt64.toNat_inj, Ty.toNat_and_mask, Ty.toNat_and_mask]
  have h' := congrArg BitVec.toNat h
  simpa [lowBits] using h'

theorem toInt_signExtend (v : UInt64) {n : Nat} (hn : 0 < n) (hle : n ≤ 64) :
    (signExtend v n).toInt64.toInt = (lowBits n v).toInt := by
  show (signExtend v n).toBitVec.toInt = _
  rw [toBitVec_signExtend v hn hle, BitVec.toInt_signExtend_of_le hle]

theorem lowBits_signExtend (v : UInt64) {n w : Nat} (hn : 0 < n) (hle : n ≤ w) (hw : w ≤ 64) :
    lowBits w (signExtend v n) = (lowBits n v).signExtend w := by
  rw [lowBits, toBitVec_signExtend v hn (hle.trans hw)]
  apply BitVec.eq_of_getLsbD_eq
  intro i hi
  simp [BitVec.getLsbD_signExtend]
  grind

theorem lt_ofNat_iff {b : UInt64} {n : Nat} (hn : n ≤ 64) : b < .ofNat n ↔ b.toNat < n := by
  rw [UInt64.lt_iff_toNat_lt, UInt64.toNat_ofNat']
  omega

theorem lowBits_ofBitVec {w : Nat} (hw : w ≤ 64) (x : BitVec w) :
    lowBits w (.ofBitVec (x.setWidth 64)) = x := by
  apply BitVec.eq_of_toNat_eq
  have hx := x.isLt
  have hpow : 2 ^ w ≤ 2 ^ 64 := Nat.pow_le_pow_right (by omega) hw
  rw [lowBits, BitVec.toNat_setWidth, BitVec.toNat_setWidth,
    Nat.mod_eq_of_lt (hx.trans_le hpow), Nat.mod_eq_of_lt hx]

theorem lowBits_shiftLeft {w : Nat} (hw : w ≤ 64) (a : UInt64) {b : UInt64} (hb : b.toNat < 64) :
    lowBits w (a <<< b) = lowBits w a <<< b.toNat := by
  apply BitVec.eq_of_getLsbD_eq
  intro i hi
  have hmod : (b.toBitVec % 64).toNat = b.toNat := by
    rw [BitVec.toNat_umod]
    simp
    omega
  rw [lowBits, UInt64.toBitVec_shiftLeft, BitVec.shiftLeft_eq', hmod]
  simp [lowBits, hi]
  grind

theorem lowBits_shiftRight {T : Ty} {a b : UInt64} (ha : T.Fits a) (hb : b.toNat < 64) :
    lowBits T.bits (a >>> b) = lowBits T.bits a >>> b.toNat := by
  have hlt := Ty.fits_iff_lt.mp ha
  have hle : a.toNat >>> b.toNat ≤ a.toNat := Nat.shiftRight_le _ _
  apply BitVec.eq_of_toNat_eq
  rw [lowBits, lowBits, BitVec.toNat_ushiftRight, BitVec.toNat_setWidth, BitVec.toNat_setWidth]
  show (a >>> b).toNat % _ = (a.toNat % _) >>> _
  rw [UInt64.toNat_shiftRight, Nat.mod_eq_of_lt hb, Nat.mod_eq_of_lt hlt,
    Nat.mod_eq_of_lt (by omega)]

theorem lowBits_sar (w : Nat) (hpos : 0 < w) (hw : w ≤ 64) (a : UInt64) {b : UInt64}
    (hb : b.toNat < 64) :
    lowBits w ((signExtend a w).toInt64 >>> b.toInt64).toUInt64 =
      (lowBits w a).sshiftRight b.toNat := by
  have hmod : b.toBitVec.smod 64 = b.toBitVec := by
    have h := smod_shift b.toNat hb
    have hof : (Int64.ofNat b.toNat).toBitVec = b.toBitVec := by
      show BitVec.ofNat 64 b.toNat = _
      apply BitVec.eq_of_toNat_eq
      simp
    rw [hof] at h
    rw [h]
    apply BitVec.eq_of_toNat_eq
    simp
  rw [lowBits]
  show BitVec.setWidth w ((signExtend a w).toBitVec.sshiftRight' (b.toBitVec.smod 64)) = _
  rw [hmod, toBitVec_signExtend a hpos hw, BitVec.sshiftRight']
  apply BitVec.eq_of_getLsbD_eq
  intro i hi
  rw [BitVec.getLsbD_setWidth, BitVec.getLsbD_sshiftRight, BitVec.getLsbD_sshiftRight]
  simp [BitVec.getLsbD_signExtend, hi]
  grind

theorem toUInt32_of_fits {v : UInt64} (h : Ty.i32.Fits v) : v.toUInt32.toUInt64 = v := by
  have := Ty.fits_iff_lt.mp h
  simp [Ty.bits, Ty.bytes] at this
  rw [← UInt64.toNat_inj]
  simp
  omega

namespace Conversion

theorem signExtend_one {v : UInt64} (h : Ty.i1.Fits v) :
    signExtend v 1 = if v &&& 1 = 0 then 0 else ~~~0 := by
  have hlt := Ty.fits_iff_lt.mp h
  have hv : v = 0 ∨ v = 1 := by
    rw [← UInt64.toNat_inj, ← UInt64.toNat_inj]
    simp [Ty.bits] at hlt ⊢
    omega
  rcases hv with rfl | rfl <;> decide

/-- What a conversion computes on a constant is what the machine computes, cut to the target. -/
theorem apply_eq_computed1 {c : Conversion} {v r : UInt64} (h : c.source.Fits v)
    (hr : (Op.convert c).computed1 v = some r) :
    c.apply v &&& c.target.mask = r &&& c.target.mask := by
  have hlt := Ty.fits_iff_lt.mp h
  cases c with
  | s1to32 | s1to64 =>
    rw [Op.computed1, Option.some.injEq, signExtend_one h] at hr
    rw [← hr, apply]
  | s8to32 | s16to32 =>
    rw [Op.computed1, Option.some.injEq] at hr
    rw [← hr]
    apply and_mask_congr
    show lowBits 32 _ = lowBits 32 _
    rw [lowBits_signExtend v (by omega) (by omega) (by omega)]
    simp [apply, lowBits]
  | s32to64 =>
    rw [Op.computed1, Option.some.injEq] at hr
    rw [← hr]
    apply and_mask_congr
    show lowBits 64 _ = lowBits 64 _
    rw [lowBits_signExtend v (by omega) (by omega) (by omega)]
    simp [apply, lowBits]
  | high64to32 =>
    rw [Op.computed1, Option.some.injEq] at hr
    rw [← hr, apply]
  | low32to1 | low32to8 | low32to16 | low64to32 =>
    obtain rfl : v = r := Option.some.inj hr
    rw [← UInt64.toNat_inj, Ty.toNat_and_mask, Ty.toNat_and_mask]
    simp [apply, target, Ty.bits, Ty.bytes]
  | _ =>
    -- zero extensions, where the machine cuts the word to a type that it fits
    obtain rfl : v = r := Option.some.inj hr
    rw [← UInt64.toNat_inj, Ty.toNat_and_mask, Ty.toNat_and_mask]
    simp [apply, target, source, Ty.bits, Ty.bytes] at hlt ⊢
    omega

end Conversion

namespace Op

theorem computed1_spec {op : Op} {v r : UInt64} (h : op.arg1.Fits v)
    (hr : op.computed1 v = some r) :
    ∃ r', op.apply1 v = some r' ∧ r' &&& op.result.mask = r &&& op.result.mask := by
  cases op with
  | not1 | not w =>
    rw [computed1, Option.some.injEq] at hr
    exact ⟨_, rfl, by rw [← hr]⟩
  | convert c => exact ⟨_, rfl, Conversion.apply_eq_computed1 h hr⟩
  | _ => simp [computed1] at hr

theorem computedOrder_eq {o : Order} {T : Ty} {a b : UInt64} (hT : 0 < T.bits)
    (ha : T.Fits a) (hb : T.Fits b) :
    computedOrder o T.bits a b = o.holds (lowBits T.bits a) (lowBits T.bits b) := by
  have hle := T.bits_le
  have hbits : ∀ {v}, T.Fits v → (lowBits T.bits v).toNat = v.toNat := by
    intro v hv
    rw [lowBits, BitVec.toNat_setWidth]
    exact Nat.mod_eq_of_lt (Ty.fits_iff_lt.mp hv)
  cases o with
  | ltS =>
    rw [Bool.eq_iff_iff, Order.holds, BitVec.slt_iff_toInt_lt, computedOrder, decide_eq_true_eq,
      Int64.lt_iff_toInt_lt, toInt_signExtend _ hT hle, toInt_signExtend _ hT hle]
  | leS =>
    rw [Bool.eq_iff_iff, Order.holds, BitVec.sle_iff_toInt_le, computedOrder, decide_eq_true_eq,
      Int64.le_iff_toInt_le, toInt_signExtend _ hT hle, toInt_signExtend _ hT hle]
  | ltU =>
    rw [Bool.eq_iff_iff, Order.holds, BitVec.ult_iff_toNat_lt, computedOrder, decide_eq_true_eq,
      UInt64.lt_iff_toNat_lt, hbits ha, hbits hb]
  | leU =>
    rw [Bool.eq_iff_iff, Order.holds, BitVec.ule_iff_toNat_le, computedOrder, decide_eq_true_eq,
      UInt64.le_iff_toNat_le, hbits ha, hbits hb]

theorem computedShift_spec {f : Shift} {w : Width} {a b : UInt64} (ha : w.ty.Fits a)
    (hb : b < .ofNat w.bits) :
    UInt64.ofBitVec ((f.apply (lowBits w.bits a) b.toUInt8.toNat).setWidth 64) &&& w.ty.mask =
      computedShift f w.bits a b &&& w.ty.mask := by
  have hw := w.bits_le
  have hn : b.toNat < w.bits := (lt_ofNat_iff hw).mp hb
  have hn8 : b.toUInt8.toNat = b.toNat := by
    rw [UInt64.toNat_toUInt8]
    omega
  apply and_mask_congr
  rw [w.bits_ty, hn8, lowBits_ofBitVec hw]
  cases f with
  | shl => exact (lowBits_shiftLeft hw a (by omega)).symm
  | shr => rw [computedShift, ← w.bits_ty, lowBits_shiftRight ha (by omega), Shift.apply]
  | sar => exact (lowBits_sar _ w.bits_pos hw a (by omega)).symm

theorem computed2_spec {op : Op} {a b r : UInt64} (ha : op.arg1.Fits a) (hb : op.arg2.Fits b)
    (hr : op.computed2 a b = some r) :
    ∃ r', op.apply2 a b = some r' ∧ r' &&& op.result.mask = r &&& op.result.mask := by
  cases op with
  | arith f w | equal w | differ w =>
    rw [computed2, Option.some.injEq] at hr
    exact ⟨_, rfl, by rw [← hr]⟩
  | shift f w =>
    rw [computed2, Option.ite_none_right_eq_some, Option.some.injEq] at hr
    refine ⟨_, rfl, ?_⟩
    rw [← hr.2]
    exact computedShift_spec ha hr.1
  | order32 o =>
    rw [computed2, Option.some.injEq] at hr
    refine ⟨_, rfl, ?_⟩
    rw [← hr]
    exact congrArg (flag · &&& _) (computedOrder_eq (T := .i32) (by decide) ha hb).symm
  | order64 o =>
    rw [computed2, Option.some.injEq] at hr
    have hbits : ∀ v : UInt64, lowBits 64 v = v.toBitVec := fun v => BitVec.setWidth_eq _
    refine ⟨_, rfl, ?_⟩
    have horder : computedOrder o 64 a b = o.holds (lowBits 64 a) (lowBits 64 b) :=
      computedOrder_eq (T := .i64) (by decide) ha hb
    rw [hbits, hbits] at horder
    rw [← hr, horder]
  | mullS32 =>
    rw [computed2, Option.some.injEq] at hr
    refine ⟨_, rfl, ?_⟩
    have hsign : ∀ v : UInt64, (signExtend v 32).toInt64 = v.toUInt32.toInt32.toInt64 := by
      intro v
      rw [← Int64.toBitVec_inj]
      exact toBitVec_signExtend v (by omega) (by omega)
    rw [← hr, hsign, hsign]
  | mullU32 | join32 =>
    rw [computed2, Option.some.injEq] at hr
    refine ⟨_, rfl, ?_⟩
    rw [← hr, toUInt32_of_fits ha, toUInt32_of_fits hb]
  | _ => simp [computed2] at hr

/-! ## Operators that are computed -/

/-- The operators that take or give doubles. -/
def onDoubles : Op → Bool
  | float _ | negF64 | bitsOfF64 | f64OfBits => true
  | _ => false

/-- A shift of a word by its width or more. -/
def ShiftsOut (op : Op) (n : UInt64) : Prop := ∃ f w, op = .shift f w ∧ w.bits ≤ n.toNat

/-- A unary operator is computed on every word, unless it is one on doubles. -/
theorem computed1_eq_none {op : Op} (hop : op.arity = 1) (v : UInt64) :
    op.computed1 v = none ↔ op.onDoubles = true := by
  cases op with
  | arith _ w | equal w | differ w => simp [arity, isValid, arg2, w.ty_ne_invalid] at hop
  | convert c => cases c <;> simp [computed1, onDoubles]
  | _ => simp_all [arity, isValid, arg2, computed1, onDoubles]

/-- A binary operator is computed on all words, unless it is one on doubles or shifts the word
out. -/
theorem computed2_eq_none {op : Op} (hop : op.arity = 2) (a b : UInt64) :
    op.computed2 a b = none ↔ op.onDoubles = true ∨ op.ShiftsOut b := by
  cases op with
  | shift f w =>
    have hout : ShiftsOut (.shift f w) b ↔ w.bits ≤ b.toNat := by
      constructor
      · rintro ⟨f', w', heq, h⟩
        cases heq
        exact h
      · exact fun h => ⟨f, w, rfl, h⟩
    simp [computed2, onDoubles, hout, lt_ofNat_iff w.bits_le]
  | _ => simp_all [arity, isValid, arg2, computed2, onDoubles, ShiftsOut]

/-- The constant that is made of a computed word has the value that the machine computes. -/
theorem computed1_const {op : Op} {c : Const} {v : UInt64} (hc : c.ty = op.arg1)
    (hfits : c.fits = true) (hv : op.computed1 c.bits = some v) :
    (op.apply1 c.bits).map (· &&& op.result.mask) = some (Const.ofTy op.result v).bits := by
  obtain ⟨r, hr, hcut⟩ := computed1_spec (hc ▸ Const.fits_bits hfits) hv
  rw [hr, Option.map_some, hcut]
  rfl

theorem computed2_const {op : Op} {c d : Const} {v : UInt64} (hc : c.ty = op.arg1)
    (hd : d.ty = op.arg2) (hcfits : c.fits = true) (hdfits : d.fits = true)
    (hv : op.computed2 c.bits d.bits = some v) :
    (op.apply2 c.bits d.bits).map (· &&& op.result.mask) =
      some (Const.ofTy op.result v).bits := by
  obtain ⟨r, hr, hcut⟩ := computed2_spec (hc ▸ Const.fits_bits hcfits)
    (hd ▸ Const.fits_bits hdfits) hv
  rw [hr, Option.map_some, hcut]
  rfl

end Op

/-! ## Right sides -/

namespace Expr

variable {P : Policy} {temps : Array Ty} {defs : List Temp} {T : Ty} {op : Op} {a b e e' : Expr}
  {v : UInt64}

/-- `e'` can stand for `e`, of type `T`: it has that type, and every value that `e` has. It has no
operands unless `e` has them. -/
structure StandsFor (P : Policy) (temps : Array Ty) (defs : List Temp) (T : Ty) (e e' : Expr) :
    Prop where
  hasTy : e'.HasTy P temps defs T
  flat : (∀ c ∈ e.children, c.isAtom = true) → ∀ c ∈ e'.children, c.isAtom = true
  eval : ∀ m : Machine, m.temps = temps → m.ValsFit → ∀ v, m.eval e = .ok v → m.eval e' = .ok v

theorem StandsFor.self (h : e.HasTy P temps defs T) : StandsFor P temps defs T e e :=
  ⟨h, fun h => h, fun _ _ _ _ => id⟩

/-- What is put in place of the expression, if anything is, can stand for it. -/
theorem StandsFor.getD {o : Option Expr} (h : e.HasTy P temps defs T)
    (ho : ∀ e', o = some e' → StandsFor P temps defs T e e') :
    StandsFor P temps defs T e (o.getD e) := by
  cases o with
  | none => exact .self h
  | some e' => exact ho e' rfl

/-- An operand that has the value of the whole can stand for it. -/
theorem StandsFor.operand (hmem : e' ∈ e.children) (hT : e'.HasTy P temps defs T)
    (heval : ∀ m : Machine, m.temps = temps → m.ValsFit → ∀ v, m.eval e = .ok v →
      m.eval e' = .ok v) : StandsFor P temps defs T e e' :=
  ⟨hT, fun h c hc => by simp [children_of_isAtom (h e' hmem)] at hc, heval⟩

/-- A computed constant can stand for an operator that has this value. -/
theorem StandsFor.ofTy (hT : T.tag ≠ .invalid) (r : UInt64)
    (heval : ∀ m : Machine, m.temps = temps → m.ValsFit → ∀ v, m.eval e = .ok v →
      v = r &&& T.mask) : StandsFor P temps defs T e (.const (.ofTy T r)) := by
  refine ⟨⟨Const.ty_ofTy hT r, ?_, Const.fits_ofTy hT r⟩, fun _ c hc => ?_, ?_⟩
  · intro h
    simp [h, Ty.tag] at hT
  · simp [children] at hc
  · intro m htemps hfit v hv
    rw [Machine.eval_const, heval m htemps hfit v hv]
    rfl

theorem const?_eq_some {c : Const} : e.const? = some c ↔ e = .const c := by
  cases e <;> simp [const?]

theorem demandType_eq_ok {c : Const} (h : (Expr.const c).HasTy P temps defs T) :
    demandType e T c = .ok () := by
  simp [demandType, h.1]

theorem hasBits_iff : e.hasBits v = true ↔ ∃ c, e = .const c ∧ c.bits = v := by
  cases e <;> simp [hasBits]

/-! ### Neutral operands -/

/-- The second operand leaves every first operand as it is. -/
def RightNeutral (op : Op) (y : UInt64) : Prop :=
  ∀ x r, op.arg1.Fits x → op.apply2 x y = some r → r &&& op.result.mask = x

/-- The first operand leaves every second operand as it is. -/
def LeftNeutral (op : Op) (x : UInt64) : Prop :=
  ∀ y r, op.arg2.Fits y → op.apply2 x y = some r → r &&& op.result.mask = y

theorem StandsFor.left (hop : op.result = op.arg1) (ha : a.HasTy P temps defs op.arg1)
    (hb : b.hasBits v = true) (hneutral : RightNeutral op v) :
    StandsFor P temps defs op.result (.binop op a b) a := by
  refine .operand (by simp [children]) (hop ▸ ha) ?_
  intro m htemps hfit u hu
  obtain ⟨c, rfl, hc⟩ := hasBits_iff.mp hb
  obtain ⟨x, y, r, hx, hy, hr, hv⟩ := Machine.eval_binop_eq_ok.mp hu
  rw [Machine.eval_const, Except.ok.injEq, hc] at hy
  rw [← hv, hneutral x r (Machine.eval_fits hfit (htemps ▸ ha) hx) (hy ▸ hr), hx]

theorem StandsFor.right (hop : op.result = op.arg2) (hb : b.HasTy P temps defs op.arg2)
    (ha : a.hasBits v = true) (hneutral : LeftNeutral op v) :
    StandsFor P temps defs op.result (.binop op a b) b := by
  refine .operand (by simp [children]) (hop ▸ hb) ?_
  intro m htemps hfit u hu
  obtain ⟨c, rfl, hc⟩ := hasBits_iff.mp ha
  obtain ⟨x, y, r, hx, hy, hr, hv⟩ := Machine.eval_binop_eq_ok.mp hu
  rw [Machine.eval_const, Except.ok.injEq, hc] at hx
  rw [← hv, hneutral y r (Machine.eval_fits hfit (htemps ▸ hb) hy) (hx ▸ hr), hy]

theorem rightNeutral_arith {f : Arith} {w : Width} {y : UInt64}
    (h : ∀ x, w.ty.Fits x → f.apply x y &&& w.ty.mask = x) : RightNeutral (.arith f w) y := by
  intro x r hx hr
  rw [Op.apply2, Option.some.injEq] at hr
  rw [← hr]
  exact h x hx

theorem leftNeutral_arith {f : Arith} {w : Width} {x : UInt64}
    (h : ∀ y, w.ty.Fits y → f.apply x y &&& w.ty.mask = y) : LeftNeutral (.arith f w) x := by
  intro y r hy hr
  rw [Op.apply2, Option.some.injEq] at hr
  rw [← hr]
  exact h y hy

theorem rightNeutral_shift (f : Shift) (w : Width) : RightNeutral (.shift f w) 0 := by
  intro x r hx hr
  have hzero : f.apply (lowBits w.bits x) 0 = lowBits w.bits x := by
    cases f <;> simp [Shift.apply]
  have hcut : r &&& w.ty.mask = x &&& w.ty.mask := by
    rw [Op.apply2, Option.some.injEq] at hr
    apply and_mask_congr
    rw [← hr, w.bits_ty, show (0 : UInt64).toUInt8.toNat = 0 from rfl, hzero,
      lowBits_ofBitVec w.bits_le]
  exact hcut.trans hx

/-- Of an operator with a neutral word the operand on the other side can stand for the whole. -/
theorem StandsFor.neutral (hleft : op.result = op.arg1) (hright : op.result = op.arg2)
    (ha : a.HasTy P temps defs op.arg1) (hb : b.HasTy P temps defs op.arg2)
    (hr : RightNeutral op v) (hl : LeftNeutral op v)
    (h : (if b.hasBits v then some a else if a.hasBits v then some b else none) = some e) :
    StandsFor P temps defs op.result (.binop op a b) e := by
  by_cases hbits : b.hasBits v = true
  · rw [if_pos hbits, Option.some.injEq] at h
    exact h ▸ .left hleft ha hbits hr
  · rw [if_neg hbits, Option.ite_none_right_eq_some, Option.some.injEq] at h
    obtain ⟨hbits', rfl⟩ := h
    exact .right hright hb hbits' hl

theorem neutral?_spec {e : Expr} (h : neutral? op a b = some e)
    (ha : a.HasTy P temps defs op.arg1) (hb : b.HasTy P temps defs op.arg2) :
    StandsFor P temps defs op.result (.binop op a b) e := by
  cases op with
  | shift f w =>
    simp only [neutral?, Option.ite_none_right_eq_some, Option.some.injEq] at h
    obtain ⟨hbits, rfl⟩ := h
    exact .left rfl ha hbits (rightNeutral_shift f w)
  | arith f w =>
    cases f with
    | sub =>
      simp only [neutral?, Option.ite_none_right_eq_some, Option.some.injEq] at h
      obtain ⟨hbits, rfl⟩ := h
      refine .left rfl ha hbits (rightNeutral_arith fun x hx => ?_)
      simpa [Arith.apply, Ty.Fits] using hx
    | mul => simp [neutral?] at h
    | add | or | xor =>
      refine .neutral rfl rfl ha hb (rightNeutral_arith fun x hx => ?_)
        (leftNeutral_arith fun y hy => ?_) h
      · simpa [Arith.apply, Ty.Fits] using hx
      · simpa [Arith.apply, Ty.Fits] using hy
    | and =>
      refine .neutral rfl rfl ha hb (rightNeutral_arith fun x hx => ?_)
        (leftNeutral_arith fun y hy => ?_) h
      · rw [Arith.apply, UInt64.and_assoc, UInt64.and_self]
        exact hx
      · rw [Arith.apply, UInt64.and_comm w.ty.mask, UInt64.and_assoc, UInt64.and_self]
        exact hy
  | _ => simp [neutral?] at h

/-! ### One temporary twice -/

theorem eval_doubled {m : Machine} {f : Arith} {w : Width} {x : UInt64}
    (h : m.eval (.binop (.arith f w) a a) = .ok v) (hx : m.eval a = .ok x) :
    v = f.apply x x &&& w.ty.mask := by
  obtain ⟨x₁, x₂, r, h₁, h₂, hr, hv⟩ := Machine.eval_binop_eq_ok.mp h
  rw [hx, Except.ok.injEq] at h₁ h₂
  rw [← h₁, ← h₂, Op.apply2, Option.some.injEq] at hr
  rw [← hv, ← hr]
  rfl

theorem StandsFor.idempotent {f : Arith} {w : Width} (h : ∀ x, f.apply x x = x)
    (ha : a.HasTy P temps defs w.ty) : StandsFor P temps defs w.ty (.binop (.arith f w) a a) a := by
  refine .operand (by simp [children]) ha ?_
  intro m htemps hfit v hv
  obtain ⟨x, y, r, hx, -⟩ := Machine.eval_binop_eq_ok.mp hv
  rw [eval_doubled hv hx, h, hx, Machine.eval_fits hfit (htemps ▸ ha) hx]

theorem StandsFor.cancel {f : Arith} {w : Width} (h : ∀ x, f.apply x x = 0) :
    StandsFor P temps defs w.ty (.binop (.arith f w) a a) (.const (.ofTy w.ty 0)) := by
  refine .ofTy w.tag_ty 0 ?_
  intro m _ _ v hv
  obtain ⟨x, y, r, hx, -⟩ := Machine.eval_binop_eq_ok.mp hv
  rw [eval_doubled hv hx, h]

theorem doubled?_spec {e : Expr} (h : doubled? op a b = some e)
    (ha : a.HasTy P temps defs op.arg1) :
    StandsFor P temps defs op.result (.binop op a b) e := by
  unfold doubled? at h
  split at h
  · rw [Option.ite_none_right_eq_some] at h
    obtain ⟨rfl, h⟩ := h
    split at h <;> cases h
    · exact .idempotent (fun x => UInt64.and_self) ha
    · exact .idempotent (fun x => UInt64.or_self) ha
    · exact .cancel fun x => UInt64.xor_self
    · exact .cancel fun x => UInt64.sub_self x
  · simp at h

/-! ### The right side -/

theorem computed1_standsFor {c : Const} {r : UInt64} (hop : op.arity = 1)
    (hc : (Expr.const c).HasTy P temps defs op.arg1) (hr : op.computed1 c.bits = some r) :
    StandsFor P temps defs op.result (.unop op (.const c)) (.const (.ofTy op.result r)) := by
  refine .ofTy (Op.tag_result (Op.ne_invalid_of_arity hop)) r ?_
  intro m _ _ v hv
  obtain ⟨x, r', hx, hr', hv⟩ := Machine.eval_unop_eq_ok.mp hv
  rw [Machine.eval_const, Except.ok.injEq] at hx
  have hconst := Op.computed1_const hc.1 hc.2.2 hr
  rw [hx, hr', Option.map_some, Option.some.injEq] at hconst
  exact hv.symm.trans hconst

theorem computed2_standsFor {c d : Const} {r : UInt64} (hop : op.arity = 2)
    (hc : (Expr.const c).HasTy P temps defs op.arg1)
    (hd : (Expr.const d).HasTy P temps defs op.arg2) (hr : op.computed2 c.bits d.bits = some r) :
    StandsFor P temps defs op.result (.binop op (.const c) (.const d))
      (.const (.ofTy op.result r)) := by
  refine .ofTy (Op.tag_result (Op.ne_invalid_of_arity hop)) r ?_
  intro m _ _ v hv
  obtain ⟨x, y, r', hx, hy, hr', hv⟩ := Machine.eval_binop_eq_ok.mp hv
  rw [Machine.eval_const, Except.ok.injEq] at hx hy
  have hconst := Op.computed2_const hc.1 hd.1 hc.2.2 hd.2.2 hr
  rw [hx, hy, hr', Option.map_some, Option.some.injEq] at hconst
  exact hv.symm.trans hconst

theorem select_standsFor {k : Const} {z x : Expr}
    (hT : (Expr.select (.const k) z x).HasTy P temps defs T) :
    StandsFor P temps defs T (.select (.const k) z x) (if k.bits = 0 then z else x) := by
  obtain ⟨hk, hz, hx⟩ := hT
  have hcut : k.bits &&& 0xff = k.bits := by
    have hfit := Const.fits_bits hk.2.2
    rw [hk.1] at hfit
    exact hfit
  split <;> rename_i hbits
  · refine .operand (by simp [children]) hz ?_
    intro m _ _ v hv
    obtain ⟨vc, vz, vx, hc, hz, -, hv⟩ := Machine.eval_select_eq_ok.mp hv
    rw [Machine.eval_const, Except.ok.injEq] at hc
    rw [← hc, hcut, if_pos hbits] at hv
    rw [hz, hv]
  · refine .operand (by simp [children]) hx ?_
    intro m _ _ v hv
    obtain ⟨vc, vz, vx, hc, -, hx, hv⟩ := Machine.eval_select_eq_ok.mp hv
    rw [Machine.eval_const, Except.ok.injEq] at hc
    rw [← hc, hcut, if_neg hbits] at hv
    rw [hx, hv]

theorem forM_demandType (h : a.HasTy P temps defs T) :
    a.const?.forM (demandType e T) = .ok () := by
  cases hc : a.const? with
  | none => rfl
  | some c =>
    rw [const?_eq_some.mp hc] at h
    exact demandType_eq_ok h

theorem simplify_unop_const {c : Const} (hc : (Expr.const c).HasTy P temps defs op.arg1) :
    (unop op (.const c)).simplify =
      .ok (((op.computed1 c.bits).map (const <| .ofTy op.result ·)).getD (unop op (.const c))) := by
  simp only [simplify, const?, bind_eq_ok]
  refine ⟨(), demandType_eq_ok hc, ?_⟩
  cases op.computed1 c.bits <;> rfl

theorem simplify_binop_const {c d : Const} (hc : (Expr.const c).HasTy P temps defs op.arg1)
    (hd : (Expr.const d).HasTy P temps defs op.arg2) :
    (binop op (.const c) (.const d)).simplify =
      .ok (((op.computed2 c.bits d.bits).map (const <| .ofTy op.result ·)).getD
        (binop op (.const c) (.const d))) := by
  simp only [simplify, const?, bind_eq_ok]
  refine ⟨(), demandType_eq_ok hc, (), demandType_eq_ok hd, ?_⟩
  cases op.computed2 c.bits d.bits <;> rfl

/-- Operands that are not both constants are not computed. -/
theorem simplify_binop (ha : a.HasTy P temps defs op.arg1) (hb : b.HasTy P temps defs op.arg2)
    (h : a.const? = none ∨ b.const? = none) :
    (binop op a b).simplify =
      .ok ((neutral? op a b <|> doubled? op a b).getD (binop op a b)) := by
  simp only [simplify, bind_eq_ok]
  refine ⟨(), forM_demandType ha, (), forM_demandType hb, ?_⟩
  rcases h with h | h
  · rw [h]
  · cases hc : a.const? <;> rw [h]

/-- A typed right side is simplified without a failure, to one that can stand for it. -/
theorem simplify_spec (hT : e.HasTy P temps defs T) :
    ∃ e', e.simplify = .ok e' ∧ StandsFor P temps defs T e e' := by
  cases e with
  | unop op a =>
    obtain ⟨rfl, hop, ha⟩ := id hT
    cases hc : a.const? with
    | none => exact ⟨_, by simp only [simplify, hc], .self hT⟩
    | some c =>
      obtain rfl := const?_eq_some.mp hc
      refine ⟨_, simplify_unop_const ha, .getD hT fun e' he' => ?_⟩
      obtain ⟨r, hr, rfl⟩ := Option.map_eq_some_iff.mp he'
      exact computed1_standsFor hop ha hr
  | binop op a b =>
    obtain ⟨rfl, hop, ha, hb⟩ := id hT
    by_cases hnone : a.const? = none ∨ b.const? = none
    · refine ⟨_, simplify_binop ha hb hnone, .getD hT fun e' he' => ?_⟩
      rcases (Option.orElse_eq_some _ _ _).mp he' with h | ⟨-, h⟩
      · exact neutral?_spec h ha hb
      · exact doubled?_spec h ha
    · -- both operands are constants
      obtain ⟨hc, hd⟩ := not_or.mp hnone
      obtain ⟨c, hc⟩ := Option.ne_none_iff_exists'.mp hc
      obtain ⟨d, hd⟩ := Option.ne_none_iff_exists'.mp hd
      obtain rfl := const?_eq_some.mp hc
      obtain rfl := const?_eq_some.mp hd
      refine ⟨_, simplify_binop_const ha hb, .getD hT fun e' he' => ?_⟩
      obtain ⟨r, hr, rfl⟩ := Option.map_eq_some_iff.mp he'
      exact computed2_standsFor hop ha hb hr
  | select c z x =>
    cases hc : c.const? with
    | none => exact ⟨_, by simp only [simplify, hc], .self hT⟩
    | some k =>
      rw [const?_eq_some] at hc
      subst hc
      have htag : k.tag = .u8 := by
        have hty : k.tag.ty = .i8 := hT.1.1
        cases hk : k.tag <;> rw [hk] at hty <;> simp [Tag.ty] at hty
      exact ⟨_, by simp only [simplify, const?]; rw [if_pos htag], select_standsFor hT⟩
  | _ => exact ⟨_, rfl, .self hT⟩

end Expr

/-- Simplification agrees with the machine. Every expression that the checker gives a type is
simplified without a failure, to one of the same type, and where the expression has a value on a
machine whose temporaries hold values of their types, that is the value of what it becomes.
Operators on constants of their operand types are computed, unless they are ones on doubles or shift
the word out, and the constant that is made of the computed word has the value that the machine
computes. -/
theorem simplified_right_sides_agree :
    (∀ (temps : Array Ty) (defs : List Temp) (e : Expr) (T : Ty),
      WellFormed.checkExpr temps defs e = .ok T →
        ∃ e', e.simplify = .ok e' ∧ WellFormed.checkExpr temps defs e' = .ok T ∧
          ∀ m : Machine, m.temps = temps → m.ValsFit → ∀ v, m.eval e = .ok v → m.eval e' = .ok v) ∧
    (∀ (op : Op) (c : Const), op.arity = 1 → c.ty = op.arg1 → c.fits = true →
      (op.computed1 c.bits = none ↔ op.onDoubles = true) ∧
        ∀ v, op.computed1 c.bits = some v →
          (op.apply1 c.bits).map (· &&& op.result.mask) = some (Const.ofTy op.result v).bits) ∧
    (∀ (op : Op) (c d : Const), op.arity = 2 → c.ty = op.arg1 → d.ty = op.arg2 →
      c.fits = true → d.fits = true →
        (op.computed2 c.bits d.bits = none ↔ op.onDoubles = true ∨ op.ShiftsOut d.bits) ∧
          ∀ v, op.computed2 c.bits d.bits = some v →
            (op.apply2 c.bits d.bits).map (· &&& op.result.mask) =
              some (Const.ofTy op.result v).bits) := by
  refine ⟨?_, ?_, ?_⟩
  · intro temps defs e T hT
    obtain ⟨e', he', hstands⟩ := Expr.simplify_spec (WellFormed.checkExpr_eq_ok.mp hT)
    exact ⟨e', he', WellFormed.checkExpr_eq_ok.mpr hstands.hasTy, hstands.eval⟩
  · intro op c hop hc hfits
    exact ⟨Op.computed1_eq_none hop _, fun v => Op.computed1_const hc hfits⟩
  · intro op c d hop hc hd hcfits hdfits
    exact ⟨Op.computed2_eq_none hop _ _, fun v => Op.computed2_const hc hd hcfits hdfits⟩

/-- One temporary, a half word with its sign bit set. -/
def Machine.halfWord : Machine where
  temps := #[.i16]
  env := ⟨fun _ => none, fun _ => none⟩
  vals := fun t => if t = 0 then some 0x8001 else none
  state := .zero 0

theorem Machine.halfWord_valsFit : halfWord.ValsFit := by
  intro t v T hv hT
  obtain ⟨rfl, rfl⟩ : t = 0 ∧ 0x8001 = v := by simpa [halfWord] using hv
  obtain rfl : Ty.i16 = T := Except.ok.inj hT
  rfl

theorem simplified_right_sides_agree_halfWord :
    (∃ e', (Expr.binop (.arith .and .w16) (.binop (.shift .shr .w16) (.tmp 0) (.const ⟨.u8, 4⟩))
        (.const ⟨.u16, 0xffff⟩)).simplify = .ok e' ∧
      WellFormed.checkExpr #[.i16] [0] e' = .ok .i16 ∧ Machine.halfWord.eval e' = .ok 0x800) ∧
    (Op.apply1 (.convert .s16to32) 0x8001).map (· &&& Ty.i32.mask) = some 0xffff8001 ∧
    (Op.apply2 (.shift .sar .w16) 0x8001 15).map (· &&& Ty.i16.mask) = some 0xffff := by
  obtain ⟨hexpr, hunary, hbinary⟩ := simplified_right_sides_agree
  refine ⟨?_, ?_, ?_⟩
  · obtain ⟨e', he', hcheck, heval⟩ := hexpr #[.i16] [0] (.binop (.arith .and .w16)
      (.binop (.shift .shr .w16) (.tmp 0) (.const ⟨.u8, 4⟩)) (.const ⟨.u16, 0xffff⟩)) .i16 rfl
    exact ⟨e', he', hcheck, heval .halfWord rfl Machine.halfWord_valsFit _ rfl⟩
  · exact (hunary (.convert .s16to32) ⟨.u16, 0x8001⟩ rfl rfl rfl).2 _ rfl
  · exact (hbinary (.shift .sar .w16) ⟨.u16, 0x8001⟩ ⟨.u8, 15⟩ rfl rfl rfl rfl rfl).2 _ rfl

/-- The words are computed in 64 bits, so that the sign stands above the half word before it is
cut. -/
example : Op.computed2 (.shift .sar .w16) 0x8001 15 = some 0xffffffffffffffff := by decide

end Straightline
