import Mathlib
import Straightline.Machine.Operator
import Straightline.Const

/-!
# Values and their types

A value is kept in 64 bits and fits its type if no bit lies outside the mask of the type. Cutting a
word with the mask is reduction modulo the power of two that the type's width gives.
-/

namespace Straightline
namespace Ty

/-- The value has no bit outside the mask of the type. -/
def Fits (T : Ty) (v : UInt64) : Prop := v &&& T.mask = v

theorem bits_le (T : Ty) : T.bits ≤ 64 := by cases T <;> decide

theorem toNat_mask (T : Ty) : T.mask.toNat = 2 ^ T.bits - 1 := by cases T <;> decide

/-- Cutting a value to a type keeps its low bits. -/
theorem toNat_and_mask (T : Ty) (v : UInt64) : (v &&& T.mask).toNat = v.toNat % 2 ^ T.bits := by
  rw [UInt64.toNat_and, toNat_mask, Nat.and_two_pow_sub_one_eq_mod]

theorem fits_iff_lt {T : Ty} {v : UInt64} : T.Fits v ↔ v.toNat < 2 ^ T.bits := by
  unfold Fits
  rw [← UInt64.toNat_inj, toNat_and_mask]
  constructor
  · intro h
    rw [← h]
    exact Nat.mod_lt _ (Nat.two_pow_pos _)
  · exact Nat.mod_eq_of_lt

/-- A value fits if the complement of the mask meets none of its bits. -/
theorem fits_iff_and_compl {T : Ty} {v : UInt64} : T.Fits v ↔ v &&& ~~~T.mask = 0 := by
  unfold Fits
  constructor
  · intro h
    rw [← h, UInt64.and_assoc, UInt64.and_not_self, UInt64.and_zero]
  · intro h
    rw [← UInt64.toBitVec_inj] at h ⊢
    rw [UInt64.toBitVec_and, UInt64.toBitVec_not] at h
    rw [UInt64.toBitVec_and]
    ext i hi
    have hi' := congrArg (BitVec.getLsbD · i) h
    simp [hi] at hi' ⊢
    exact hi'

theorem fits_and_mask (T : Ty) (v : UInt64) : T.Fits (v &&& T.mask) := by
  unfold Fits
  rw [UInt64.and_assoc, UInt64.and_self]

theorem fits_zero (T : Ty) : T.Fits 0 := by simp [Fits]

theorem fits_of_bits_eq {T : Ty} (h : T.bits = 64) (v : UInt64) : T.Fits v := by
  rw [fits_iff_lt, h]
  exact v.toNat_lt

theorem bytes_ne_zero_of_tag {T : Ty} (h : T.tag ≠ .invalid) : T.bytes ≠ 0 := by
  cases T <;> simp_all [tag, bytes]

end Ty

/-- The bits of a constant that fits its tag fit its type. -/
theorem Const.fits_bits {c : Const} (h : c.fits = true) : c.ty.Fits c.bits := by
  unfold Const.fits at h
  rw [Bool.or_eq_true] at h
  rcases h with h | h
  · have hty : c.ty.bits = 64 := by
      unfold Const.ty
      cases hc : c.tag <;> simp_all [Tag.isFloat, Tag.ty, Ty.bits, Ty.bytes]
    exact Ty.fits_of_bits_eq hty _
  · exact Ty.fits_iff_and_compl.mpr (by simpa using h)

theorem Const.ty_ofTy {T : Ty} (hT : T.tag ≠ .invalid) (v : UInt64) : (Const.ofTy T v).ty = T := by
  cases T <;> first | rfl | simp [Ty.tag] at hT

theorem Const.fits_ofTy {T : Ty} (hT : T.tag ≠ .invalid) (v : UInt64) :
    (Const.ofTy T v).fits = true := by
  have hfits : (Const.ofTy T v).bits &&& ~~~(Const.ofTy T v).ty.mask = 0 := by
    rw [ty_ofTy hT]
    exact Ty.fits_iff_and_compl.mp (T.fits_and_mask v)
  simp [Const.fits, hfits]

namespace Width

theorem bits_ty (w : Width) : w.ty.bits = w.bits := by cases w <;> rfl

theorem bits_pos (w : Width) : 0 < w.bits := by cases w <;> decide

theorem bits_le (w : Width) : w.bits ≤ 64 := w.bits_ty ▸ w.ty.bits_le

theorem tag_ty (w : Width) : w.ty.tag ≠ .invalid := by cases w <;> decide

theorem ty_ne_invalid (w : Width) : w.ty ≠ .invalid := by cases w <;> decide

end Width

namespace Op

theorem ne_invalid_of_arity {op : Op} {n : Nat} (h : op.arity = n + 1) : op ≠ .invalid := by
  intro hop
  simp [hop, arity, isValid] at h

theorem tag_result {op : Op} (h : op ≠ .invalid) : op.result.tag ≠ .invalid := by
  cases op with
  | invalid => exact (h rfl).elim
  | arith _ w | shift _ w | not w => exact w.tag_ty
  | convert c => cases c <;> simp [result, Conversion.target, Ty.tag]
  | _ => simp [result, Ty.tag]

/-- An operator of one operand computes a result. -/
theorem exists_apply1 {op : Op} (h : op.arity = 1) (v : UInt64) : ∃ r, op.apply1 v = some r := by
  cases op with
  | arith _ w | equal w | differ w => simp [arity, isValid, arg2, w.ty_ne_invalid] at h
  | _ => simp_all [arity, isValid, arg2, apply1]

/-- An operator of two operands computes a result. -/
theorem exists_apply2 {op : Op} (h : op.arity = 2) (v u : UInt64) :
    ∃ r, op.apply2 v u = some r := by
  cases op <;> simp_all [arity, isValid, arg2, apply2]

end Op
end Straightline
