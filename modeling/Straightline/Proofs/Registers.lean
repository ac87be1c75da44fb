import Mathlib
import Straightline.Region
import Straightline.Machine.State
import Straightline.Proofs.Values

/-!
# The register file, byte by byte

A register access is a read or write of the bytes that its region covers. Reads see nothing else,
writes change nothing else, and a written value is read back. Regions that do not overlap have no
byte in common. Loads and stores leave the registers alone and depend on nothing but memory.
-/

namespace Straightline

/-! ## Words -/

/-- A sum that stays in the word is the sum of the integers. -/
theorem toInt_add_of_bounds {a b : Int64} (h : -2 ^ 63 ≤ a.toInt + b.toInt)
    (h' : a.toInt + b.toInt < 2 ^ 63) : (a + b).toInt = a.toInt + b.toInt := by
  rw [Int64.toInt_add]
  apply Int.bmod_eq_of_le
  · norm_num at h ⊢; omega
  · norm_num at h' ⊢; omega

theorem Ty.bytes_le (T : Ty) : T.bytes ≤ 8 := by cases T <;> decide

theorem Ty.toInt_size (T : Ty) : T.size.toInt = T.bytes := by cases T <;> decide

/-- The `n` low bytes of a word determine it modulo `2 ^ (8 * n)`. -/
theorem toNat_ofBytes_toBytes (v : UInt64) (n : Nat) (hn : n ≤ 8) :
    (ofBytes (toBytes v n)).toNat = v.toNat % 2 ^ (8 * n) := by
  induction n generalizing v with
  | zero => simp [toBytes, ofBytes, Nat.mod_one]
  | succ n ih =>
    have hlow : v.toUInt8.toUInt64.toNat = v.toNat % 2 ^ 8 := by simp
    have hhigh : (ofBytes (toBytes (v >>> 8) n)).toNat = v.toNat / 2 ^ 8 % 2 ^ (8 * n) := by
      rw [ih _ (by omega)]
      simp [Nat.shiftRight_eq_div_pow]
    have hlt : v.toNat / 2 ^ 8 % 2 ^ (8 * n) < 2 ^ 56 :=
      (Nat.mod_lt _ (Nat.two_pow_pos _)).trans_le (Nat.pow_le_pow_right (by omega) (by omega))
    have hshift : (ofBytes (toBytes (v >>> 8) n) <<< 8).toNat
        = (v.toNat / 2 ^ 8 % 2 ^ (8 * n)) <<< 8 := by
      rw [UInt64.toNat_shiftLeft, hhigh]
      generalize v.toNat / 2 ^ 8 % 2 ^ (8 * n) = x at hlt
      rw [show (8 : UInt64).toNat % 64 = 8 from rfl, Nat.shiftLeft_eq]
      exact Nat.mod_eq_of_lt (by omega)
    rw [toBytes, ofBytes, UInt64.toNat_or, hlow, hshift, Nat.or_comm,
      ← Nat.shiftLeft_add_eq_or_of_lt (Nat.mod_lt _ (by decide)), Nat.shiftLeft_eq]
    rw [show 8 * (n + 1) = 8 + 8 * n by ring, pow_add, Nat.mod_mul]
    ring

theorem length_toBytes (v : UInt64) (n : Nat) : (toBytes v n).length = n := by
  induction n generalizing v with
  | zero => rfl
  | succ n ih => simp [toBytes, ih]

/-- The bytes of a value of type `T` give it back. -/
theorem ofBytes_toBytes_and_mask (T : Ty) (v : UInt64) :
    ofBytes (toBytes (v &&& T.mask) T.bytes) &&& T.mask = v &&& T.mask := by
  rw [← UInt64.toNat_inj, Ty.toNat_and_mask, toNat_ofBytes_toBytes _ _ T.bytes_le,
    Nat.mod_mod_of_dvd, Ty.toNat_and_mask, Nat.mod_mod]
  apply Nat.pow_dvd_pow
  cases T <;> decide

/-! ## Regions -/

namespace Region

/-- The byte `j` of the register file belongs to the region. -/
def Covers (r : Region) (j : Nat) : Prop := r.lo.toInt ≤ j ∧ (j : Int) < r.hi.toInt

instance (r : Region) (j : Nat) : Decidable (r.Covers j) := inferInstanceAs (Decidable (_ ∧ _))

theorem overlaps_comm (r s : Region) : r.overlaps s = s.overlaps r := by
  unfold overlaps
  rw [Bool.and_comm]

/-- A common byte is an overlap. -/
theorem overlaps_of_covers {r s : Region} {j : Nat} (hr : r.Covers j) (hs : s.Covers j) :
    r.overlaps s = true := by
  unfold overlaps
  rw [Bool.and_eq_true, decide_eq_true_eq, decide_eq_true_eq, Int64.lt_iff_toInt_lt,
    Int64.lt_iff_toInt_lt]
  unfold Covers at hr hs
  omega

end Region

/-! ## Placement -/

/-- An access that lies in the file starts at its offset, ends in the file, and its end does not
wrap. -/
theorem placement_eq_inside {off : Int64} {n len i : Nat} (hn : n ≤ 8)
    (h : placement off n len = .inside i) :
    off.toInt = i ∧ i + n ≤ len ∧ (off + Int64.ofNat n).toInt = i + n := by
  unfold placement at h
  simp only at h
  split at h
  · simp at h
  · rename_i hout
    split at h
    · simp at h
    · rename_i hwrap
      rw [Placement.inside.injEq] at h
      rw [not_or, Int64.lt_iff_toInt_lt, Int64.lt_iff_toInt_lt] at hout
      rw [Int64.lt_iff_toInt_lt] at hwrap
      have hnInt : (Int64.ofNat n).toInt = n := Int64.toInt_ofNat_of_lt (by omega)
      have hzero : (0 : Int64).toInt = 0 := rfl
      have hoff : off.toInt = i := by
        rw [← h, ← Int64.toNat_toInt]
        omega
      have hlen : (Int64.ofNat len).toInt ≤ len := by
        rw [Int64.toInt_ofNat', Int.bmod, show Int64.size = 2 ^ 64 from rfl]
        norm_num
        omega
      -- an end that wraps is negative, and so lies in front of the offset
      have hadd : (off + Int64.ofNat n).toInt = i + n := by
        rw [Int64.toInt_add, hnInt, hoff] at hwrap ⊢
        have hlt := Int64.toInt_lt off
        rw [hoff] at hlt
        unfold Int.bmod at hwrap ⊢
        norm_num at hwrap hlt ⊢
        omega
      exact ⟨hoff, by omega, hadd⟩

theorem placement_of_bounds {off : Int64} {n len : Nat} (hn : n ≤ 8) (h0 : 0 ≤ off.toInt)
    (h : off.toInt + n ≤ len) (hlen : len < 2 ^ 63) :
    placement off n len = .inside off.toNatClampNeg := by
  have hnInt : (Int64.ofNat n).toInt = n := Int64.toInt_ofNat_of_lt (by omega)
  have hlenInt : (Int64.ofNat len).toInt = len := Int64.toInt_ofNat_of_lt hlen
  have hadd : (off + Int64.ofNat n).toInt = off.toInt + n := by
    rw [toInt_add_of_bounds] <;> rw [hnInt] <;> norm_num <;> omega
  have hzero : (0 : Int64).toInt = 0 := rfl
  unfold placement
  simp only
  rw [if_neg, if_neg]
  · rw [Int64.lt_iff_toInt_lt]
    omega
  · rw [not_or, Int64.lt_iff_toInt_lt, Int64.lt_iff_toInt_lt]
    omega

/-- The bytes of an access that lies in the file are those its region covers. -/
theorem covers_ofTy {off : Int64} {T : Ty} {len i j : Nat}
    (h : placement off T.bytes len = .inside i) :
    (Region.ofTy off T).Covers j ↔ i ≤ j ∧ j < i + T.bytes := by
  obtain ⟨hoff, -, hadd⟩ := placement_eq_inside T.bytes_le h
  unfold Region.Covers Region.ofTy Ty.size
  simp only [hoff, hadd]
  omega

/-! ## Overwriting -/

theorem size_overwrite (a : Array UInt8) (i : Nat) (bs : List UInt8) :
    (overwrite a i bs).size = a.size := by
  induction bs generalizing a i with
  | nil => rfl
  | cons b bs ih => rw [overwrite, ih, Array.size_setIfInBounds]

/-- A byte of the file after new bytes were laid over it. -/
theorem getElem?_overwrite (a : Array UInt8) (i j : Nat) (bs : List UInt8)
    (h : i + bs.length ≤ a.size) :
    (overwrite a i bs)[j]? = if i ≤ j ∧ j < i + bs.length then bs[j - i]? else a[j]? := by
  induction bs generalizing a i with
  | nil =>
    rw [overwrite, if_neg]
    simp only [List.length_nil]
    omega
  | cons b bs ih =>
    rw [List.length_cons] at h ⊢
    rw [overwrite, ih _ _ (by rw [Array.size_setIfInBounds]; omega)]
    by_cases hj : i = j
    · subst hj
      rw [if_neg (by omega), if_pos (by omega), Array.getElem?_setIfInBounds_self_of_lt (by omega)]
      simp
    · rw [Array.getElem?_setIfInBounds_ne hj]
      by_cases hin : i + 1 ≤ j ∧ j < i + 1 + bs.length
      · rw [if_pos hin, if_pos (by omega), show j - i = (j - (i + 1)) + 1 by omega,
          List.getElem?_cons_succ]
      · rw [if_neg hin, if_neg (by omega)]

namespace State

variable {s s' : State} {off : Int64} {T : Ty} {v : UInt64}

/-! ## Reads -/

/-- A read sees the bytes of its region and the size of the file. -/
theorem readReg_congr (hsize : s.regs.size = s'.regs.size)
    (h : ∀ j, (Region.ofTy off T).Covers j → s.regs[j]? = s'.regs[j]?) :
    s.readReg off T = s'.readReg off T := by
  unfold readReg
  rw [← hsize]
  cases hp : placement off T.bytes s.regs.size with
  | outside => rfl
  | wrapped => rfl
  | inside i =>
    have hbytes : (s.regs.extract i (i + T.bytes)).toList
        = (s'.regs.extract i (i + T.bytes)).toList := by
      congr 1
      apply Array.ext_getElem?
      intro k
      rw [Array.getElem?_extract, Array.getElem?_extract, ← hsize]
      split
      · apply h
        rw [covers_ofTy hp]
        omega
      · rfl
    simp only [hbytes]

/-- A read depends on the registers only. -/
theorem readReg_of_regs_eq (h : s.regs = s'.regs) : s.readReg off T = s'.readReg off T := by
  simp only [readReg, h]

theorem readReg_fits (h : s.readReg off T = .ok v) : T.Fits v := by
  unfold readReg at h
  split at h
  · rw [Except.ok.injEq] at h
    rw [← h]
    exact T.fits_and_mask _
  · simp at h
  · simp at h

theorem exists_readReg (h0 : 0 ≤ off.toInt) (h : off.toInt + T.bytes ≤ s.regs.size)
    (hsize : s.regs.size < 2 ^ 63) : ∃ v, s.readReg off T = .ok v := by
  unfold readReg
  rw [placement_of_bounds T.bytes_le h0 h hsize]
  exact ⟨_, rfl⟩

/-! ## Writes -/

theorem writeReg_eq_ok :
    s.writeReg off T v = .ok s' ↔
      ∃ i, placement off T.bytes s.regs.size = .inside i ∧
        s' = { s with regs := overwrite s.regs i (toBytes (v &&& T.mask) T.bytes) } := by
  unfold writeReg
  cases hp : placement off T.bytes s.regs.size with
  | inside i => simp [eq_comm]
  | outside => simp
  | wrapped => simp

theorem exists_writeReg (h0 : 0 ≤ off.toInt) (h : off.toInt + T.bytes ≤ s.regs.size)
    (hsize : s.regs.size < 2 ^ 63) : ∃ s', s.writeReg off T v = .ok s' := by
  exact ⟨_, writeReg_eq_ok.mpr ⟨_, placement_of_bounds T.bytes_le h0 h hsize, rfl⟩⟩

theorem mem_writeReg (h : s.writeReg off T v = .ok s') : s'.mem = s.mem := by
  obtain ⟨i, -, rfl⟩ := writeReg_eq_ok.mp h
  rfl

theorem size_writeReg (h : s.writeReg off T v = .ok s') : s'.regs.size = s.regs.size := by
  obtain ⟨i, -, rfl⟩ := writeReg_eq_ok.mp h
  exact size_overwrite _ _ _

/-- A register byte after a write. -/
theorem getElem?_writeReg (h : s.writeReg off T v = .ok s') (j : Nat) :
    s'.regs[j]? = if (Region.ofTy off T).Covers j
      then (toBytes (v &&& T.mask) T.bytes)[j - off.toNatClampNeg]? else s.regs[j]? := by
  obtain ⟨i, hi, rfl⟩ := writeReg_eq_ok.mp h
  obtain ⟨hoff, hlen, -⟩ := placement_eq_inside T.bytes_le hi
  have hnat : off.toNatClampNeg = i := by
    rw [← Int64.toNat_toInt, hoff, Int.toNat_natCast]
  show (overwrite s.regs i _)[j]? = _
  rw [getElem?_overwrite _ _ _ _ (by rw [length_toBytes]; exact hlen), length_toBytes, hnat]
  simp only [covers_ofTy hi]

theorem getElem?_writeReg_of_not_covers (h : s.writeReg off T v = .ok s') {j : Nat}
    (hj : ¬(Region.ofTy off T).Covers j) : s'.regs[j]? = s.regs[j]? := by
  rw [getElem?_writeReg h, if_neg hj]

/-- What was written is read back, cut to the type. -/
theorem readReg_writeReg (h : s.writeReg off T v = .ok s') :
    s'.readReg off T = .ok (v &&& T.mask) := by
  have hsize := size_writeReg h
  obtain ⟨i, hi, hs'⟩ := writeReg_eq_ok.mp h
  obtain ⟨hoff, hlen, -⟩ := placement_eq_inside T.bytes_le hi
  have hbytes : (s'.regs.extract i (i + T.bytes)).toList = toBytes (v &&& T.mask) T.bytes := by
    apply List.ext_getElem?
    intro k
    rw [Array.getElem?_toList, Array.getElem?_extract, hsize, hs',
      getElem?_overwrite _ _ _ _ (by rw [length_toBytes]; exact hlen), length_toBytes]
    by_cases hk : k < T.bytes
    · rw [if_pos (by omega), if_pos (by omega), Nat.add_sub_cancel_left]
    · rw [if_neg (by omega), List.getElem?_eq_none (by rw [length_toBytes]; omega)]
  unfold readReg
  rw [hsize, hi]
  simp only [hbytes, ofBytes_toBytes_and_mask]

/-- A read that shares no byte with a write sees what was there before. -/
theorem readReg_writeReg_of_not_overlaps {off' : Int64} {T' : Ty}
    (h : s.writeReg off T v = .ok s')
    (hdis : (Region.ofTy off T).overlaps (Region.ofTy off' T') = false) :
    s'.readReg off' T' = s.readReg off' T' := by
  apply readReg_congr (size_writeReg h)
  intro j hj
  apply getElem?_writeReg_of_not_covers h
  intro hcov
  rw [Region.overlaps_of_covers hcov hj] at hdis
  exact Bool.noConfusion hdis

/-! ## Memory -/

theorem regs_storeBytes (s : State) (a : UInt64) (bs : List UInt8) :
    (s.storeBytes a bs).regs = s.regs := by
  induction bs generalizing s a with
  | nil => rfl
  | cons b bs ih => rw [storeBytes, ih]

@[simp] theorem regs_store (s : State) (a : UInt64) (T : Ty) (v : UInt64) :
    (s.store a T v).regs = s.regs := regs_storeBytes _ _ _

theorem mem_storeBytes_congr (hmem : s.mem = s'.mem) (a : UInt64) (bs : List UInt8) :
    (s.storeBytes a bs).mem = (s'.storeBytes a bs).mem := by
  induction bs generalizing s s' a with
  | nil => exact hmem
  | cons b bs ih =>
    rw [storeBytes, storeBytes]
    apply ih
    rw [hmem]

theorem mem_store_congr (hmem : s.mem = s'.mem) (a : UInt64) (T : Ty) (v : UInt64) :
    (s.store a T v).mem = (s'.store a T v).mem := mem_storeBytes_congr hmem _ _

theorem bytesAt_congr (hmem : s.mem = s'.mem) (a : UInt64) (n : Nat) :
    s.bytesAt a n = s'.bytesAt a n := by
  induction n generalizing a with
  | zero => rfl
  | succ n ih => rw [bytesAt, bytesAt, ih, byteAt, byteAt, hmem]

theorem load_congr (hmem : s.mem = s'.mem) (a : UInt64) (T : Ty) : s.load a T = s'.load a T := by
  rw [load, load, bytesAt_congr hmem]

end State
end Straightline
