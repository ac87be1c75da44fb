import Mathlib
import Straightline.Proofs.Registers
import Straightline.Proofs.Evaluation
import Straightline.Access

/-!
# Elements of windows

An index and a displacement select an element by their sum modulo the number of elements. If the
end of the window is a word, elements lie in the window's bounds, and two of them are the same or
have no byte in common.

`Access.relate` compares accesses without running the block. When it gives which answer is said by
`relate_eq_noOverlap` and `relate_eq_exact`, and `relate_noOverlap` and `relate_exact` say what its
answers mean for the bytes that the accesses touch on a machine. They ask that index and
displacement add up without leaving the word: reduction modulo the number of elements does not
commute with wrapping. For two elements it is enough that the displacements are in step, that is,
that their wrapping does not show modulo the number of elements (`Window.InStep`).
-/

namespace Straightline

/-- A displacement that can be added to every index. -/
def Steady (bias : Int64) : Prop :=
  -2 ^ 63 + 2 ^ 31 ≤ bias.toInt ∧ bias.toInt ≤ 2 ^ 63 - 2 ^ 31

theorem Machine.index_bounds (v : UInt64) :
    -2 ^ 31 ≤ (index v).toInt ∧ (index v).toInt < 2 ^ 31 := by
  unfold index
  rw [Int32.toInt_toInt64]
  exact ⟨Int32.le_toInt _, Int32.toInt_lt _⟩

theorem Steady.toInt_add {bias : Int64} (h : Steady bias) (v : UInt64) :
    (Machine.index v + bias).toInt = (Machine.index v).toInt + bias.toInt := by
  have hindex := Machine.index_bounds v
  unfold Steady at h
  apply toInt_add_of_bounds
  · omega
  · omega

/-- What wrapping takes off the sum of an index and a displacement. -/
def overshoot (v : UInt64) (bias : Int64) : Int :=
  (Machine.index v).toInt + bias.toInt - (Machine.index v + bias).toInt

/-- The sum wraps once at most, upwards or downwards as the index is. -/
theorem overshoot_cases (v : UInt64) (bias : Int64) :
    overshoot v bias = 0 ∨
      overshoot v bias = 2 ^ 64 ∧ 0 ≤ (Machine.index v).toInt ∨
      overshoot v bias = -2 ^ 64 ∧ (Machine.index v).toInt < 0 := by
  have hindex := Machine.index_bounds v
  have hlo := Int64.le_toInt bias
  have hhi := Int64.toInt_lt bias
  unfold overshoot
  rw [Int64.toInt_add, Int.bmod]
  norm_num at hlo hhi ⊢
  omega

theorem two_pow_dvd_overshoot (v : UInt64) (bias : Int64) : 2 ^ 64 ∣ overshoot v bias := by
  rcases overshoot_cases v bias with h | ⟨h, -⟩ | ⟨h, -⟩
  · rw [h]
    exact Int.dvd_zero _
  · rw [h]
  · rw [h]
    exact Int.dvd_neg.mpr (Int.dvd_refl _)

theorem Steady.overshoot_eq_zero {bias : Int64} (h : Steady bias) (v : UInt64) :
    overshoot v bias = 0 := by
  rw [overshoot, h.toInt_add, Int.sub_self]

namespace Window

variable {w : Window} {ix bias bias' off off' : Int64} {n : Nat}

/-! ## Slots -/

theorem Proper.count_pos (h : w.Proper) : 0 < w.count.toInt := Int64.lt_iff_toInt_lt.mp h.1

theorem Proper.base_nonneg (h : w.Proper) : 0 ≤ w.base.toInt := Int64.le_iff_toInt_le.mp h.2.2

theorem Proper.bytes_pos (h : w.Proper) : 0 < w.elem.bytes := Nat.pos_of_ne_zero h.2.1

/-- The selected element is the sum of index and displacement, modulo the number of elements. -/
theorem slot?_eq (hw : w.Proper) (ix bias : Int64) :
    ∃ s, w.slot? ix bias = some s ∧ s.toInt = (ix + bias).toInt % w.count.toInt := by
  have hcount := hw.count_pos
  have hne : w.count ≠ 0 := by
    intro h
    rw [h] at hcount
    exact absurd hcount (by decide)
  have hlt := Int64.toInt_lt w.count
  have hmod := Int64.toInt_mod (ix + bias) w.count
  rw [Int.tmod_eq_emod] at hmod
  have hpos := Int.emod_nonneg (ix + bias).toInt hcount.ne'
  have hless := Int.emod_lt_of_pos (ix + bias).toInt hcount
  have hzero : (0 : Int64).toInt = 0 := rfl
  refine ⟨_, by rw [slot?, if_neg hne], ?_⟩
  by_cases hneg : (ix + bias) % w.count < 0
  · -- truncation left a negative remainder, one round below the one wanted
    rw [if_pos hneg]
    rw [Int64.lt_iff_toInt_lt, hzero] at hneg
    rw [toInt_add_of_bounds] <;> split at hmod <;> omega
  · rw [if_neg hneg]
    rw [Int64.lt_iff_toInt_lt, hzero] at hneg
    split at hmod <;> omega

/-! ## Offsets -/

/-- The offset behind the last element, as a number. -/
def stop (w : Window) : Int := w.base.toInt + w.count.toInt * w.elem.bytes

/-- The window ends at an offset, without a sum leaving the word. -/
def Unwrapped (w : Window) : Prop := w.stop < 2 ^ 63

theorem toInt_mul_size {k : Int64} (hk : 0 ≤ k.toInt) (h : k.toInt * w.elem.bytes < 2 ^ 63) :
    (k * w.elem.size).toInt = k.toInt * w.elem.bytes := by
  have hnonneg : 0 ≤ k.toInt * w.elem.bytes := Int.mul_nonneg hk (by omega)
  rw [Int64.toInt_mul, Ty.toInt_size]
  apply Int.bmod_eq_of_le
  · norm_num; omega
  · norm_num; omega

theorem toInt_hi_bounds (hw : w.Proper) (hun : w.Unwrapped) : w.bounds.hi.toInt = w.stop := by
  have hcount := hw.count_pos
  have hbase := hw.base_nonneg
  have hnonneg : 0 ≤ w.count.toInt * w.elem.bytes := Int.mul_nonneg (by omega) (by omega)
  unfold Unwrapped stop at hun
  have hmul := toInt_mul_size (w := w) (k := w.count) (by omega) (by omega)
  show (w.base + w.count * w.elem.size).toInt = _
  unfold stop
  rw [toInt_add_of_bounds, hmul]
  · rw [hmul]; omega
  · rw [hmul]; omega

/-- Where an element begins. -/
theorem offset?_eq (hw : w.Proper) (hun : w.Unwrapped) (ix bias : Int64) :
    ∃ off, w.offset? ix bias = some off ∧
      off.toInt = w.base.toInt + (ix + bias).toInt % w.count.toInt * w.elem.bytes := by
  obtain ⟨s, hs, hval⟩ := slot?_eq hw ix bias
  have hpos := Int.emod_nonneg (ix + bias).toInt hw.count_pos.ne'
  have hless := Int.emod_lt_of_pos (ix + bias).toInt hw.count_pos
  have hbase := hw.base_nonneg
  have hend : s.toInt * w.elem.bytes ≤ w.count.toInt * w.elem.bytes :=
    Int.mul_le_mul_of_nonneg_right (by omega) (by omega)
  have hnonneg : 0 ≤ s.toInt * w.elem.bytes := Int.mul_nonneg (by omega) (by omega)
  unfold Unwrapped stop at hun
  have hmul := toInt_mul_size (w := w) (k := s) (by omega) (by omega)
  refine ⟨w.base + s * w.elem.size, by rw [offset?, hs]; rfl, ?_⟩
  rw [toInt_add_of_bounds, hmul, hval]
  · rw [hmul]; omega
  · rw [hmul]; omega

/-- An element lies in the window. -/
theorem offset?_bounds (hw : w.Proper) (hun : w.Unwrapped) (h : w.offset? ix bias = some off) :
    w.base.toInt ≤ off.toInt ∧ off.toInt + w.elem.bytes ≤ w.stop := by
  obtain ⟨off', hoff', hval⟩ := offset?_eq hw hun ix bias
  rw [h, Option.some.injEq] at hoff'
  subst hoff'
  have hpos := Int.emod_nonneg (ix + bias).toInt hw.count_pos.ne'
  have hless := Int.emod_lt_of_pos (ix + bias).toInt hw.count_pos
  have hend : ((ix + bias).toInt % w.count.toInt + 1) * w.elem.bytes ≤
      w.count.toInt * w.elem.bytes := Int.mul_le_mul_of_nonneg_right (by omega) (by omega)
  have hnonneg : 0 ≤ (ix + bias).toInt % w.count.toInt * w.elem.bytes :=
    Int.mul_nonneg hpos (by omega)
  rw [Int.add_mul, Int.one_mul] at hend
  unfold stop
  omega

/-- The region of an element ends where its bytes do. -/
theorem toInt_hi_element (hw : w.Proper) (hun : w.Unwrapped) (h : w.offset? ix bias = some off) :
    (Region.ofTy off w.elem).hi.toInt = off.toInt + w.elem.bytes := by
  have hin := offset?_bounds hw hun h
  have hbase := hw.base_nonneg
  have hsize := w.elem.toInt_size
  unfold Unwrapped at hun
  show (off + w.elem.size).toInt = _
  rw [toInt_add_of_bounds, hsize]
  · omega
  · omega

/-- The bytes of an element are bytes of the window. -/
theorem covers_bounds (hw : w.Proper) (hun : w.Unwrapped) (h : w.offset? ix bias = some off)
    {j : Nat} (hj : (Region.ofTy off w.elem).Covers j) : w.bounds.Covers j := by
  have hin := offset?_bounds hw hun h
  have hhi := toInt_hi_element hw hun h
  have hstop := toInt_hi_bounds hw hun
  unfold Region.Covers at hj ⊢
  have hlo : w.bounds.lo = w.base := rfl
  have hoff : (Region.ofTy off w.elem).lo = off := rfl
  rw [hlo, hstop]
  rw [hhi, hoff] at hj
  omega

/-! ## Two elements -/

/-- Elements with the same number, whatever index and displacement selected them. -/
theorem slot?_eq_iff_dvd (hw : w.Proper) (ix ix' bias bias' : Int64) :
    w.slot? ix bias = w.slot? ix' bias' ↔
      w.count.toInt ∣ (ix + bias).toInt - (ix' + bias').toInt := by
  obtain ⟨s, hs, hval⟩ := slot?_eq hw ix bias
  obtain ⟨s', hs', hval'⟩ := slot?_eq hw ix' bias'
  rw [hs, hs', Option.some.injEq, ← Int64.toInt_inj, hval, hval', Int.dvd_iff_emod_eq_zero]
  exact Int.emod_eq_emod_iff_emod_sub_eq_zero

/-- With the index, the sums of both displacements wrap alike, or wrapping goes round the window a
whole number of times. -/
def InStep (w : Window) (v : UInt64) (bias bias' : Int64) : Prop :=
  overshoot v bias = overshoot v bias' ∨ w.count.toInt ∣ 2 ^ 64

theorem inStep_iff_dvd {v : UInt64} :
    w.InStep v bias bias' ↔ w.count.toInt ∣ overshoot v bias - overshoot v bias' := by
  unfold InStep
  constructor
  · intro hstep
    rcases hstep with heq | hdvd
    · rw [heq, Int.sub_self]
      exact Int.dvd_zero _
    · exact Int.dvd_sub (hdvd.trans (two_pow_dvd_overshoot v bias))
        (hdvd.trans (two_pow_dvd_overshoot v bias'))
  · intro hdvd
    by_cases heq : overshoot v bias = overshoot v bias'
    · exact .inl heq
    · -- one index wraps in one direction only, so the difference is one round of the words
      have h := overshoot_cases v bias
      have h' := overshoot_cases v bias'
      have hdiff : overshoot v bias - overshoot v bias' = 2 ^ 64 ∨
          overshoot v bias - overshoot v bias' = -2 ^ 64 := by omega
      rcases hdiff with hdiff | hdiff
      · exact .inr (hdiff ▸ hdvd)
      · exact .inr ((Int.dvd_neg).mp (hdiff ▸ hdvd))

theorem inStep_of_steady (hb : Steady bias) (hb' : Steady bias') (v : UInt64) :
    w.InStep v bias bias' := .inl (by rw [hb.overshoot_eq_zero, hb'.overshoot_eq_zero])

/-- In step, the displacements decide whether the elements are the same. -/
theorem InStep.slot?_eq_iff {v : UInt64} (hw : w.Proper) (h : w.InStep v bias bias') :
    w.slot? (Machine.index v) bias = w.slot? (Machine.index v) bias' ↔
      w.slot? 0 bias = w.slot? 0 bias' := by
  rw [slot?_eq_iff_dvd hw, slot?_eq_iff_dvd hw, Int64.zero_add, Int64.zero_add]
  have hdvd := inStep_iff_dvd.mp h
  have hdiff : (Machine.index v + bias).toInt - (Machine.index v + bias').toInt =
      bias.toInt - bias'.toInt - (overshoot v bias - overshoot v bias') := by
    unfold overshoot
    ring
  rw [hdiff]
  exact dvd_sub_left hdvd

/-- Only in step do displacements that agree modulo the number of elements select one element. -/
theorem inStep_of_slot?_eq {v : UInt64} (hw : w.Proper) (h : w.slot? 0 bias = w.slot? 0 bias')
    (hv : w.slot? (Machine.index v) bias = w.slot? (Machine.index v) bias') :
    w.InStep v bias bias' := by
  rw [slot?_eq_iff_dvd hw] at h hv
  rw [Int64.zero_add, Int64.zero_add] at h
  rw [inStep_iff_dvd]
  have hdiff : overshoot v bias - overshoot v bias' = bias.toInt - bias'.toInt -
      ((Machine.index v + bias).toInt - (Machine.index v + bias').toInt) := by
    unfold overshoot
    ring
  rw [hdiff]
  exact Int.dvd_sub h hv

/-- With one index, displacements that agree modulo the number of elements select one element. -/
theorem offset?_congr (hw : w.Proper) {v : UInt64} (hstep : w.InStep v bias bias')
    (h : w.slot? 0 bias = w.slot? 0 bias') :
    w.offset? (Machine.index v) bias = w.offset? (Machine.index v) bias' := by
  rw [offset?, offset?, (hstep.slot?_eq_iff hw).mpr h]

/-- Different elements begin at least the size of one apart. -/
theorem apart_of_slot?_ne (hw : w.Proper) (hun : w.Unwrapped) {ix' : Int64}
    (h : w.slot? ix bias ≠ w.slot? ix' bias') (hoff : w.offset? ix bias = some off)
    (hoff' : w.offset? ix' bias' = some off') :
    off.toInt + w.elem.bytes ≤ off'.toInt ∨ off'.toInt + w.elem.bytes ≤ off.toInt := by
  obtain ⟨o, ho, hval⟩ := offset?_eq hw hun ix bias
  obtain ⟨o', ho', hval'⟩ := offset?_eq hw hun ix' bias'
  rw [hoff, Option.some.injEq] at ho
  rw [hoff', Option.some.injEq] at ho'
  subst ho ho'
  have hslots : (ix + bias).toInt % w.count.toInt ≠ (ix' + bias').toInt % w.count.toInt := by
    intro hmod
    rw [ne_eq, slot?_eq_iff_dvd hw, Int.dvd_iff_emod_eq_zero] at h
    exact h (Int.emod_eq_emod_iff_emod_sub_eq_zero.mp hmod)
  revert hval hval' hslots
  generalize (ix + bias).toInt % w.count.toInt = k
  generalize (ix' + bias').toInt % w.count.toInt = k'
  intro hval hval' hslots
  -- the elements are whole multiples of their size apart
  rcases Int.lt_or_gt_of_ne hslots with hlt | hgt
  · have hmul : (k + 1) * w.elem.bytes ≤ k' * w.elem.bytes :=
      Int.mul_le_mul_of_nonneg_right (by omega) (by omega)
    rw [Int.add_mul, Int.one_mul] at hmul
    omega
  · have hmul : (k' + 1) * w.elem.bytes ≤ k * w.elem.bytes :=
      Int.mul_le_mul_of_nonneg_right (by omega) (by omega)
    rw [Int.add_mul, Int.one_mul] at hmul
    omega

/-- With one index, other displacements select an element that has no byte of this one. -/
theorem not_covers_of_slot?_ne (hw : w.Proper) (hun : w.Unwrapped) {v : UInt64}
    (hstep : w.InStep v bias bias') (h : w.slot? 0 bias ≠ w.slot? 0 bias')
    (hoff : w.offset? (Machine.index v) bias = some off)
    (hoff' : w.offset? (Machine.index v) bias' = some off') {j : Nat}
    (hj : (Region.ofTy off w.elem).Covers j) : ¬(Region.ofTy off' w.elem).Covers j := by
  have hapart := apart_of_slot?_ne hw hun (fun heq => h ((hstep.slot?_eq_iff hw).mp heq)) hoff hoff'
  have hhi := toInt_hi_element hw hun hoff
  have hhi' := toInt_hi_element hw hun hoff'
  have hlo : (Region.ofTy off w.elem).lo = off := rfl
  have hlo' : (Region.ofTy off' w.elem).lo = off' := rfl
  unfold Region.Covers at hj ⊢
  rw [hlo, hhi] at hj
  rw [hlo', hhi']
  omega

end Window

/-! ## Accesses -/

theorem Expr.eq_of_sameAtom {a b : Expr} (h : a.sameAtom b = true) : a = b := by
  cases a <;> cases b <;> simp_all [Expr.sameAtom]

theorem Expr.isAtom_of_sameAtom {a b : Expr} (h : a.sameAtom b = true) : a.isAtom = true := by
  cases a <;> cases b <;> simp_all [Expr.sameAtom, Expr.isAtom]

theorem Expr.sameAtom_comm (a b : Expr) : a.sameAtom b = b.sameAtom a := by
  cases a <;> cases b <;> simp [sameAtom, Bool.beq_comm]

theorem Expr.sameAtom_self {a : Expr} (h : a.isAtom = true) : a.sameAtom a = true := by
  cases a <;> simp_all [Expr.sameAtom, Expr.isAtom]

namespace Access

variable {m m' : Machine} {a b : Access} {off off' : Int64} {T T' : Ty}

/-- On the machine, the access is to the value of type `T` at offset `off`. -/
def Touches (m : Machine) : Access → Int64 → Ty → Prop
  | fixed off' ty, off, T => off = off' ∧ T = ty
  | indexed w ix bias, off, T =>
    T = w.elem ∧ ∃ i, m.eval ix = .ok i ∧ w.offset? (Machine.index i) bias = some off

/-- An indexed access goes through a proper window that ends at an offset, with a displacement that
can be added to every index. -/
def Regular : Access → Prop
  | fixed _ _ => True
  | indexed w _ bias => w.Proper ∧ w.Unwrapped ∧ Steady bias

/-- The bytes that an access touches lie in its bounds. -/
theorem covers_bounds (ha : a.Regular) (h : a.Touches m off T) {j : Nat}
    (hj : (Region.ofTy off T).Covers j) : a.bounds.Covers j := by
  cases a with
  | fixed off' ty =>
    obtain ⟨rfl, rfl⟩ := h
    exact hj
  | indexed w ix bias =>
    obtain ⟨rfl, i, -, hoff⟩ := h
    exact Window.covers_bounds ha.1 ha.2.1 hoff hj

theorem relate_comm (a b : Access) : a.relate b = b.relate a := by
  unfold relate
  rw [Region.overlaps_comm]
  cases a with
  | fixed off ty => cases b <;> rfl
  | indexed w ix bias =>
    cases b with
    | fixed off ty => rfl
    | indexed w' ix' bias' =>
      by_cases hw : w = w'
      · subst hw
        simp only [ne_eq, not_true_eq_false, if_false, Expr.sameAtom_comm ix ix', eq_comm]
      · simp [hw, Ne.symm hw]

/-- Through one window and with one atom as index, the displacements decide. -/
theorem relate_indexed {w : Window} {ix : Expr} {bias bias' : Int64} (hix : ix.isAtom = true)
    (hbounds : w.bounds.overlaps w.bounds = true) :
    (indexed w ix bias).relate (indexed w ix bias') =
      if w.slot? 0 bias = w.slot? 0 bias' then .exact else .noOverlap := by
  simp only [relate, bounds, hbounds, Expr.sameAtom_self hix, ne_eq, not_true_eq_false, if_false,
    Bool.not_true, Bool.false_eq_true, ite_not]

/-- Accesses that are neither unknown nor apart by their bounds go through one window, with one atom
as index. -/
theorem exists_indexed (hbounds : a.bounds.overlaps b.bounds = true)
    (h : a.relate b ≠ .unknown) :
    ∃ w ix bias bias', ix.isAtom = true ∧ a = indexed w ix bias ∧ b = indexed w ix bias' := by
  unfold relate at h
  rw [hbounds] at h
  cases a with
  | fixed => simp at h
  | indexed w ix bias =>
    cases b with
    | fixed => simp at h
    | indexed w' ix' bias' =>
      by_cases hw : w = w'
      · by_cases hix : ix.sameAtom ix' = true
        · rw [← hw, ← Expr.eq_of_sameAtom hix]
          exact ⟨w, ix, bias, bias', Expr.isAtom_of_sameAtom hix, rfl, rfl⟩
        · simp [hw, hix] at h
      · simp [hw] at h

/-- Accesses without overlap are apart by their bounds, or they are elements of one window that the
displacements tell apart. -/
theorem relate_eq_noOverlap (h : a.relate b = .noOverlap) :
    a.bounds.overlaps b.bounds = false ∨ ∃ w ix bias bias', ix.isAtom = true ∧
      a = indexed w ix bias ∧ b = indexed w ix bias' ∧ w.slot? 0 bias ≠ w.slot? 0 bias' := by
  cases hbounds : a.bounds.overlaps b.bounds with
  | false => exact .inl rfl
  | true =>
    obtain ⟨w, ix, bias, bias', hix, rfl, rfl⟩ := exists_indexed hbounds (by simp [h])
    refine .inr ⟨w, ix, bias, bias', hix, rfl, rfl, fun hslot => ?_⟩
    rw [relate_indexed hix hbounds, if_pos hslot] at h
    cases h

/-- Accesses that are the same go through one window with one index, and their displacements agree
modulo the number of elements. -/
theorem relate_eq_exact (h : a.relate b = .exact) :
    ∃ w ix bias bias', ix.isAtom = true ∧ a = indexed w ix bias ∧ b = indexed w ix bias' ∧
      w.slot? 0 bias = w.slot? 0 bias' := by
  have hbounds : a.bounds.overlaps b.bounds = true := by
    by_contra hnot
    rw [Bool.not_eq_true] at hnot
    simp [relate, hnot] at h
  obtain ⟨w, ix, bias, bias', hix, rfl, rfl⟩ := exists_indexed hbounds (by simp [h])
  refine ⟨w, ix, bias, bias', hix, rfl, rfl, ?_⟩
  by_contra hslot
  rw [relate_indexed hix hbounds, if_neg hslot] at h
  cases h

/-- Accesses without overlap have no byte in common, on one machine or on two that agree on
atoms. -/
theorem relate_noOverlap (ha : a.Regular) (hb : b.Regular) (h : a.relate b = .noOverlap)
    (hagree : ∀ e v v', e.isAtom = true → m.eval e = .ok v → m'.eval e = .ok v' → v = v')
    (hoff : a.Touches m off T) (hoff' : b.Touches m' off' T') {j : Nat}
    (hj : (Region.ofTy off T).Covers j) : ¬(Region.ofTy off' T').Covers j := by
  rcases relate_eq_noOverlap h with hbounds | ⟨w, ix, bias, bias', hix, rfl, rfl, hslot⟩
  · intro hj'
    have hcov := covers_bounds ha hoff hj
    have hcov' := covers_bounds hb hoff' hj'
    rw [Region.overlaps_of_covers hcov hcov'] at hbounds
    cases hbounds
  · obtain ⟨rfl, i, hi, hoff⟩ := hoff
    obtain ⟨rfl, i', hi', hoff'⟩ := hoff'
    rw [← hagree ix i i' hix hi hi'] at hoff'
    have hstep := Window.inStep_of_steady (w := w) ha.2.2 hb.2.2 i
    exact Window.not_covers_of_slot?_ne ha.1 ha.2.1 hstep hslot hoff hoff' hj

/-- Accesses that are the same touch the same bytes. -/
theorem relate_exact (ha : a.Regular) (hb : b.Regular) (h : a.relate b = .exact)
    (hagree : ∀ e v v', e.isAtom = true → m.eval e = .ok v → m'.eval e = .ok v' → v = v')
    (hoff : a.Touches m off T) (hoff' : b.Touches m' off' T') : off = off' ∧ T = T' := by
  obtain ⟨w, ix, bias, bias', hix, rfl, rfl, hslot⟩ := relate_eq_exact h
  obtain ⟨rfl, i, hi, hoff⟩ := hoff
  obtain ⟨rfl, i', hi', hoff'⟩ := hoff'
  rw [← hagree ix i i' hix hi hi'] at hoff'
  have hstep := Window.inStep_of_steady (w := w) ha.2.2 hb.2.2 i
  rw [Window.offset?_congr ha.1 hstep hslot, hoff', Option.some.injEq] at hoff
  exact ⟨hoff.symm, rfl⟩

end Access
end Straightline
