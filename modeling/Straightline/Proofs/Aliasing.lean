import Mathlib
import Straightline.Proofs.Windows

/-!
# What the relation of two accesses promises

`Access.relate` is answered without running the block. Here its answers are held against the bytes
that the accesses touch once their indices have values: `noOverlap` promises disjoint ranges and
`exact` promises the same range.

Both promises rest on arithmetic that does not leave the word. The bounds of a window that ends
behind the last offset say nothing about its elements. The sum of an index and a displacement that
wraps moves the element by `2 ^ 64` modulo the number of elements; so two displacements have to be
in step, that is, wrap alike, or the number of elements has to divide `2 ^ 64`. For `exact` being in
step is necessary, too.
-/

namespace Straightline

/-! ## Ranges of bytes -/

namespace Region

/-- The bytes of a region, which may lie before the register file. -/
def bytes (r : Region) : Set Int := Set.Ico r.lo.toInt r.hi.toInt

theorem mem_bytes {r : Region} {j : Int} : j ∈ r.bytes ↔ r.lo.toInt ≤ j ∧ j < r.hi.toInt := Iff.rfl

theorem disjoint_bytes {r s : Region} (h : r.overlaps s = false) : Disjoint r.bytes s.bytes := by
  rw [Set.disjoint_left]
  intro j hr hs
  rw [mem_bytes] at hr hs
  unfold overlaps at h
  rw [Bool.and_eq_false_iff, decide_eq_false_iff_not, decide_eq_false_iff_not,
    Int64.lt_iff_toInt_lt, Int64.lt_iff_toInt_lt] at h
  omega

end Region

namespace Window

variable {w : Window} {ix ix' bias bias' off off' : Int64}

/-- The bytes of an element are bytes of the window. -/
theorem bytes_subset_bounds (hw : w.Proper) (hun : w.Unwrapped) (h : w.offset? ix bias = some off) :
    (Region.ofTy off w.elem).bytes ⊆ w.bounds.bytes := by
  obtain ⟨hlo, hhi⟩ := offset?_bounds hw hun h
  apply Set.Ico_subset_Ico
  · exact hlo
  · rw [toInt_hi_element hw hun h, toInt_hi_bounds hw hun]
    exact hhi

/-- Different elements have no byte in common. -/
theorem disjoint_elements (hw : w.Proper) (hun : w.Unwrapped)
    (h : w.slot? ix bias ≠ w.slot? ix' bias') (hoff : w.offset? ix bias = some off)
    (hoff' : w.offset? ix' bias' = some off') :
    Disjoint (Region.ofTy off w.elem).bytes (Region.ofTy off' w.elem).bytes := by
  have hapart := apart_of_slot?_ne hw hun h hoff hoff'
  have hhi := toInt_hi_element hw hun hoff
  have hhi' := toInt_hi_element hw hun hoff'
  rw [Set.disjoint_left]
  intro j hj hj'
  rw [Region.mem_bytes, hhi] at hj
  rw [Region.mem_bytes, hhi'] at hj'
  have hlo : (Region.ofTy off w.elem).lo = off := rfl
  have hlo' : (Region.ofTy off' w.elem).lo = off' := rfl
  rw [hlo] at hj
  rw [hlo'] at hj'
  omega

end Window

/-! ## Accesses -/

namespace Access

/-- The window of an indexed access has elements of some size and lies at an offset. -/
def Proper : Access → Prop
  | fixed _ _ => True
  | indexed w _ _ => w.Proper

/-- The window of an indexed access ends at an offset. -/
def Unwrapped : Access → Prop
  | fixed _ _ => True
  | indexed w _ _ => w.Unwrapped

/-- The bytes that the access touches when its index has the value that `ρ` gives it. -/
def region? (ρ : Expr → UInt64) : Access → Option Region
  | fixed off ty => some (.ofTy off ty)
  | indexed w ix bias => (w.offset? (Machine.index (ρ ix)) bias).map (Region.ofTy · w.elem)

/-- Accesses through one window with one index whose displacements are in step. -/
def InStep (ρ : Expr → UInt64) : Access → Access → Prop
  | indexed w ix bias, indexed w' ix' bias' => w = w' → ix = ix' → w.InStep (ρ ix) bias bias'
  | _, _ => True

variable {a b : Access} {r s : Region} (ρ : Expr → UInt64)

theorem exists_region? (ha : a.Proper) : ∃ r, a.region? ρ = some r := by
  cases a with
  | fixed off ty => exact ⟨_, rfl⟩
  | indexed w ix bias =>
    obtain ⟨k, hk, -⟩ := Window.slot?_eq ha (Machine.index (ρ ix)) bias
    exact ⟨_, by rw [region?, Window.offset?, hk]; rfl⟩

variable {ρ}

theorem region?_subset_bounds (ha : a.Proper) (hun : a.Unwrapped) (hr : a.region? ρ = some r) :
    r.bytes ⊆ a.bounds.bytes := by
  cases a with
  | fixed off ty =>
    rw [region?, Option.some.injEq] at hr
    rw [← hr]
    exact Set.Subset.rfl
  | indexed w ix bias =>
    obtain ⟨off, hoff, rfl⟩ := Option.map_eq_some_iff.mp hr
    exact Window.bytes_subset_bounds ha hun hoff

/-- Accesses without overlap touch no byte in common. -/
theorem disjoint_of_relate (ha : a.Proper) (hb : b.Proper) (hua : a.Unwrapped) (hub : b.Unwrapped)
    (hstep : a.InStep ρ b) (h : a.relate b = .noOverlap) (hr : a.region? ρ = some r)
    (hs : b.region? ρ = some s) : Disjoint r.bytes s.bytes := by
  rcases relate_eq_noOverlap h with hbounds | ⟨w, ix, bias, bias', -, rfl, rfl, hslot⟩
  · exact (Region.disjoint_bytes hbounds).mono (region?_subset_bounds ha hua hr)
      (region?_subset_bounds hb hub hs)
  · obtain ⟨off, hoff, rfl⟩ := Option.map_eq_some_iff.mp hr
    obtain ⟨off', hoff', rfl⟩ := Option.map_eq_some_iff.mp hs
    refine Window.disjoint_elements ha hua (fun heq => ?_) hoff hoff'
    exact hslot (((hstep rfl rfl).slot?_eq_iff ha).mp heq)

/-- Accesses that are the same touch the same bytes if their displacements are in step. -/
theorem region?_eq_of_relate (ha : a.Proper) (hstep : a.InStep ρ b) (h : a.relate b = .exact) :
    a.region? ρ = b.region? ρ := by
  obtain ⟨w, ix, bias, bias', -, rfl, rfl, hslot⟩ := relate_eq_exact h
  rw [region?, region?, Window.offset?_congr ha (hstep rfl rfl) hslot]

/-- Accesses that are the same and touch the same bytes have displacements in step. -/
theorem inStep_of_region?_eq (ha : a.Proper) (hun : a.Unwrapped) (h : a.relate b = .exact)
    (heq : a.region? ρ = b.region? ρ) : a.InStep ρ b := by
  obtain ⟨w, ix, bias, bias', -, rfl, rfl, hslot⟩ := relate_eq_exact h
  obtain ⟨r, hr⟩ := exists_region? ρ ha
  have hs := heq ▸ hr
  obtain ⟨off, hoff, hlo⟩ := Option.map_eq_some_iff.mp hr
  obtain ⟨off', hoff', hlo'⟩ := Option.map_eq_some_iff.mp hs
  have hsame : off = off' := congrArg Region.lo (hlo.trans hlo'.symm)
  intro _ _
  apply Window.inStep_of_slot?_eq ha hslot
  -- elements with other numbers would begin at other offsets
  by_contra hne
  have hapart := Window.apart_of_slot?_ne ha hun hne hoff hoff'
  have hpos := Window.Proper.bytes_pos ha
  rw [hsame] at hapart
  omega

end Access

/-- The relation of two accesses is symmetric, and holds of the bytes that they touch under every
assignment of values to indices. Windows that end at offsets and displacements in step do not
overlap where the answer says so. Where the answer is that the accesses are the same, they touch
one range if their displacements are in step, and in a window that ends at an offset only then. -/
theorem aliasing_answers_hold {a b : Access} (ha : a.Proper) (hb : b.Proper) (ρ : Expr → UInt64) :
    a.relate b = b.relate a ∧ ∃ r s, a.region? ρ = some r ∧ b.region? ρ = some s ∧
      (a.relate b = .noOverlap → a.Unwrapped → b.Unwrapped → a.InStep ρ b →
        Disjoint r.bytes s.bytes) ∧
      (a.relate b = .exact → a.InStep ρ b → r = s) ∧
      (a.relate b = .exact → a.Unwrapped → r = s → a.InStep ρ b) := by
  obtain ⟨r, hr⟩ := Access.exists_region? ρ ha
  obtain ⟨s, hs⟩ := Access.exists_region? ρ hb
  refine ⟨Access.relate_comm a b, r, s, hr, hs, ?_, ?_, ?_⟩
  · intro h hua hub hstep
    exact Access.disjoint_of_relate ha hb hua hub hstep h hr hs
  · intro h hstep
    have heq := Access.region?_eq_of_relate ha hstep h
    rw [hr, hs, Option.some.injEq] at heq
    exact heq
  · intro h hun heq
    apply Access.inStep_of_region?_eq ha hun h
    rw [hr, hs, heq]

/-- The element of a window of six half words that lies `bias` behind a fixed one. -/
def Access.sixfold (bias : Int64) : Access := .indexed ⟨176, .i16, 6⟩ (.tmp 1) bias

/-- Displacements one round apart select one element, and the next element does not overlap it. -/
theorem aliasing_answers_hold_sixfold :
    ∃ r s t, (Access.sixfold 2).region? (fun _ => 5) = some r ∧
      (Access.sixfold (-4)).region? (fun _ => 5) = some s ∧
      (Access.sixfold 3).region? (fun _ => 5) = some t ∧ r = s ∧ Disjoint r.bytes t.bytes := by
  have hproper (bias : Int64) : (Access.sixfold bias).Proper := ⟨by decide, by decide, by decide⟩
  have hun (bias : Int64) : (Access.sixfold bias).Unwrapped := show (188 : Int) < 2 ^ 63 by decide
  have hsteady : Steady 2 ∧ Steady (-4) ∧ Steady 3 := by
    unfold Steady
    decide
  obtain ⟨-, r, s, hr, hs, -, hsame, -⟩ :=
    aliasing_answers_hold (hproper 2) (hproper (-4)) fun _ => 5
  obtain ⟨-, r', t, hr', ht, hdis, -, -⟩ :=
    aliasing_answers_hold (hproper 2) (hproper 3) fun _ => 5
  rw [hr, Option.some.injEq] at hr'
  subst hr'
  refine ⟨r, s, t, hr, hs, ht, ?_, ?_⟩
  · exact hsame (by decide) fun _ _ => Window.inStep_of_steady hsteady.1 hsteady.2.1 _
  · exact hdis (by decide) (hun 2) (hun 3) fun _ _ =>
      Window.inStep_of_steady hsteady.1 hsteady.2.2 _

/-- Without the conditions the answers fail. Of three elements, index one with the largest
displacement and with the one three below selects two, though the answer is that they are the same.
A window of `2 ^ 62` words has bounds without bytes, so the answer for an element and itself is that
they do not overlap. -/
theorem aliasing_answers_wrap :
    (∃ a b : Access, a.Proper ∧ b.Proper ∧ a.relate b = .exact ∧
      a.region? (fun _ => 1) ≠ b.region? (fun _ => 1)) ∧
    ∃ (a : Access) (r : Region), a.Proper ∧ a.relate a = .noOverlap ∧
      a.region? (fun _ => 0) = some r ∧ 0 ∈ r.bytes := by
  constructor
  · refine ⟨.indexed ⟨0, .i32, 3⟩ (.tmp 0) 9223372036854775807,
      .indexed ⟨0, .i32, 3⟩ (.tmp 0) 9223372036854775804, ⟨?_, ?_, ?_⟩, ⟨?_, ?_, ?_⟩, ?_, ?_⟩
    all_goals decide
  · refine ⟨.indexed ⟨0, .i32, 4611686018427387904⟩ (.tmp 0) 0, ⟨0, 4⟩, ⟨?_, ?_, ?_⟩, ?_, ?_,
      Region.mem_bytes.mpr ?_⟩
    all_goals decide

end Straightline
