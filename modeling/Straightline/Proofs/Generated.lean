import Mathlib
import Straightline.Proofs.Accesses
import Straightline.Proofs.Flat
import Straightline.Proofs.Soundness
import Straightline.Sample.Generator

/-!
# Generated blocks

Whatever the random source answers, a generated block passes the checker, as long as there are
numbers for its temporaries, and on every register file of at least 256 bytes it runs to its end, with
all its memory accesses in the 64 bytes at the base.

`Yields` says what holds of everything a generator may return, and goes through its definition
choice by choice. Expressions are typed under the policy of blocks that run in `Sample.env`, so type
soundness gives the run. That addresses stay in the memory is a matter of their form: a generated
address is a sum of the base and a masked word (`Masked`).
-/

namespace Straightline
namespace Sample

/-! ## What generators return -/

section

variable {σ α β : Type} {Q R : α → Prop} {S : β → Prop} {src : Source σ}

/-- Everything that the generator returns satisfies `Q`. -/
def Yields (g : Gen σ α) (Q : α → Prop) : Prop := ∀ s a s', g s = .ok (a, s') → Q a

theorem yields_pure {a : α} (h : Q a) : Yields (pure a : Gen σ α) Q := by
  intro s b s' hb
  have heq : a = b := congrArg Prod.fst (Except.ok.inj hb)
  exact heq ▸ h

theorem yields_throw (x : Halt) : Yields (throw x : Gen σ α) Q := by
  intro s b s' hb
  cases hb

theorem Yields.bind {g : Gen σ α} {f : α → Gen σ β} (hg : Yields g Q)
    (hf : ∀ a, Q a → Yields (f a) S) : Yields (g >>= f) S := by
  intro s b s' hb
  obtain ⟨⟨a, s₁⟩, ha, hb⟩ := bind_eq_ok.mp hb
  exact hf a (hg s a s₁ ha) s₁ b s' hb

theorem Yields.mono {g : Gen σ α} (hg : Yields g Q) (h : ∀ a, Q a → R a) : Yields g R :=
  fun s a s' ha => h a (hg s a s' ha)

theorem yields_any (g : Gen σ α) : Yields g fun _ => True := fun _ _ _ _ => trivial

theorem yields_below (n : Nat) : Yields (below src n) (· < n) := by
  cases n with
  | zero => exact yields_throw _
  | succ n => exact (yields_any _).bind fun i _ => yields_pure i.isLt

theorem yields_pick (xs : List α) : Yields (pick src xs) (· ∈ xs) := by
  refine (yields_any _).bind fun i _ => ?_
  split
  · exact yields_pure (List.mem_of_getElem? ‹_›)
  · exact yields_throw _

end

/-! ## Addresses -/

/-- The addresses of the memory that blocks use. -/
def InMemory (a : UInt64) : Prop := memBase ≤ a ∧ a < memBase + memBytes

/-- The address that a word selects: the base and at most 56 bytes. -/
def masked (x : Expr) : Expr :=
  .binop (.arith .add .w64) (.const ⟨.u64, memBase⟩)
    (.unop (.convert .u32to64) (.binop (.arith .and .w32) x (.const ⟨.u32, memBytes - 8⟩)))

/-- The form of generated addresses. -/
def Masked (e : Expr) : Prop := ∃ x, e = masked x

/-- A masked address leaves room for eight bytes. -/
theorem Masked.toNat_eval {e : Expr} {m : Machine} {v : UInt64} (h : Masked e)
    (hv : m.eval e = .ok v) : 0x1000 ≤ v.toNat ∧ v.toNat ≤ 0x1038 := by
  obtain ⟨x, rfl⟩ := h
  obtain ⟨_, y, _, hbase, hy, hadd, rfl⟩ := Machine.eval_binop_eq_ok.mp hv
  obtain ⟨z, _, hz, hconv, rfl⟩ := Machine.eval_unop_eq_ok.mp hy
  obtain ⟨u, _, _, -, hmask, hand, rfl⟩ := Machine.eval_binop_eq_ok.mp hz
  rw [Machine.eval_const, Except.ok.injEq] at hbase hmask
  subst hbase hmask
  simp only [Op.apply2, Arith.apply, Option.some.injEq] at hadd hand
  simp only [Op.apply1, Conversion.apply, Option.some.injEq] at hconv
  subst hadd hand hconv
  have hle : (u &&& (memBytes - 8)).toNat ≤ 56 := by
    rw [UInt64.toNat_and]
    exact Nat.and_le_right
  have hbits : (Op.arith .and .w32).result.bits = 32 ∧ (Op.convert .u32to64).result.bits = 64 ∧
      (Op.arith .add .w64).result.bits = 64 := by decide
  have hbase : memBase.toNat = 0x1000 := by decide
  simp only [Ty.toNat_and_mask, UInt64.toNat_add, UInt32.toNat_toUInt64, UInt64.toNat_toUInt32,
    hbits, hbase]
  omega

theorem Masked.within {e : Expr} {m : Machine} {v : UInt64} {k : Nat} (h : Masked e)
    (hv : m.eval e = .ok v) (hk : k ≤ 8) : ∀ i < k, InMemory (v + .ofNat i) := by
  obtain ⟨hlo, hhi⟩ := h.toNat_eval hv
  intro i hi
  have hsum : (v + .ofNat i).toNat = v.toNat + i := by
    rw [UInt64.toNat_add, UInt64.toNat_ofNat']
    omega
  rw [InMemory, UInt64.le_iff_toNat_le, UInt64.lt_iff_toNat_lt, hsum]
  have hbase : memBase.toNat = 0x1000 ∧ (memBase + memBytes).toNat = 0x1040 := by decide
  omega

/-- All loads of the expression have masked addresses. -/
def LoadsMasked (e : Expr) : Prop := ∀ T a, .load T a ∈ e.nodes → Masked a

theorem loadsMasked_of_children {e : Expr} (hload : ∀ T a, e = .load T a → Masked a)
    (hc : ∀ c ∈ e.children, LoadsMasked c) : LoadsMasked e := by
  intro T a ha
  rcases Expr.mem_nodes.mp ha with heq | ⟨c, hmem, ha⟩
  · exact hload T a heq.symm
  · exact hc c hmem T a ha

theorem LoadsMasked.within {e : Expr} (h : LoadsMasked e) (m : Machine) :
    ∀ x ∈ m.loads e, x.Within InMemory := by
  intro x hx
  obtain ⟨T, a, v, hn, hv, rfl⟩ := Machine.exists_of_mem_loads hx
  exact (h T a hn).within hv T.bytes_le

/-! ## Expressions -/

/-- The expression has the type `T` under the policy of blocks that run in the sample environment on
`n` register bytes, and its loads have masked addresses. -/
structure Fit (n : Nat) (temps : Array Ty) (defs : List Temp) (T : Ty) (e : Expr) : Prop where
  hasTy : e.HasTy (.fits env n) temps defs T
  masked : LoadsMasked e

namespace Fit

variable {n : Nat} {temps temps' : Array Ty} {defs defs' : List Temp} {T U : Ty} {a b c : Expr}

theorem const {c : Const} (hty : c.ty = T) (hT : T ≠ .invalid) (hfits : c.fits = true) :
    Fit n temps defs T (.const c) :=
  ⟨⟨hty, hT, hfits⟩, loadsMasked_of_children (by simp) (by simp [Expr.children])⟩

theorem tmp {t : Temp} (ht : tempTy temps t = .ok T) (hdef : t ∈ defs) :
    Fit n temps defs T (.tmp t) :=
  ⟨⟨ht, hdef⟩, loadsMasked_of_children (by simp) (by simp [Expr.children])⟩

theorem get {off : Int64} (h0 : 0 ≤ off) (hT : T.bytes ≠ 0) (hoff : off.toInt + T.bytes ≤ n) :
    Fit n temps defs T (.get off T) :=
  ⟨⟨rfl, h0, hT, hoff⟩, loadsMasked_of_children (by simp) (by simp [Expr.children])⟩

theorem getIx {w : Window} {bias : Int64} (hw : w.Proper) (hstop : w.stop ≤ n)
    (ha : Fit n temps defs .i32 a) : Fit n temps defs w.elem (.getIx w a bias) :=
  ⟨⟨rfl, hw, hstop, ha.hasTy⟩,
    loadsMasked_of_children (by simp) (by simpa [Expr.children] using ha.masked)⟩

theorem unop {op : Op} (hres : op.result = T) (harity : op.arity = 1)
    (ha : Fit n temps defs op.arg1 a) : Fit n temps defs T (.unop op a) :=
  ⟨⟨hres, harity, ha.hasTy⟩,
    loadsMasked_of_children (by simp) (by simpa [Expr.children] using ha.masked)⟩

theorem binop {op : Op} (hres : op.result = T) (harity : op.arity = 2)
    (ha : Fit n temps defs op.arg1 a) (hb : Fit n temps defs op.arg2 b) :
    Fit n temps defs T (.binop op a b) :=
  ⟨⟨hres, harity, ha.hasTy, hb.hasTy⟩,
    loadsMasked_of_children (by simp) (by simpa [Expr.children] using ⟨ha.masked, hb.masked⟩)⟩

theorem load (hT : T.bytes ≠ 0) (ha : Fit n temps defs .i64 a) (hmask : Masked a) :
    Fit n temps defs T (.load T a) := by
  refine ⟨⟨rfl, hT, .inr ha.hasTy⟩, loadsMasked_of_children ?_ ?_⟩
  · intro U b heq
    rw [Expr.load.injEq] at heq
    exact heq.2 ▸ hmask
  · simpa [Expr.children] using ha.masked

/-- A call of `mix32`, which answers every pair of arguments. -/
theorem mix (ha : Fit n temps defs .i32 a) (hb : Fit n temps defs .i32 b) :
    Fit n temps defs .i32 (.call "mix32" .i32 [a, b]) := by
  refine ⟨⟨rfl, by simp, by simp [Ty.bytes], [.i32, .i32], ⟨ha.hasTy, hb.hasTy, trivial⟩, ?_⟩,
    loadsMasked_of_children (by simp) (by simpa [Expr.children] using ⟨ha.masked, hb.masked⟩)⟩
  refine ⟨mixHelper, rfl, fun vs hvs => ?_⟩
  obtain ⟨x, y, rfl⟩ := List.length_eq_two.mp hvs
  exact ⟨_, rfl⟩

theorem select (hc : Fit n temps defs .i8 c) (ha : Fit n temps defs T a)
    (hb : Fit n temps defs T b) : Fit n temps defs T (.select c a b) :=
  ⟨⟨hc.hasTy, ha.hasTy, hb.hasTy⟩, loadsMasked_of_children (by simp)
    (by simpa [Expr.children] using ⟨hc.masked, ha.masked, hb.masked⟩)⟩

theorem mono (h : Fit n temps defs T a) (htemps : temps.toList <+: temps'.toList)
    (hdefs : defs ⊆ defs') : Fit n temps' defs' T a :=
  ⟨h.hasTy.mono (.refl _) (tempTy_mono htemps) hdefs, h.masked⟩

end Fit

/-- The temporaries of the pool are declared with their types, and defined. -/
def Pool.Declared (p : Pool) (temps : Array Ty) (defs : List Temp) : Prop :=
  ∀ d ∈ p, tempTy temps d.2 = .ok d.1 ∧ d.2 ∈ defs

section

variable {σ : Type} {src : Source σ} {p : Pool} {n fuel : Nat} {temps : Array Ty}
  {defs : List Temp} {T : Ty}

theorem yields_constant (hT : T.tag ≠ .invalid) :
    Yields (constant src T) fun c => c.ty = T ∧ c.fits = true := by
  have hofTy : ∀ v, (Const.ofTy T v).ty = T ∧ (Const.ofTy T v).fits = true := fun v =>
    ⟨Const.ty_ofTy hT v, Const.fits_ofTy hT v⟩
  unfold constant
  split
  · rename_i hf64
    subst hf64
    refine (yields_any _).bind fun i _ => ?_
    split
    · exact (yields_any _).bind fun _ _ => yields_pure ⟨rfl, rfl⟩
    · exact (yields_any _).bind fun _ _ => yields_pure ⟨rfl, rfl⟩
  · refine (yields_any _).bind fun i _ => ?_
    split
    · exact yields_pure (hofTy _)
    · exact (yields_any _).bind fun _ _ => yields_pure (hofTy _)
    · exact yields_pure (hofTy _)
    · exact (yields_any _).bind fun _ _ => yields_pure (hofTy _)

/-- Offsets leave room for a value in the first 160 register bytes. -/
theorem yields_offset (hT : T.tag ≠ .invalid) :
    Yields (offset src T) fun off => 0 ≤ off ∧ off.toInt + T.bytes ≤ 160 := by
  have hbytes := Ty.bytes_ne_zero_of_tag hT
  have hle := T.bytes_le
  refine (yields_any _).bind fun i _ => ?_
  split
  · refine (yields_below _).bind fun k hk => yields_pure ?_
    have hsum : (window.base + .ofNat k).toInt = 128 + k := by
      have hk' : (Int64.ofNat k).toInt = k := Int64.toInt_ofNat_of_lt (by omega)
      have hbase : window.base.toInt = 128 := by decide
      rw [toInt_add_of_bounds (by omega) (by omega), hk', hbase]
    rw [Int64.le_iff_toInt_le, hsum, Int64.toInt_zero]
    omega
  · refine (yields_below _).bind fun k hk => yields_pure ?_
    have hmul : T.bytes * (k + 1) ≤ 64 :=
      (Nat.mul_le_mul_left _ hk).trans (Nat.mul_div_le 64 T.bytes)
    have hk' : (Int64.ofNat (T.bytes * k)).toInt = T.bytes * k :=
      (Int64.toInt_ofNat_of_lt (by rw [Nat.mul_succ] at hmul; omega)).trans (by push_cast; rfl)
    rw [Int64.le_iff_toInt_le, hk', Int64.toInt_zero]
    rw [Nat.mul_succ] at hmul
    zify at hmul
    constructor
    · positivity
    · omega

theorem yields_anyWindow :
    Yields (anyWindow src) fun w => w.Proper ∧ w.stop ≤ 256 ∧ w.elem.tag ≠ .invalid := by
  refine (yields_any _).bind fun i _ => ?_
  split
  · exact yields_pure ⟨⟨by decide, by decide, by decide⟩, by decide, by decide⟩
  · exact yields_pure ⟨⟨by decide, by decide, by decide⟩, by decide, by decide⟩

theorem yields_atom (hp : p.Declared temps defs) (hT : T.tag ≠ .invalid) :
    Yields (atom src p T) (Fit n temps defs T) := by
  have hinvalid : T ≠ .invalid := by
    rintro rfl
    exact hT rfl
  have hconst : Yields (do return Expr.const (← constant src T)) (Fit n temps defs T) :=
    (yields_constant hT).bind fun c hc => yields_pure (.const hc.1 hinvalid hc.2)
  unfold atom
  dsimp only
  split
  · exact hconst
  · refine (yields_any _).bind fun i _ => ?_
    split
    · exact hconst
    · refine (yields_pick _).bind fun t ht => yields_pure ?_
      obtain ⟨⟨U, t'⟩, hd, heq⟩ := List.mem_filterMap.mp ht
      simp only [Option.ite_none_right_eq_some, Option.some.injEq] at heq
      obtain ⟨rfl, rfl⟩ := heq
      obtain ⟨hty, hdef⟩ := hp _ hd
      exact .tmp hty hdef

/-- The operators of the table have operands whose types have constants. -/
theorem tag_args : ∀ op ∈ Op.table, op.isValid = true ∧ op.arg1.tag ≠ .invalid ∧
    (op.arg2 ≠ .invalid → op.arg2.tag ≠ .invalid) := by decide

theorem shift_args {op : Op} (h : op.isShift = true) : op.arg2 = .i8 := by
  cases op <;> simp_all [Op.isShift, Op.arg2]

theorem fits_ofNat {tag : Tag} {k : Nat} (hk : k < 2 ^ tag.ty.bits) :
    Const.fits ⟨tag, .ofNat k⟩ = true := by
  have hlt : tag.ty.Fits (.ofNat k) := by
    rw [Ty.fits_iff_lt, UInt64.toNat_ofNat']
    exact (Nat.mod_le _ _).trans_lt hk
  simp [Const.fits, Const.ty, Ty.fits_iff_and_compl.mp hlt]

/-- With this much fuel, expressions, operations, indexes and addresses are generated as they should
be. -/
structure Supplies (src : Source σ) (p : Pool) (n : Nat) (temps : Array Ty) (defs : List Temp)
    (fuel : Nat) : Prop where
  expr : ∀ T d, T.tag ≠ .invalid → Yields (expr src p fuel T d) (Fit n temps defs T)
  operation : ∀ T d, T.tag ≠ .invalid → Yields (operation src p fuel T d) (Fit n temps defs T)
  index : Yields (index src p fuel) (Fit n temps defs .i32)
  address : Yields (address src p fuel) fun e => Fit n temps defs .i64 e ∧ Masked e

namespace Supplies

theorem zero : Supplies src p n temps defs 0 :=
  ⟨fun _ _ _ => yields_throw _, fun _ _ _ => yields_throw _, yields_throw _, yields_throw _⟩

theorem expr_succ (h : Supplies src p n temps defs fuel) (hp : p.Declared temps defs)
    (hn : 256 ≤ n) (d : Nat) (hT : T.tag ≠ .invalid) :
    Yields (Sample.expr src p (fuel + 1) T d) (Fit n temps defs T) := by
  have hbytes := Ty.bytes_ne_zero_of_tag hT
  cases d with
  | zero => exact yields_atom hp hT
  | succ d =>
    have hop := h.operation T d hT
    rw [Sample.expr]
    refine (yields_any _).bind fun i _ => ?_
    split
    · exact yields_atom hp hT
    · refine (yields_any _).bind fun j _ => ?_
      -- one case for each form that the choice stands for
      split
      · exact (yields_offset hT).bind fun off hoff =>
          yields_pure (.get hoff.1 hbytes (hoff.2.trans (by omega)))
      · exact (yields_offset hT).bind fun off hoff =>
          yields_pure (.get hoff.1 hbytes (hoff.2.trans (by omega)))
      · refine yields_anyWindow.bind fun w hw => ?_
        split
        · rename_i helem
          subst helem
          exact h.index.bind fun ix hix => (yields_any _).bind fun b _ =>
            yields_pure (.getIx hw.1 (hw.2.1.trans (by omega)) hix)
        · exact hop
      · split
        · exact h.address.bind fun a ha => yields_pure (.load hbytes ha.1 ha.2)
        · exact hop
      · split
        · rename_i hi32
          subst hi32
          exact (h.expr .i32 d hT).bind fun a ha => (h.expr .i32 d hT).bind fun b hb =>
            yields_pure (.mix ha hb)
        · exact hop
      · split
        · exact (h.expr .i8 d (by decide)).bind fun c hc => (h.expr T d hT).bind fun z hz =>
            (h.expr T d hT).bind fun x hx => yields_pure (.select hc hz hx)
        · exact hop
      · exact hop

theorem operation_succ (h : Supplies src p n temps defs fuel) (d : Nat) :
    Yields (Sample.operation src p (fuel + 1) T d) (Fit n temps defs T) := by
  rw [Sample.operation]
  refine (yields_pick _).bind fun op hop => ?_
  obtain ⟨hmem, hres⟩ := List.mem_filter.mp hop
  obtain ⟨hvalid, harg1, harg2⟩ := tag_args op hmem
  have hres : op.result = T := by simpa using hres
  split
  · rename_i hunary
    have harity : op.arity = 1 := by simp [Op.arity, hvalid, hunary]
    exact (h.expr _ d harg1).bind fun a ha => yields_pure (.unop hres harity ha)
  · rename_i hbinary
    have harity : op.arity = 2 := by simp [Op.arity, hvalid, hbinary]
    refine (h.expr _ d harg1).bind fun a ha => (h.expr _ d (harg2 hbinary)).bind fun b hb => ?_
    split
    · exact yields_pure (.binop hres harity ha hb)
    · rename_i hshift
      have hi8 : op.arg2 = .i8 := shift_args (by simpa using hshift)
      refine (yields_any _).bind fun i _ => ?_
      split
      · refine (yields_below _).bind fun k hk => yields_pure (.binop hres harity ha ?_)
        have hk' : k < 256 := by
          have hwidth := op.arg1.bits_le
          omega
        rw [hi8]
        exact .const rfl (by simp) (fits_ofNat hk')
      · exact yields_pure (.binop hres harity ha hb)

theorem index_succ (h : Supplies src p n temps defs fuel) :
    Yields (Sample.index src p (fuel + 1)) (Fit n temps defs .i32) := by
  have hconst : ∀ k < 20, Fit n temps defs .i32 (.const ⟨.u32, .ofNat k⟩) := fun k hk =>
    .const rfl (by simp) (fits_ofNat (hk.trans (by decide)))
  rw [Sample.index]
  refine (h.expr .i32 1 (by decide)).bind fun ix hix => (yields_any _).bind fun i _ => ?_
  split
  · exact yields_pure hix
  · exact (yields_below _).bind fun k hk =>
      yields_pure (.binop rfl rfl hix (hconst k hk))
  · exact (yields_below _).bind fun k hk =>
      yields_pure (.binop rfl rfl hix (hconst k hk))

theorem address_succ (h : Supplies src p n temps defs fuel) :
    Yields (Sample.address src p (fuel + 1)) fun e => Fit n temps defs .i64 e ∧ Masked e := by
  rw [Sample.address]
  refine (h.expr .i32 1 (by decide)).bind fun x hx => yields_pure ⟨?_, x, rfl⟩
  have hmask : Fit n temps defs .i32 (.const ⟨.u32, memBytes - 8⟩) :=
    .const rfl (by simp) (by decide)
  have hbase : Fit n temps defs .i64 (.const ⟨.u64, memBase⟩) := .const rfl (by simp) (by decide)
  exact .binop rfl rfl hbase (.unop rfl rfl (.binop rfl rfl hx hmask))

end Supplies

/-- Whatever the fuel, what is generated is as it should be. -/
theorem supplies (hp : p.Declared temps defs) (hn : 256 ≤ n) (fuel : Nat) :
    Supplies src p n temps defs fuel := by
  induction fuel with
  | zero => exact .zero
  | succ fuel ih =>
    exact ⟨fun _ d hT => ih.expr_succ hp hn d hT, fun _ d _ => ih.operation_succ d, ih.index_succ,
      ih.address_succ⟩

end

/-! ## The helper with effects -/

/-- What `bump` does: it reads the register, then memory, and writes their sum and the argument. -/
theorem bumpHelper_eq_ok {s s' : State} {vs : List UInt64} {addr r : UInt64} :
    bumpHelper s vs addr = .ok (r, s') ↔
      ∃ v a rest, s.readReg bumpReg .i32 = .ok v ∧ vs = a :: rest ∧ r = v.toUInt32.toUInt64 ∧
        s.writeReg bumpReg .i32 (v.toUInt32 + s.load32 addr + a.toUInt32).toUInt64 = .ok s' := by
  unfold bumpHelper State.reg32 State.setReg32
  cases vs with
  | nil =>
    simp only [bind_eq_ok]
    simp
  | cons a rest =>
    simp only [bind_eq_ok]
    constructor
    · rintro ⟨_, ⟨v, hv, hold⟩, s₁, hw, heq⟩
      cases hold
      cases heq
      exact ⟨v, a, rest, hv, rfl, rfl, hw⟩
    · rintro ⟨v, _, _, hv, heq, rfl, hw⟩
      cases heq
      exact ⟨_, ⟨v, hv, rfl⟩, s', hw, rfl⟩

theorem exists_bump {s : State} {n : Nat} (hsize : s.regs.size = n) (hn : 256 ≤ n)
    (hword : n < 2 ^ 63) {vs : List UInt64} (hvs : vs.length = 1) (addr : UInt64) :
    ∃ r s', bumpHelper s vs addr = .ok (r, s') ∧ s'.regs.size = n := by
  have hreg : bumpReg.toInt = 60 ∧ Ty.i32.bytes = 4 := by decide
  obtain ⟨a, rfl⟩ := List.length_eq_one_iff.mp hvs
  obtain ⟨v, hv⟩ : ∃ v, s.readReg bumpReg .i32 = .ok v :=
    State.exists_readReg (by omega) (by omega) (by omega)
  obtain ⟨s', hs'⟩ : ∃ s', s.writeReg bumpReg .i32
      (v.toUInt32 + s.load32 addr + a.toUInt32).toUInt64 = .ok s' :=
    State.exists_writeReg (by omega) (by omega) (by omega)
  exact ⟨_, s', bumpHelper_eq_ok.mpr ⟨v, a, [], hv, rfl, rfl, hs'⟩,
    (State.size_writeReg hs').trans hsize⟩

/-- `bump` reads four bytes of memory and writes none. -/
theorem bump_local : EffectHelper.Local bumpHelper 4 := by
  intro s vs addr r s' h R hR
  obtain ⟨v, a, rest, hv, rfl, rfl, hw⟩ := bumpHelper_eq_ok.mp h
  refine ⟨fun x _ => by rw [State.mem_writeReg hw], fun t ht => ?_⟩
  have hload : t.load32 addr = s.load32 addr := by
    have hword : ∀ i < Ty.i32.bytes, R (addr + .ofNat i) := hR
    rw [State.load32, State.load32, ht.load hword]
  obtain ⟨t', hw', hagree⟩ := ht.writeReg hw
  exact ⟨t', bumpHelper_eq_ok.mpr ⟨v, a, rest, (ht.readReg _ _).trans hv, rfl, rfl, hload ▸ hw'⟩,
    hagree⟩

/-! ## Statements -/

/-- All addresses in the statement are masked, and effects are calls of `bump`. -/
structure Tame (s : Stmt) : Prop where
  operands : ∀ e ∈ s.operands, LoadsMasked e
  store : ∀ addr data, s = .store addr data → Masked addr
  effect : ∀ y, s = .effect y → y.callee = "bump" ∧ Masked y.memAddr ∧ y.memBytes = 4

theorem Tame.within {s : Stmt} (h : Tame s) (m : Machine) :
    ∀ x ∈ m.accesses s, x.Within InMemory := by
  intro x hx
  rcases Machine.exists_of_mem_accesses hx with ⟨e, he, hx⟩ | ⟨addr, data, a, T, hs, ha, rfl⟩ |
    ⟨y, a, hs, -, ha, rfl⟩
  · exact (h.operands e he).within m x hx
  · exact (h.store addr data hs).within ha T.bytes_le
  · obtain ⟨-, hmask, hbytes⟩ := h.effect y hs
    exact hmask.within ha (hbytes.le.trans (by decide))

theorem Tame.local {y : Effect} (h : Tame (.effect y)) : y.Local env := by
  obtain ⟨hcallee, -, hbytes⟩ := h.effect y rfl
  have hbump : env.effect "bump" = some bumpHelper := rfl
  intro f hf
  rw [hcallee, hbump, Option.some.injEq] at hf
  rw [hbytes, ← hf]
  exact bump_local

/-- The most temporaries that a block can name: they are numbered by 32-bit words. -/
def maxTemps : Nat := 2 ^ 31

/-- The temporaries of the draft can be used, as long as they can be named at all. -/
def Draft.Usable (d : Draft) (defs : List Temp) : Prop :=
  d.temps.size ≤ maxTemps → d.pool.Declared d.temps defs ∧ (∀ t ∈ defs, t.toInt < d.temps.size) ∧
    ∀ T ∈ d.temps, T.bytes ≠ 0

/-- The statement `s` may follow behind the draft `d`, and leads to the draft `d'`. -/
structure Follows (n : Nat) (d : Draft) (defs : List Temp) (s : Stmt) (d' : Draft) : Prop where
  ext : d.temps.toList <+: d'.temps.toList
  ok : d'.temps.size ≤ maxTemps → s.Ok (.fits env n) d'.temps defs ∧ Tame s
  usable : d'.Usable (s.defsAfter defs)
  defines : ∀ k, d.temps.size ≤ k → k < d'.temps.size → s.def? = some (.ofNat k)

section

variable {σ : Type} {src : Source σ} {n : Nat} {d : Draft} {defs : List Temp} {s : Stmt} {T : Ty}

theorem usable_empty : Draft.Usable ⟨#[], []⟩ [] := by
  intro _
  exact ⟨by simp [Pool.Declared], by simp, by simp⟩

theorem Follows.same (hd : d.Usable defs) (hdef : s.def? = none)
    (hs : d.temps.size ≤ maxTemps → s.Ok (.fits env n) d.temps defs ∧ Tame s) :
    Follows n d defs s d :=
  ⟨List.prefix_rfl, hs, by rw [Stmt.defsAfter, hdef]; exact hd, fun _ _ _ => by omega⟩

/-- A statement that defines the next temporary. -/
theorem Follows.fresh (hd : d.Usable defs) (hdef : s.def? = some (d.fresh T).1)
    (hT : T.bytes ≠ 0)
    (hs : d.temps.size ≤ maxTemps → tempTy (d.fresh T).2.temps (d.fresh T).1 = .ok T →
      (d.fresh T).1 ∉ defs → s.Ok (.fits env n) (d.fresh T).2.temps defs ∧ Tame s) :
    Follows n d defs s (d.fresh T).2 := by
  have hext : d.temps.toList <+: (d.fresh T).2.temps.toList := by simp [Draft.fresh]
  have hpush : (d.fresh T).2.temps.size = d.temps.size + 1 := by simp [Draft.fresh]
  have hnum : (d.fresh T).2.temps.size ≤ maxTemps → (d.fresh T).1.toInt = d.temps.size := by
    intro hsize
    rw [hpush, maxTemps] at hsize
    exact Int32.toInt_ofNat_of_lt hsize
  have hty : (d.fresh T).2.temps.size ≤ maxTemps →
      tempTy (d.fresh T).2.temps (d.fresh T).1 = .ok T := by
    intro hsize
    rw [tempTy_eq_ok, hnum hsize]
    simp [Draft.fresh]
  refine ⟨hext, fun hsize => ?_, fun hsize => ?_, fun k hle hlt => ?_⟩
  -- all numbers in use are below that of the new temporary, so it is not defined yet
  · have hle : d.temps.size ≤ maxTemps := by omega
    obtain ⟨-, hbound, -⟩ := hd hle
    refine hs hle (hty hsize) fun hmem => ?_
    have hlt := hbound _ hmem
    rw [hnum hsize] at hlt
    omega
  · obtain ⟨hpool, hbound, hbytes⟩ := hd (by omega)
    rw [Stmt.defsAfter, hdef]
    refine ⟨fun x hx => ?_, fun t ht => ?_, fun U hU => ?_⟩
    · rcases List.mem_append.mp hx with hx | hx
      · obtain ⟨hx1, hx2⟩ := hpool x hx
        exact ⟨tempTy_mono hext _ _ hx1, List.mem_cons_of_mem _ hx2⟩
      · rw [List.mem_singleton.mp hx]
        exact ⟨hty hsize, List.mem_cons_self⟩
    · rcases List.mem_cons.mp ht with rfl | ht
      · rw [hnum hsize, hpush]
        omega
      · have hlt := hbound t ht
        omega
    · rcases Array.mem_push.mp hU with hU | rfl
      · exact hbytes U hU
      · exact hT
  · obtain rfl : k = d.temps.size := by omega
    exact hdef

/-- What holds of a generated part of a statement, as long as temporaries can be named. -/
def Draft.Part (n : Nat) (d : Draft) (defs : List Temp) (T : Ty) (e : Expr) : Prop :=
  d.temps.size ≤ maxTemps → Fit n d.temps defs T e

theorem Draft.Usable.supplies (hd : d.Usable defs) (hn : 256 ≤ n) (hsize : d.temps.size ≤ maxTemps)
    (fuel : Nat) : Supplies src d.pool n d.temps defs fuel :=
  Sample.supplies (hd hsize).1 hn fuel

theorem Draft.Usable.expr (hd : d.Usable defs) (hn : 256 ≤ n) (fuel depth : Nat)
    (hT : T.tag ≠ .invalid) :
    Yields (expr src d.pool fuel T depth) (d.Part n defs T) := by
  by_cases hsize : d.temps.size ≤ maxTemps
  · exact ((hd.supplies hn hsize fuel).expr T depth hT).mono fun _ h _ => h
  · exact (yields_any _).mono fun _ _ h => absurd h hsize

theorem Draft.Usable.index (hd : d.Usable defs) (hn : 256 ≤ n) (fuel : Nat) :
    Yields (index src d.pool fuel) (d.Part n defs .i32) := by
  by_cases hsize : d.temps.size ≤ maxTemps
  · exact (hd.supplies hn hsize fuel).index.mono fun _ h _ => h
  · exact (yields_any _).mono fun _ _ h => absurd h hsize

theorem Draft.Usable.address (hd : d.Usable defs) (hn : 256 ≤ n) (fuel : Nat) :
    Yields (address src d.pool fuel)
      fun e => d.Part n defs .i64 e ∧ (d.temps.size ≤ maxTemps → Masked e) := by
  by_cases hsize : d.temps.size ≤ maxTemps
  · exact (hd.supplies hn hsize fuel).address.mono fun _ h => ⟨fun _ => h.1, fun _ => h.2⟩
  · exact (yields_any _).mono fun _ _ => ⟨fun h => absurd h hsize, fun h => absurd h hsize⟩

/-- A call of `bump` with a word and a masked address keeps the rules of an effect. -/
theorem bump_ok {temps : Array Ty} {a m g : Expr} {result : Option Temp} (hn : 256 ≤ n)
    (hword : n < 2 ^ 63) (ha : Fit n temps defs .i32 a) (hm : Fit n temps defs .i64 m)
    (hmask : Masked m) (hg : Fit n temps defs .i1 g)
    (hresult : ∀ t, result = some t →
      WellFormed.isTrueConst g = true ∧ (∃ T, tempTy temps t = .ok T) ∧ t ∉ defs) :
    let s := Stmt.effect ⟨"bump", g, [a], result, .read, m, 4, [⟨.modify, bumpReg, 4⟩]⟩
    s.Ok (.fits env n) temps defs ∧ Tame s := by
  have hsize : (0 : Int64) < 4 := by decide
  refine ⟨⟨by simp, hg.hasTy, ?_, ⟨.inr hm.hasTy, hsize⟩, ?_, ?_, hresult⟩, ?_⟩
  · intro e he
    rw [List.mem_singleton.mp he]
    exact ⟨_, ha.hasTy⟩
  · intro t ht
    rw [List.mem_singleton.mp ht]
    exact ⟨⟨by simp, rfl⟩, by decide, by decide⟩
  · exact ⟨bumpHelper, rfl, fun s vs addr hs hvs => exists_bump hs hn hword hvs addr⟩
  · refine ⟨?_, by simp, ?_⟩
    · simpa [Stmt.operands, Effect.operands, Effect.touchesMem] using
        ⟨hm.masked, hg.masked, ha.masked⟩
    · rintro y heq
      cases heq
      exact ⟨rfl, hmask, rfl⟩

theorem yields_effect (hd : d.Usable defs) (hn : 256 ≤ n) (hword : n < 2 ^ 63) (fuel : Nat) :
    Yields (effect src fuel d) fun r => Follows n d defs r.1 r.2 := by
  unfold effect
  refine (hd.expr hn fuel 1 (by decide)).bind fun a ha => (hd.address hn fuel).bind fun m hm => ?_
  refine (yields_any _).bind fun i _ => ?_
  split
  · refine (hd.expr hn fuel 1 (by decide)).bind fun g hg => yields_pure ?_
    exact .same hd rfl fun hsize =>
      bump_ok hn hword (ha hsize) (hm.1 hsize) (hm.2 hsize) (hg hsize) (by simp)
  · refine yields_pure (Follows.fresh hd rfl (by decide) fun hsize hty hnew => ?_)
    have hext : d.temps.toList <+: (d.fresh .i32).2.temps.toList := by simp [Draft.fresh]
    refine bump_ok hn hword ((ha hsize).mono hext (List.Subset.refl _))
      ((hm.1 hsize).mono hext (List.Subset.refl _)) (hm.2 hsize) (.const rfl (by simp) rfl) ?_
    rintro t heq
    cases heq
    exact ⟨rfl, ⟨_, hty⟩, hnew⟩

theorem tag_of_mem_types : ∀ T ∈ types, T.tag ≠ .invalid := by decide

/-- The statement accesses memory only through its operands. -/
def Plain : Stmt → Prop
  | .store _ _ | .effect _ => False
  | _ => True

theorem tame_of_operands (hs : Plain s) (hops : ∀ x ∈ s.operands, LoadsMasked x) : Tame s := by
  refine ⟨hops, ?_, ?_⟩
  · rintro addr data rfl
    exact hs.elim
  · rintro y rfl
    exact hs.elim

theorem yields_stmt (c : Config) (hd : d.Usable defs) (hn : 256 ≤ n) (hword : n < 2 ^ 63)
    (fuel : Nat) : Yields (stmt src c fuel d) fun r => Follows n d defs r.1 r.2 := by
  unfold stmt
  dsimp only
  refine (yields_any _).bind fun r _ => ?_
  split
  · -- an assignment to the next temporary
    refine (yields_pick _).bind fun T hT => ?_
    have hT := tag_of_mem_types T hT
    refine (hd.expr hn fuel _ hT).bind fun e he => ?_
    refine yields_pure (Follows.fresh hd rfl (Ty.bytes_ne_zero_of_tag hT) fun hsize hty hnew => ?_)
    have hext : d.temps.toList <+: (d.fresh T).2.temps.toList := by simp [Draft.fresh]
    have he' := (he hsize).mono hext (List.Subset.refl _)
    exact ⟨⟨T, he'.hasTy, hty, hnew⟩,
      tame_of_operands trivial (by simpa [Stmt.operands] using he'.masked)⟩
  split
  · -- a register write
    refine (yields_pick _).bind fun T hT => ?_
    have hT := tag_of_mem_types T hT
    refine (yields_offset hT).bind fun off hoff => (hd.expr hn fuel _ hT).bind fun e he => ?_
    refine yields_pure (.same hd rfl fun hsize => ?_)
    exact ⟨⟨hoff.1, T, (he hsize).hasTy, hoff.2.trans (by omega)⟩,
      tame_of_operands trivial (by simpa [Stmt.operands] using (he hsize).masked)⟩
  split
  · -- an indexed register write
    refine yields_anyWindow.bind fun w hw => (hd.index hn fuel).bind fun ix hix => ?_
    refine (yields_any _).bind fun b _ => ?_
    refine (hd.expr hn fuel _ hw.2.2).bind fun e he => yields_pure (.same hd rfl fun hsize => ?_)
    refine ⟨⟨hw.1, hw.2.1.trans (by omega), (hix hsize).hasTy, (he hsize).hasTy⟩, ?_⟩
    exact tame_of_operands trivial
      (by simpa [Stmt.operands] using ⟨(hix hsize).masked, (he hsize).masked⟩)
  split
  · -- a store
    refine (yields_pick _).bind fun T hT => ?_
    have hT := tag_of_mem_types T (List.mem_of_mem_tail hT)
    refine (hd.address hn fuel).bind fun a ha => (hd.expr hn fuel _ hT).bind fun e he => ?_
    refine yields_pure (.same hd rfl fun hsize => ?_)
    refine ⟨⟨.inr (ha.1 hsize).hasTy, T, (he hsize).hasTy⟩, ?_, ?_, by simp⟩
    · simpa [Stmt.operands] using ⟨(ha.1 hsize).masked, (he hsize).masked⟩
    · rintro addr data heq
      cases heq
      exact ha.2 hsize
  split
  · exact yields_effect hd hn hword fuel
  split
  · -- an exit
    refine (hd.expr hn fuel _ (by decide)).bind fun g hg => (yields_any _).bind fun k _ => ?_
    refine yields_pure (.same hd rfl fun hsize => ?_)
    exact ⟨⟨(hg hsize).hasTy, .inr rfl, rfl, trivial⟩,
      tame_of_operands trivial (by simpa [Stmt.operands] using (hg hsize).masked)⟩
  · refine (yields_any _).bind fun i _ => ?_
    split
    · exact yields_pure (.same hd rfl fun _ =>
        ⟨trivial, tame_of_operands trivial (by simp [Stmt.operands])⟩)
    · have hlen : ∀ k < 15, (0 : Int64) ≤ 1 + .ofNat k := by decide
      refine (yields_any _).bind fun j _ => (yields_below _).bind fun k hk => ?_
      exact yields_pure (.same hd rfl fun _ =>
        ⟨hlen k hk, tame_of_operands trivial (by simp [Stmt.operands])⟩)

/-! ## Blocks -/

/-- A sequence of statements that may follow the draft `d`, leading to the draft `d'`. -/
structure FollowsAll (n : Nat) (d : Draft) (defs : List Temp) (ss : List Stmt) (d' : Draft) :
    Prop where
  ext : d.temps.toList <+: d'.temps.toList
  ok : d'.temps.size ≤ maxTemps → Stmt.AllOk (.fits env n) d'.temps defs ss ∧ ∀ s ∈ ss, Tame s
  usable : d'.Usable (Stmt.defsAfterAll ss defs)
  defines : ∀ k, d.temps.size ≤ k → k < d'.temps.size → ∃ s ∈ ss, s.def? = some (.ofNat k)

theorem FollowsAll.nil (hd : d.Usable defs) : FollowsAll n d defs [] d :=
  ⟨List.prefix_rfl, fun _ => ⟨trivial, by simp⟩, hd, fun _ _ _ => by omega⟩

theorem FollowsAll.cons {d₁ d' : Draft} {ss : List Stmt} (hs : Follows n d defs s d₁)
    (hss : FollowsAll n d₁ (s.defsAfter defs) ss d') : FollowsAll n d defs (s :: ss) d' := by
  refine ⟨hs.ext.trans hss.ext, fun hsize => ?_, hss.usable, fun k hle hlt => ?_⟩
  · have hle := size_le_of_extends hss.ext
    obtain ⟨hok, htame⟩ := hs.ok (hle.trans hsize)
    obtain ⟨hoks, htames⟩ := hss.ok hsize
    refine ⟨⟨hok.mono (.refl _) (tempTy_mono hss.ext) (List.Subset.refl _) fun t ht => ?_, hoks⟩,
      List.forall_mem_cons.mpr ⟨htame, htames⟩⟩
    exact (hok.of_def? ht).2
  · by_cases hk : k < d₁.temps.size
    · exact ⟨s, List.mem_cons_self, hs.defines k hle hk⟩
    · obtain ⟨u, hu, hdef⟩ := hss.defines k (by omega) hlt
      exact ⟨u, List.mem_cons_of_mem _ hu, hdef⟩

theorem yields_stmts (c : Config) (hn : 256 ≤ n) (hword : n < 2 ^ 63) (fuel k : Nat)
    (hd : d.Usable defs) :
    Yields (stmts src c fuel k d) fun r => FollowsAll n d defs r.1 r.2 := by
  induction k generalizing d defs with
  | zero => exact yields_pure (.nil hd)
  | succ k ih =>
    refine (yields_stmt c hd hn hword fuel).bind fun r hr => ?_
    exact (ih hr.usable).bind fun rs hrs => yields_pure (.cons hr hrs)

/-- The block keeps the policy of blocks that run on `n` register bytes, and its addresses are
masked. -/
structure Runnable (n : Nat) (b : Block) : Prop where
  typed : b.Typed (.fits env n)
  nextFits : b.NextFits
  stmts : ∀ s ∈ b.stmts, Tame s
  next : LoadsMasked b.next

/-- Statements that follow the empty draft make a block with a typed successor. -/
theorem FollowsAll.runnable {d' : Draft} {ss : List Stmt} {next : Expr} {kind : JumpKind}
    (h : FollowsAll n ⟨#[], []⟩ [] ss d') (hsize : d'.temps.size ≤ maxTemps)
    (hnext : Fit n d'.temps (Stmt.defsAfterAll ss []) .i64 next) (hkind : kind.isValid = true) :
    Runnable n ⟨d'.temps, ss, next, kind⟩ := by
  obtain ⟨hok, htame⟩ := h.ok hsize
  refine ⟨⟨(h.usable hsize).2.2, hok, .inl (.inr hnext.hasTy), hkind⟩, ?_, htame, hnext.masked⟩
  rintro c rfl
  exact hnext.hasTy.2.2

/-- If more temporaries are declared than can be named, one of those that are defined has a negative
number. -/
theorem FollowsAll.refused {d' : Draft} {ss : List Stmt} {next : Expr} {kind : JumpKind}
    (h : FollowsAll n ⟨#[], []⟩ [] ss d') (hsize : maxTemps < d'.temps.size) :
    (⟨d'.temps, ss, next, kind⟩ : Block).check false ≠ .ok () := by
  obtain ⟨s, hs, hdef⟩ := h.defines maxTemps (Nat.zero_le _) hsize
  exact Block.check_ne_ok_of_negative hs hdef (by decide)

/-- A block is fit to run if its temporaries can be named, and refused otherwise. -/
structure Vetted (n : Nat) (b : Block) : Prop where
  runnable : b.temps.size ≤ maxTemps → Runnable n b
  refused : maxTemps < b.temps.size → b.check false ≠ .ok ()

theorem FollowsAll.vetted {d' : Draft} {ss : List Stmt} {next : Expr} {kind : JumpKind}
    (h : FollowsAll n ⟨#[], []⟩ [] ss d')
    (hnext : d'.temps.size ≤ maxTemps → Fit n d'.temps (Stmt.defsAfterAll ss []) .i64 next)
    (hkind : kind.isValid = true) : Vetted n ⟨d'.temps, ss, next, kind⟩ :=
  ⟨fun hsize => h.runnable hsize (hnext hsize) hkind, h.refused⟩

theorem FollowsAll.append {d₁ d' : Draft} {ss ss' : List Stmt} (h : FollowsAll n d defs ss d₁)
    (h' : FollowsAll n d₁ (Stmt.defsAfterAll ss defs) ss' d') :
    FollowsAll n d defs (ss ++ ss') d' := by
  refine ⟨h.ext.trans h'.ext, fun hsize => ?_, ?_, fun k hle hlt => ?_⟩
  · obtain ⟨hok, htame⟩ := h.ok ((size_le_of_extends h'.ext).trans hsize)
    obtain ⟨hok', htame'⟩ := h'.ok hsize
    exact ⟨Stmt.allOk_append.mpr ⟨hok.mono (.refl _) (tempTy_mono h'.ext), hok'⟩,
      List.forall_mem_append.mpr ⟨htame, htame'⟩⟩
  · rw [Stmt.defsAfterAll_append]
    exact h'.usable
  · by_cases hk : k < d₁.temps.size
    · obtain ⟨u, hu, hdef⟩ := h.defines k hle hk
      exact ⟨u, List.mem_append_left _ hu, hdef⟩
    · obtain ⟨u, hu, hdef⟩ := h'.defines k (by omega) hlt
      exact ⟨u, List.mem_append_right _ hu, hdef⟩

theorem fit_word {temps : Array Ty} (v : UInt64) : Fit n temps defs .i64 (.const ⟨.u64, v⟩) := by
  refine .const rfl (by simp) ?_
  have hmask : ~~~Ty.i64.mask = 0 := by decide
  simp [Const.fits, Const.ty, Tag.ty, hmask]

/-- Every generated block is fit to run, as long as its temporaries can be named. -/
theorem yields_block (c : Config) (hn : 256 ≤ n) (hword : n < 2 ^ 63) (fuel : Nat) :
    Yields (block src c fuel) (Vetted n) := by
  refine (yields_any _).bind fun k _ => ?_
  refine (yields_stmts (n := n) c hn hword fuel (k + 1) usable_empty).bind fun r hr => ?_
  obtain ⟨ss, d⟩ := r
  have hmark : FollowsAll n ⟨#[], []⟩ [] (.mark c.addr 4 :: ss) d := by
    refine .cons (.same usable_empty rfl fun _ => ⟨?_, ?_⟩) hr
    · exact (by decide : (0 : Int64) ≤ 4)
    · exact tame_of_operands trivial (by simp [Stmt.operands])
  dsimp only
  refine (yields_any _).bind fun i _ => ?_
  split
  · exact yields_pure (hmark.vetted (fun _ => fit_word _) rfl)
  · refine (hr.usable.expr hn fuel _ (by decide)).bind fun g hg => yields_pure ?_
    have hexit : Follows n d (Stmt.defsAfterAll ss []) (.exit g .boring ⟨.u64, c.addr⟩) d := by
      refine .same hr.usable rfl fun hsize => ⟨⟨(hg hsize).hasTy, .inr rfl, rfl, trivial⟩, ?_⟩
      exact tame_of_operands trivial (by simpa [Stmt.operands] using (hg hsize).masked)
    exact (hmark.append (.cons hexit (.nil hexit.usable))).vetted (fun _ => fit_word _) rfl
  · refine (hr.usable.address hn fuel).bind fun a ha => yields_pure ?_
    exact hmark.vetted ha.1 rfl
  · exact yields_pure (hmark.vetted (fun _ => fit_word _) rfl)

theorem Runnable.check {b : Block} (h : Runnable n b) : b.check false = .ok () :=
  Block.check_eq_ok_iff.mpr ⟨h.typed.mono (.any _), h.nextFits, by simp⟩

/-- A block that is fit to run on the registers of a state does so, and keeps to its memory. -/
theorem Runnable.run {b : Block} {st : State} (h : Runnable st.regs.size b)
    (hword : st.regs.size < 2 ^ 63) :
    (∃ r, (b.run st env).outcome = .ok r) ∧ b.Confined st env InMemory := by
  obtain ⟨out, hout⟩ := h.typed.exists_ends rfl hword
  obtain ⟨r, hr⟩ := Block.exists_outcome hout
  refine ⟨⟨r, hr⟩, Block.confined_of_trace (fun y hy => (h.stmts _ hy).local) hr ?_⟩
  exact Machine.within_trace h.next.within fun s hs => (h.stmts s hs).within

end

end Sample

open Sample in
/-- Whatever the random source answers, for every address, number of statements and depth: a block
that the generator returns passes the checker if it has no more temporaries than can be named, and
only then. From every state with at least 256 register bytes it then runs to its end and accesses no
memory but the 64 bytes at the base. -/
theorem generated_block_runs {σ : Type} (src : Source σ) (c : Config) (fuel : Nat) {seed seed' : σ}
    {b : Block} (hb : block src c fuel seed = .ok (b, seed')) :
    (b.check false = .ok () ↔ b.temps.size ≤ maxTemps) ∧
      (b.temps.size ≤ maxTemps → ∀ s : State, regBytes ≤ s.regs.size → s.regs.size < 2 ^ 63 →
        (∃ r, (b.run s env).outcome = .ok r) ∧ b.Confined s env InMemory) := by
  constructor
  · have hvetted := yields_block c (Nat.le_refl 256) (by decide) fuel seed b seed' hb
    refine ⟨fun hcheck => ?_, fun htemps => (hvetted.runnable htemps).check⟩
    by_contra htemps
    exact hvetted.refused (by omega) hcheck
  · intro htemps s hregs hword
    exact ((yields_block c hregs hword fuel seed b seed' hb).runnable htemps).run hword

/-- The source that answers with the numbers of a list. -/
def Source.script : Source (List Nat) where
  upTo := fun n s => (⟨s.headD 0 % (n + 1), Nat.mod_lt _ n.succ_pos⟩, s.tail)
  word := fun s => (.ofNat (s.headD 0), s.tail)

/-- Bumps a register, copies a word of memory at a place that the old value selects, may leave, and
jumps to an address that it selects too. -/
def Block.bumper : Block where
  temps := #[.i32]
  stmts := [.mark 0x400 4,
    .effect ⟨"bump", .const ⟨.u1, 1⟩, [.const ⟨.u32, 0xffffffff⟩], some 0, .read,
      Sample.masked (.get 12 .i32), 4, [⟨.modify, 60, 4⟩]⟩,
    .store (Sample.masked (.tmp 0)) (.load .i32 (Sample.masked (.tmp 0))),
    .exit (.const ⟨.u1, 1⟩) .boring ⟨.u64, 0x440⟩]
  next := Sample.masked (.tmp 0)
  kind := .ret

open Sample in
theorem generated_block_runs_bumper :
    Block.bumper.check false = .ok () ∧ Block.bumper.Confined (.zero 256) Sample.env InMemory := by
  have hb : block .script ⟨0x400, 4, 2⟩ 20 [2, 15, 0, 2, 1, 0, 1, 3, 1, 13, 2, 0, 1, 0, 1, 3, 0, 1,
      0, 17, 0, 2, 3, 2, 0, 1, 0] = .ok (.bumper, []) := rfl
  obtain ⟨hcheck, hrun⟩ := generated_block_runs .script ⟨0x400, 4, 2⟩ 20 hb
  have htemps : Block.bumper.temps.size ≤ maxTemps := by decide
  exact ⟨hcheck.mpr htemps,
    (hrun htemps (.zero 256) (by simp [State.zero, regBytes]) (by simp [State.zero])).2⟩

/-- The source that answers the first question with the largest number, and the others with zero. -/
def Source.first : Source Bool where
  upTo := fun n s => (bif s then Fin.last n else ⟨0, n.succ_pos⟩, false)
  word := fun _ => (0, false)

namespace Sample

theorem atom_first (p : Pool) : atom .first p .i1 false = .ok (.const (.ofTy .i1 0), false) := by
  unfold atom
  by_cases h : (p.ofTy .i1).isEmpty
  · simp only [h, if_true]
    rfl
  · simp only [h]
    rfl

/-- Each statement assigns a constant to the next temporary. -/
theorem stmt_first (c : Config) (hc : c.depth = 0) (d : Draft) :
    stmt .first c 1 d false =
      .ok ((.assign (d.fresh .i1).1 (.const (.ofTy .i1 0)), (d.fresh .i1).2), false) := by
  have hexpr : expr .first d.pool 1 .i1 c.depth.toNatClampNeg false =
      .ok (.const (.ofTy .i1 0), false) := by
    rw [hc]
    exact atom_first d.pool
  unfold stmt
  exact bind_eq_ok.mpr ⟨_, hexpr, rfl⟩

theorem stmts_first (c : Config) (hc : c.depth = 0) (k : Nat) (d : Draft) :
    ∃ ss d', stmts .first c 1 k d false = .ok ((ss, d'), false) ∧
      d'.temps.size = d.temps.size + k := by
  induction k generalizing d with
  | zero => exact ⟨[], d, rfl, rfl⟩
  | succ k ih =>
    obtain ⟨ss, d', hss, hsize⟩ := ih (d.fresh .i1).2
    refine ⟨.assign (d.fresh .i1).1 (.const (.ofTy .i1 0)) :: ss, d', ?_, ?_⟩
    · exact bind_eq_ok.mpr ⟨_, stmt_first c hc d, bind_eq_ok.mpr ⟨_, hss, rfl⟩⟩
    · rw [hsize, Draft.fresh, Array.size_push]
      omega

/-- The block has as many statements as the parameters allow. -/
theorem block_first (c : Config) (hc : c.depth = 0) {k : Nat}
    (hk : c.stmts.toNatClampNeg = k + 1) :
    ∃ b, block .first c 1 true = .ok (b, false) ∧ b.temps.size = k + 1 := by
  obtain ⟨ss, d, hss, hsize⟩ := stmts_first c hc (k + 1) ⟨#[], []⟩
  refine ⟨⟨d.temps, .mark c.addr 4 :: ss, .const ⟨.u64, c.addr⟩, .boring⟩, ?_, by simp [hsize]⟩
  unfold block
  rw [hk]
  exact bind_eq_ok.mpr ⟨_, hss, rfl⟩

/-- With enough statements a generated block has more temporaries than can be named. -/
theorem generated_block_refused :
    ∃ b, block .first ⟨0x400, 2 ^ 31 + 1, 0⟩ 1 true = .ok (b, false) ∧ b.check false ≠ .ok () := by
  obtain ⟨b, hb, hsize⟩ := block_first ⟨0x400, 2 ^ 31 + 1, 0⟩ rfl (k := 2 ^ 31) (by decide)
  refine ⟨b, hb, (yields_block _ (Nat.le_refl 256) (by decide) 1 true b false hb).refused ?_⟩
  rw [hsize, maxTemps]
  omega

end Sample

end Straightline
