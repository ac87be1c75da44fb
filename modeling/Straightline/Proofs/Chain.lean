import Mathlib
import Straightline.Pass.Chain
import Straightline.Proofs.Lockstep

/-!
# Collapsing chains of sums is sound

A link says that one temporary is another one plus a constant, modulo a power of two. Walking back
along links adds the constants up, so a temporary is the root of its chain plus the sum
(`walk_spec`). For an index this holds modulo `2 ^ 32`, and so modulo the number of elements if that
is a power of two and no larger; wrapping of the displacement does no harm either, since `2 ^ 64` is
a multiple, too.
-/

namespace Straightline

/-! ## Sums modulo powers of two -/

theorem Ty.two_pow_bits_dvd (T : Ty) : 2 ^ T.bits ∣ 2 ^ 64 := Nat.pow_dvd_pow 2 T.bits_le

/-- Cutting a summand does not change a sum that is cut in the end. -/
theorem Ty.and_mask_add (T : Ty) (a b : UInt64) :
    ((a &&& T.mask) + b) &&& T.mask = (a + b) &&& T.mask := by
  rw [← UInt64.toNat_inj, T.toNat_and_mask, T.toNat_and_mask, UInt64.toNat_add, UInt64.toNat_add,
    T.toNat_and_mask, Nat.mod_mod_of_dvd _ T.two_pow_bits_dvd,
    Nat.mod_mod_of_dvd _ T.two_pow_bits_dvd, Nat.mod_add_mod]

theorem Ty.and_mask_add_right (T : Ty) (a b : UInt64) :
    (a + (b &&& T.mask)) &&& T.mask = (a + b) &&& T.mask := by
  rw [UInt64.add_comm, T.and_mask_add, UInt64.add_comm]

theorem Ty.and_mask_neg (T : Ty) (a : UInt64) : -(a &&& T.mask) &&& T.mask = -a &&& T.mask := by
  rw [UInt64.neg_eq_neg_one_mul, UInt64.neg_eq_neg_one_mul a, ← UInt64.toNat_inj, T.toNat_and_mask,
    T.toNat_and_mask, UInt64.toNat_mul, UInt64.toNat_mul, T.toNat_and_mask,
    Nat.mod_mod_of_dvd _ T.two_pow_bits_dvd, Nat.mod_mod_of_dvd _ T.two_pow_bits_dvd, Nat.mul_mod_mod]

/-- A sum of words, modulo a divisor of the number of words. -/
theorem toInt_add_modEq {c : Int} (hc : c ∣ 2 ^ 64) (a b : Int64) :
    (a + b).toInt ≡ a.toInt + b.toInt [ZMOD c] := by
  rw [Int64.toInt_add]
  have hmod : (a.toInt + b.toInt).bmod (2 ^ 64) ≡ a.toInt + b.toInt [ZMOD ((2 ^ 64 : Nat) : Int)] :=
    Int.bmod_emod
  exact hmod.of_dvd (by exact_mod_cast hc)

/-- The index word, modulo a divisor of the number of indices. -/
theorem Machine.toInt_index_modEq {c : Int} (hc : c ∣ 2 ^ 32) (v : UInt64) :
    (index v).toInt ≡ v.toNat [ZMOD c] := by
  have hval : (index v).toInt = (v.toNat : Int).bmod (2 ^ 32) := by
    unfold index
    rw [Int32.toInt_toInt64]
    show v.toUInt32.toBitVec.toInt = _
    rw [BitVec.toInt_eq_toNat_bmod]
    show (v.toUInt32.toNat : Int).bmod (2 ^ 32) = _
    rw [UInt64.toNat_toUInt32, Int.natCast_mod, Int.emod_bmod]
  have hmod : (v.toNat : Int).bmod (2 ^ 32) ≡ v.toNat [ZMOD ((2 ^ 32 : Nat) : Int)] :=
    Int.bmod_emod
  rw [hval]
  exact hmod.of_dvd (by exact_mod_cast hc)

/-- The low half of a sum, modulo a divisor of the number of indices. -/
theorem toNat_add_and_mask_modEq {c : Int} (hc : c ∣ 2 ^ 32) (u v : UInt64) :
    (((u + v) &&& Ty.i32.mask).toNat : Int) ≡ u.toNat + v.toNat [ZMOD c] := by
  have hval : ((u + v) &&& Ty.i32.mask).toNat = (u.toNat + v.toNat) % 2 ^ 32 := by
    rw [Ty.toNat_and_mask, UInt64.toNat_add]
    exact Nat.mod_mod_of_dvd _ (by decide)
  have hmod : (((u.toNat + v.toNat) % 2 ^ 32 : Nat) : Int) ≡ ((u.toNat + v.toNat : Nat) : Int)
      [ZMOD ((2 ^ 32 : Nat) : Int)] := by
    rw [Int.natCast_mod]
    exact Int.mod_modEq _ _
  rw [hval]
  rw [Int.natCast_add u.toNat] at hmod
  exact hmod.of_dvd (by exact_mod_cast hc)

namespace Chain

theorem dvd_of_isPowerOfTwo {n : UInt64} (h : isPowerOfTwo n = true) (hn : n.toNat ≤ 2 ^ 32) :
    n.toNat ∣ 2 ^ 32 := by
  unfold isPowerOfTwo at h
  rw [Bool.and_eq_true, bne_iff_ne, beq_iff_eq] at h
  have hne : n.toNat ≠ 0 := by
    intro h0
    exact h.1 (UInt64.toNat_inj.mp h0)
  have hand : n.toNat &&& n.toNat - 1 = 0 := by
    have h1 := congrArg UInt64.toNat h.2
    have hsub : (n - 1).toNat = n.toNat - 1 := by
      rw [UInt64.toNat_sub_of_le]
      · rfl
      · rw [UInt64.le_iff_toNat_le]
        show 1 ≤ n.toNat
        omega
    rwa [UInt64.toNat_and, hsub] at h1
  obtain ⟨k, hk⟩ := (Nat.and_sub_one_eq_zero_iff_isPowerOfTwo hne).mp hand
  rw [hk] at hn ⊢
  exact Nat.pow_dvd_pow 2 ((Nat.pow_le_pow_iff_right (by decide)).mp hn)

/-- An index that is a root plus a sum selects what the root selects with the sum in the
displacement. -/
theorem offset?_index {w : Window} (hw : w.Proper) (hsmall : w.count.toInt ≤ 2 ^ 32)
    (hpow : isPowerOfTwo w.count.toUInt64 = true) (u delta : UInt64) (bias : Int64) :
    w.offset? (Machine.index ((u + delta) &&& Ty.i32.mask)) bias =
      w.offset? (Machine.index u) (bias + Machine.index delta) := by
  have hcount := hw.count_pos
  have hnat : (w.count.toUInt64.toNat : Int) = w.count.toInt := by
    have h : w.count.toInt = _ := BitVec.toInt_eq_toNat_cond w.count.toBitVec
    have hlt : w.count.toBitVec.toNat < 2 ^ 64 := w.count.toBitVec.isLt
    show (w.count.toBitVec.toNat : Int) = _
    split at h
    · exact h.symm
    · omega
  have hdvd : w.count.toInt ∣ 2 ^ 32 := by
    rw [← hnat]
    exact_mod_cast dvd_of_isPowerOfTwo hpow (by omega)
  have hdvd' : w.count.toInt ∣ 2 ^ 64 := Dvd.dvd.trans hdvd (by decide)
  -- the count divides both powers of two, so no sum that wraps on the way matters modulo the count
  obtain ⟨s, hs, hval⟩ := Window.slot?_eq hw (Machine.index ((u + delta) &&& Ty.i32.mask)) bias
  obtain ⟨s', hs', hval'⟩ := Window.slot?_eq hw (Machine.index u) (bias + Machine.index delta)
  have hleft : (Machine.index ((u + delta) &&& Ty.i32.mask) + bias).toInt ≡
      u.toNat + delta.toNat + bias.toInt [ZMOD w.count.toInt] :=
    (toInt_add_modEq hdvd' _ _).trans
      (((Machine.toInt_index_modEq hdvd _).trans (toNat_add_and_mask_modEq hdvd u delta)).add_right _)
  have hright : (Machine.index u + (bias + Machine.index delta)).toInt ≡
      u.toNat + (bias.toInt + delta.toNat) [ZMOD w.count.toInt] :=
    (toInt_add_modEq hdvd' _ _).trans ((Machine.toInt_index_modEq hdvd u).add
      ((toInt_add_modEq hdvd' _ _).trans ((Machine.toInt_index_modEq hdvd delta).add_left _)))
  have heq : s = s' := by
    rw [← Int64.toInt_inj, hval, hval', hleft, hright]
    congr 1
    omega
  rw [Window.offset?, Window.offset?, hs, hs', heq]

/-! ## Links -/

variable {P : Policy} {temps : Array Ty} {defs : List Temp} {m m₁ : Machine}

namespace Link

variable {e : Expr} {l : Link}

/-- A link is an addition or a subtraction of a constant, at 32 or 64 bits. -/
theorem ofExpr?_eq_some (h : ofExpr? e = some l) :
    ∃ f w c, e = .binop (.arith f w) (.tmp l.base) (.const c) ∧ l.ty = w.ty ∧
      (w = .w32 ∨ w = .w64) ∧ (f = .add ∧ l.delta = c.bits ∨ f = .sub ∧ l.delta = -c.bits) := by
  unfold ofExpr? at h
  split at h
  case h_2 => simp at h
  case h_1 f w t c =>
    split at h
    case h_5 => simp at h
    all_goals
      rw [Option.some.injEq] at h
      subst h
      exact ⟨_, _, c, rfl, rfl, by simp, by simp⟩

theorem ty_of_ofExpr? (h : ofExpr? e = some l) : l.ty = .i32 ∨ l.ty = .i64 := by
  obtain ⟨f, w, c, -, hty, hw, -⟩ := ofExpr?_eq_some h
  rcases hw with rfl | rfl
  · exact .inl hty
  · exact .inr hty

theorem hasTy_base {T : Ty} (h : ofExpr? e = some l) (hT : e.HasTy P temps defs T) :
    T = l.ty ∧ (Expr.tmp l.base).HasTy P temps defs l.ty := by
  obtain ⟨f, w, c, rfl, hty, -, -⟩ := ofExpr?_eq_some h
  obtain ⟨rfl, -, hbase, -⟩ := hT
  rw [hty]
  exact ⟨rfl, hbase⟩

/-- The value of a link is that of its base plus its constant. -/
theorem eval_eq_ok {v : UInt64} (h : ofExpr? e = some l) :
    m.eval e = .ok v ↔ ∃ u, m.eval (.tmp l.base) = .ok u ∧ v = (u + l.delta) &&& l.ty.mask := by
  obtain ⟨f, w, c, rfl, hty, -, hf⟩ := ofExpr?_eq_some h
  have happly : ∀ u, (Op.arith f w).apply2 u c.bits = some (u + l.delta) := by
    intro u
    rcases hf with ⟨rfl, hd⟩ | ⟨rfl, hd⟩
    · rw [hd]
      rfl
    · rw [hd, ← UInt64.sub_eq_add_neg]
      rfl
  rw [Machine.eval_binop_eq_ok, hty]
  constructor
  · intro hv
    obtain ⟨x, y, r, hx, hy, hr, hv⟩ := hv
    rw [Machine.eval_const, Except.ok.injEq] at hy
    rw [← hy, happly, Option.some.injEq] at hr
    exact ⟨x, hx, by rw [hr, ← hv]; rfl⟩
  · intro hv
    obtain ⟨u, hu, rfl⟩ := hv
    exact ⟨u, c.bits, u + l.delta, hu, Machine.eval_const c, happly u, rfl⟩

end Link

/-! ## Sums -/

section Sum

variable {root : Temp} {ty : Ty} (hty : ty = .i32 ∨ ty = .i64) (delta : UInt64)
include hty

theorem width_ty : (if ty = .i64 then Width.w64 else .w32).ty = ty := by
  rcases hty with rfl | rfl <;> rfl

theorem hasTy_sum (h : (Expr.tmp root).HasTy P temps defs ty) :
    (sum root delta ty).HasTy P temps defs ty := by
  have hne : ty ≠ .invalid := by
    rcases hty with rfl | rfl <;> simp
  have htag : ty.tag ≠ .invalid := by
    rcases hty with rfl | rfl <;> simp [Ty.tag]
  have hw := width_ty hty
  have harity : ∀ f, (Op.arith f (if ty = .i64 then Width.w64 else .w32)).arity = 2 := by
    intro f
    rcases hty with rfl | rfl <;> rfl
  unfold sum
  simp only
  split <;> exact ⟨hw, harity _, by rwa [← hw] at h, by
    rw [Op.arg2, hw]
    exact ⟨Const.ty_ofTy htag _, hne, Const.fits_ofTy htag _⟩⟩

theorem eval_sum {u : UInt64} (h : m.eval (.tmp root) = .ok u) :
    m.eval (sum root delta ty) = .ok ((u + delta) &&& ty.mask) := by
  have hw := width_ty hty
  unfold sum
  simp only
  split
  · refine Machine.eval_binop_eq_ok.mpr ⟨u, _, _, h, Machine.eval_const _, rfl, ?_⟩
    show (u - (-(delta &&& ty.mask) &&& ty.mask)) &&& Ty.mask (Width.ty _) = _
    rw [hw, ty.and_mask_neg, UInt64.sub_eq_add_neg, ← ty.and_mask_add_right, ty.and_mask_neg,
      ty.and_mask_add_right, UInt64.neg_neg]
  · refine Machine.eval_binop_eq_ok.mpr ⟨u, _, _, h, Machine.eval_const _, rfl, ?_⟩
    show (u + (delta &&& ty.mask &&& ty.mask)) &&& Ty.mask (Width.ty _) = _
    rw [hw, ty.and_mask_add_right, ty.and_mask_add_right]

omit hty in
theorem isAtom_children_sum : ∀ c ∈ (sum root delta ty).children, c.isAtom = true := by
  unfold sum
  simp only
  split <;> simp [Expr.children, Expr.isAtom]

end Sum

/-! ## Chains -/

namespace Links

variable {ch : Links} {s : Stmt} {ss : List Stmt}

/-- The links of defined temporaries are typed; the others stand in the statements ahead. -/
structure Ok (P : Policy) (temps : Array Ty) (defs : List Temp) (ss : List Stmt) (ch : Links) :
    Prop where
  typed : ∀ t l, (t, l) ∈ ch → t ∈ defs →
    (Expr.tmp t).HasTy P temps defs l.ty ∧ (Expr.tmp l.base).HasTy P temps defs l.ty
  ahead : ∀ t l, (t, l) ∈ ch → t ∈ defs ∨ ∃ src, .assign t src ∈ ss ∧ Link.ofExpr? src = some l

/-- The links of defined temporaries hold. -/
def Holds (m : Machine) (defs : List Temp) (ch : Links) : Prop :=
  ∀ t l, (t, l) ∈ ch → t ∈ defs → ∃ u, m.eval (.tmp l.base) = .ok u ∧
    m.eval (.tmp t) = .ok ((u + l.delta) &&& l.ty.mask)

theorem ok_ofStmts (ss : List Stmt) : (ofStmts ss).Ok P temps [] ss := by
  refine ⟨fun t l _ h => by simp at h, fun t l h => .inr ?_⟩
  unfold ofStmts at h
  rw [List.mem_reverse, List.mem_filterMap] at h
  obtain ⟨s, hs, hl⟩ := h
  cases s with
  | assign dst src =>
    rw [Option.map_eq_some_iff] at hl
    obtain ⟨l', hl', heq⟩ := hl
    rw [Prod.mk.injEq] at heq
    obtain ⟨rfl, rfl⟩ := heq
    exact ⟨src, hs, hl'⟩
  | _ => simp at hl

/-- A link whose temporary was just defined is the one of the statement that defined it. -/
theorem Ok.link_of_def? {t : Temp} {l : Link} (h : ch.Ok P temps defs (s :: ss))
    (hss : Stmt.AllOk P temps defs (s :: ss)) (hl : (t, l) ∈ ch) (ht : s.def? = some t) :
    ∃ src, s = .assign t src ∧ Link.ofExpr? src = some l := by
  rcases h.ahead t l hl with hdef | ⟨src, hmem, hsrc⟩
  · exact absurd hdef (hss.1.of_def? ht).2
  · rcases List.mem_cons.mp hmem with rfl | hmem
    · exact ⟨src, rfl, hsrc⟩
    · have hnot := hss.2.not_mem_of_def? hmem (t := t) rfl
      exact absurd (Stmt.mem_defsAfter.mpr (.inl ht)) hnot

theorem Ok.step (h : ch.Ok P temps defs (s :: ss)) (hss : Stmt.AllOk P temps defs (s :: ss)) :
    ch.Ok P temps (s.defsAfter defs) ss := by
  have hmono {e : Expr} {T : Ty} (hT : e.HasTy P temps defs T) : e.HasTy P temps (s.defsAfter defs) T :=
    hT.mono (.refl P) (fun _ _ => id) (Stmt.subset_defsAfter _ _)
  constructor
  · intro t l hl ht
    rcases Stmt.mem_defsAfter.mp ht with hdef | hdef
    · obtain ⟨src, rfl, hsrc⟩ := h.link_of_def? hss hl hdef
      obtain ⟨T, hT, hdst, -⟩ := hss.1
      obtain ⟨rfl, hbase⟩ := Link.hasTy_base hsrc hT
      exact ⟨⟨hdst, ht⟩, hmono hbase⟩
    · obtain ⟨h1, h2⟩ := h.typed t l hl hdef
      exact ⟨hmono h1, hmono h2⟩
  · intro t l hl
    rcases h.ahead t l hl with hdef | ⟨src, hmem, hsrc⟩
    · exact .inl (Stmt.subset_defsAfter _ _ hdef)
    · rcases List.mem_cons.mp hmem with rfl | hmem
      · exact .inl (Stmt.mem_defsAfter.mpr (.inl rfl))
      · exact .inr ⟨src, hmem, hsrc⟩

/-- Links stay true, and the one that a statement defines becomes true. -/
theorem Holds.step (hhold : ch.Holds m defs) (h : ch.Ok P m.temps defs (s :: ss))
    (hss : Stmt.AllOk P m.temps defs (s :: ss)) (hstep : m.step s = .next m₁) :
    ch.Holds m₁ (s.defsAfter defs) := by
  intro t l hl ht
  rcases Stmt.mem_defsAfter.mp ht with hdef | hdef
  · obtain ⟨src, rfl, hsrc⟩ := h.link_of_def? hss hl hdef
    obtain ⟨T, hT, hdst, -⟩ := id hss.1
    obtain ⟨rfl, hbase⟩ := Link.hasTy_base hsrc hT
    obtain ⟨v, T, hv, hT', hm₁⟩ := Machine.step_assign.mp hstep
    rw [hdst, Except.ok.injEq] at hT'
    subst hT'
    obtain ⟨u, hu, rfl⟩ := (Link.eval_eq_ok hsrc).mp hv
    refine ⟨u, ?_, ?_⟩
    · rw [Machine.eval_atom_step hstep hss.1 rfl hbase]
      exact hu
    · rw [hm₁, Machine.eval_tmp_eq_ok, Machine.set_vals_self, UInt64.and_assoc, UInt64.and_self]
      exact ⟨⟨_, hdst⟩, rfl⟩
  · obtain ⟨u, hu, hv⟩ := hhold t l hl hdef
    obtain ⟨h1, h2⟩ := h.typed t l hl hdef
    refine ⟨u, ?_, ?_⟩
    · rw [Machine.eval_atom_step hstep hss.1 rfl h2]
      exact hu
    · rw [Machine.eval_atom_step hstep hss.1 rfl h1]
      exact hv

theorem mem_of_lookup {t : Temp} {l : Link} (h : ch.lookup t = some l) : (t, l) ∈ ch := by
  obtain ⟨l₁, l₂, hsplit, -⟩ := List.lookup_eq_some_iff.mp h
  rw [hsplit]
  simp

/-- A walk ends at a temporary of the same type, and adds up what the links add. -/
theorem walkUpTo_spec (h : ch.Ok P temps defs ss) {ty : Ty} (n : Nat) {t : Temp} (delta : UInt64)
    (hops : Nat) (ht : (Expr.tmp t).HasTy P temps defs ty) :
    let r := ch.walkUpTo ty n t delta hops
    (Expr.tmp r.1).HasTy P temps defs ty ∧
      ∀ m v, ch.Holds m defs → m.eval (.tmp t) = .ok v →
        ∃ u, m.eval (.tmp r.1) = .ok u ∧ (u + r.2.1) &&& ty.mask = (v + delta) &&& ty.mask := by
  -- the walk stops for three reasons, and each time the sum is masked and nothing else happens
  have hstop (t : Temp) (delta : UInt64) (ht : (Expr.tmp t).HasTy P temps defs ty) :
      (Expr.tmp t).HasTy P temps defs ty ∧ ∀ (m : Machine) v, ch.Holds m defs →
        m.eval (.tmp t) = .ok v → ∃ u, m.eval (.tmp t) = .ok u ∧
          (u + (delta &&& ty.mask)) &&& ty.mask = (v + delta) &&& ty.mask :=
    ⟨ht, fun m v _ hv => ⟨v, hv, ty.and_mask_add_right v delta⟩⟩
  induction n generalizing t delta hops with
  | zero => exact hstop t delta ht
  | succ n ih =>
    rw [walkUpTo]
    cases hlookup : ch.lookup t with
    | none => exact hstop t delta ht
    | some l =>
      simp only
      by_cases hty : l.ty = ty
      · subst hty
        rw [if_pos rfl]
        have hmem := mem_of_lookup hlookup
        obtain ⟨-, hbase⟩ := h.typed t l hmem ht.2
        obtain ⟨hroot, hwalk⟩ := ih (delta + l.delta) (hops + 1) hbase
        refine ⟨hroot, fun m v hhold hv => ?_⟩
        obtain ⟨x, hx, hv'⟩ := hhold t l hmem ht.2
        obtain ⟨u, hu, hsum⟩ := hwalk m x hhold hx
        rw [hv, Except.ok.injEq] at hv'
        refine ⟨u, hu, ?_⟩
        rw [hsum, hv', l.ty.and_mask_add]
        congr 1
        rw [UInt64.add_comm delta, UInt64.add_assoc]
      · rw [if_neg hty]
        exact hstop t delta ht

/-- A temporary is the root of its chain plus the sum of the chain. -/
theorem walk_spec (h : ch.Ok P temps defs ss) {ty : Ty} {t : Temp}
    (ht : (Expr.tmp t).HasTy P temps defs ty) :
    (Expr.tmp (ch.walk t ty).1).HasTy P temps defs ty ∧
      ∀ m v, m.temps = temps → m.ValsFit → ch.Holds m defs → m.eval (.tmp t) = .ok v →
        ∃ u, m.eval (.tmp (ch.walk t ty).1) = .ok u ∧ v = (u + (ch.walk t ty).2.1) &&& ty.mask := by
  obtain ⟨hroot, hwalk⟩ := walkUpTo_spec h ch.length 0 0 ht
  refine ⟨hroot, fun m v htemps hfit hhold hv => ?_⟩
  obtain ⟨u, hu, hsum⟩ := hwalk m v hhold hv
  have hv' : v &&& ty.mask = v := Machine.eval_fits hfit (htemps ▸ ht) hv
  refine ⟨u, hu, ?_⟩
  rw [UInt64.add_zero, hv'] at hsum
  exact hsum.symm

end Links
/-! ## The pass -/

variable {Q : Policy} {env : Env} {ch : Links} {s : Stmt} {ss : List Stmt} {w : Window} {ix : Expr}
  {bias : Int64}

/-- Windows have at most as many elements as there are indices. -/
def Small (P : Policy) : Prop :=
  ∀ w bias, w.Proper → P.window w bias → w.count.toInt ≤ 2 ^ 32

/-- Moving the sum of a chain into a displacement keeps the policy. -/
def Shifts (P Q : Policy) : Prop :=
  ∀ w bias v, P.window w bias → Q.window w (bias + Machine.index v)

/-- What is known at a point of the run, with the assumption about windows. -/
def Inv (P : Policy) (ch : Links) (defs : List Temp) (m : Machine) : Prop :=
  Small P ∧ ch.Holds m defs

/-- The new index has the type of an index, and the new displacement is allowed. -/
theorem index_typed (h : ch.Ok P temps defs ss) (hPQ : P.Le Q) (hshift : Shifts P Q)
    (hwin : P.window w bias) (hix : ix.HasTy P temps defs .i32) :
    (index ch w ix bias).1.HasTy Q temps defs .i32 ∧ Q.window w (index ch w ix bias).2 ∧
      (ix.isAtom = true → (index ch w ix bias).1.isAtom = true) := by
  have hsame : ix.HasTy Q temps defs .i32 ∧ Q.window w bias ∧ (ix.isAtom = true → ix.isAtom = true) :=
    ⟨hix.mono hPQ (fun _ _ => id) (List.Subset.refl _), hPQ.window w bias hwin, id⟩
  unfold index
  cases ix with
  | tmp t =>
    simp only
    split
    · split
      · exact hsame
      · exact ⟨(Links.walk_spec h hix).1, hshift w bias _ hwin, fun _ => rfl⟩
    · exact hsame
  | _ => exact hsame

/-- The new index and displacement select the same element. -/
theorem index_offset (h : ch.Ok P m.temps defs ss) (hw : w.Proper) (hsmall : w.count.toInt ≤ 2 ^ 32)
    (hix : ix.HasTy P m.temps defs .i32) (hfit : m.ValsFit) (hhold : ch.Holds m defs) {i : UInt64}
    (hi : m.eval ix = .ok i) :
    ∃ u, m.eval (index ch w ix bias).1 = .ok u ∧
      w.offset? (Machine.index u) (index ch w ix bias).2 = w.offset? (Machine.index i) bias := by
  unfold index
  cases ix with
  | tmp t =>
    simp only
    split
    · rename_i hpow
      split
      · exact ⟨i, hi, rfl⟩
      · obtain ⟨u, hu, rfl⟩ := (Links.walk_spec h hix).2 m i rfl hfit hhold hi
        exact ⟨u, hu, (offset?_index hw hsmall hpow u _ bias).symm⟩
    · exact ⟨i, hi, rfl⟩
  | _ => exact ⟨i, hi, rfl⟩

/-- A statement that is left as it is keeps the links. -/
theorem replaces_self (h : ch.Ok P temps defs (s :: ss)) (hPQ : P.Le Q)
    (hss : Stmt.AllOk P temps defs (s :: ss)) :
    s.Replaces Q temps env defs (Inv P ch defs) (Inv P ch (s.defsAfter defs)) s := by
  refine .self ?_ fun m m₁ htemps _ _ hinv hstep => ⟨hinv.1, ?_⟩
  · exact hss.1.mono hPQ (fun _ _ => id) (List.Subset.refl _) fun t ht => (hss.1.of_def? ht).2
  · subst htemps
    exact hinv.2.step h hss hstep

/-- An indexed read through the root of its chain. -/
theorem replaces_getIx {dst : Temp} (h : ch.Ok P temps defs (.assign dst (.getIx w ix bias) :: ss))
    (hPQ : P.Le Q) (hshift : Shifts P Q)
    (hss : Stmt.AllOk P temps defs (.assign dst (.getIx w ix bias) :: ss)) :
    (Stmt.assign dst (.getIx w ix bias)).Replaces Q temps env defs (Inv P ch defs)
      (Inv P ch ((Stmt.assign dst (.getIx w ix bias)).defsAfter defs))
      (.assign dst (.getIx w (index ch w ix bias).1 (index ch w ix bias).2)) := by
  obtain ⟨T, ⟨rfl, hw, hwin, hix⟩, hdst, hfresh⟩ := id hss.1
  obtain ⟨hty, hwin', hatom⟩ := index_typed h hPQ hshift hwin hix
  refine ⟨⟨_, ⟨rfl, hw, hwin', hty⟩, hdst, hfresh⟩, rfl, ?_, ?_, ?_⟩
  · intro hflat
    simp only [Stmt.Flat, Expr.children, List.mem_singleton, forall_eq] at hflat ⊢
    exact hatom hflat
  · intro m m₁ htemps _ hm hinv hstep
    subst htemps
    refine ⟨?_, hinv.1, hinv.2.step h hss hstep⟩
    obtain ⟨v, T, hv, hT, rfl⟩ := Machine.step_assign.mp hstep
    obtain ⟨i, off, hi, hoff, hread⟩ := Machine.eval_getIx_eq_ok.mp hv
    obtain ⟨u, hu, hoff'⟩ := index_offset h hw (hinv.1 w bias hw hwin) hix hm.fit hinv.2 hi
    exact Machine.step_assign.mpr
      ⟨v, T, Machine.eval_getIx_eq_ok.mpr ⟨u, off, hu, hoff'.trans hoff, hread⟩, hT, rfl⟩
  · intro m k c hleave
    simp [Machine.step, Machine.attempt_ne_leave] at hleave

/-- An indexed write through the root of its chain. -/
theorem replaces_putIx {data : Expr} (h : ch.Ok P temps defs (.putIx w ix bias data :: ss))
    (hPQ : P.Le Q) (hshift : Shifts P Q)
    (hss : Stmt.AllOk P temps defs (.putIx w ix bias data :: ss)) :
    (Stmt.putIx w ix bias data).Replaces Q temps env defs (Inv P ch defs)
      (Inv P ch ((Stmt.putIx w ix bias data).defsAfter defs))
      (.putIx w (index ch w ix bias).1 (index ch w ix bias).2 data) := by
  obtain ⟨hw, hwin, hix, hdata⟩ := id hss.1
  obtain ⟨hty, hwin', hatom⟩ := index_typed h hPQ hshift hwin hix
  refine ⟨⟨hw, hwin', hty, hdata.mono hPQ (fun _ _ => id) (List.Subset.refl _)⟩, rfl, ?_, ?_, ?_⟩
  · intro hflat
    simp only [Stmt.Flat, Stmt.operands, List.mem_cons, List.not_mem_nil, or_false,
      forall_eq_or_imp, forall_eq] at hflat ⊢
    exact ⟨hatom hflat.1, hflat.2⟩
  · intro m m₁ htemps _ hm hinv hstep
    subst htemps
    refine ⟨?_, hinv.1, hinv.2.step h hss hstep⟩
    obtain ⟨i, v, off, st, hi, hv, hoff, hst, rfl⟩ := Machine.step_putIx.mp hstep
    obtain ⟨u, hu, hoff'⟩ := index_offset h hw (hinv.1 w bias hw hwin) hix hm.fit hinv.2 hi
    exact Machine.step_putIx.mpr ⟨u, v, off, st, hu, hv, hoff'.trans hoff, hst, rfl⟩
  · intro m k c hleave
    simp [Machine.step, Machine.attempt_ne_leave] at hleave

/-- A link through the root of its chain. -/
theorem replaces_sum {dst : Temp} {src : Expr} {l : Link}
    (h : ch.Ok P temps defs (.assign dst src :: ss))
    (hss : Stmt.AllOk P temps defs (.assign dst src :: ss)) (hl : Link.ofExpr? src = some l) :
    (Stmt.assign dst src).Replaces Q temps env defs (Inv P ch defs)
      (Inv P ch ((Stmt.assign dst src).defsAfter defs))
      (.assign dst (sum (ch.walk l.base l.ty).1 ((ch.walk l.base l.ty).2.1 + l.delta) l.ty)) := by
  obtain ⟨T, hT, hdst, hfresh⟩ := id hss.1
  obtain ⟨rfl, hbase⟩ := Link.hasTy_base hl hT
  have hty := Link.ty_of_ofExpr? hl
  obtain ⟨hroot, hwalk⟩ := Links.walk_spec h hbase
  refine ⟨⟨_, hasTy_sum hty _ ⟨hroot.1, hroot.2⟩, hdst, hfresh⟩, rfl,
    fun _ => isAtom_children_sum _, ?_, ?_⟩
  · intro m m₁ htemps _ hm hinv hstep
    subst htemps
    refine ⟨?_, hinv.1, hinv.2.step h hss hstep⟩
    obtain ⟨v, T, hv, hT', rfl⟩ := Machine.step_assign.mp hstep
    obtain ⟨x, hx, rfl⟩ := (Link.eval_eq_ok hl).mp hv
    obtain ⟨u, hu, rfl⟩ := hwalk m x rfl hm.fit hinv.2 hx
    refine Machine.step_assign.mpr ⟨_, T, eval_sum hty _ hu, hT', ?_⟩
    rw [l.ty.and_mask_add, UInt64.add_assoc]
  · intro m k c hleave
    simp [Machine.step, Machine.attempt_ne_leave] at hleave

/-- A source that reads no window is collapsed if it is a link that the chain goes on from. -/
theorem source_eq_match {src : Expr} (hsrc : ∀ w ix bias, src ≠ .getIx w ix bias) :
    source ch src = match Link.ofExpr? src with
      | none => src
      | some l => if (ch.walk l.base l.ty).2.2 = 0 then src
        else sum (ch.walk l.base l.ty).1 ((ch.walk l.base l.ty).2.1 + l.delta) l.ty := by
  cases src with
  | getIx w ix bias => exact absurd rfl (hsrc w ix bias)
  | _ => rfl

/-- One statement of the pass. -/
theorem stmt_spec (h : ch.Ok P temps defs (s :: ss)) (hPQ : P.Le Q) (hshift : Shifts P Q)
    (hss : Stmt.AllOk P temps defs (s :: ss)) :
    s.Replaces Q temps env defs (Inv P ch defs) (Inv P ch (s.defsAfter defs)) (stmt ch s) := by
  cases s with
  | assign dst src =>
    cases hgetIx : src with
    | getIx w ix bias =>
      subst hgetIx
      exact replaces_getIx h hPQ hshift hss
    | _ =>
      rw [← hgetIx]
      rw [stmt, source_eq_match (by simp [hgetIx])]
      cases hl : Link.ofExpr? src with
      | none => exact replaces_self h hPQ hss
      | some l =>
        simp only
        split
        · exact replaces_self h hPQ hss
        · exact replaces_sum h hss hl
  | putIx w ix bias data => exact replaces_putIx h hPQ hshift hss
  | _ => exact replaces_self h hPQ hss

theorem stmts_spec (h : ch.Ok P temps defs ss) (hPQ : P.Le Q) (hshift : Shifts P Q)
    (hss : Stmt.AllOk P temps defs ss) :
    Lockstep Q temps env defs (Inv P ch defs) ss (ss.map (stmt ch)) := by
  induction ss generalizing defs with
  | nil => exact .nil
  | cons s ss ih => exact .cons (stmt_spec h hPQ hshift hss) (ih (h.step hss) hss.2)

end Chain

open Chain in
/-- The block with its chains of sums collapsed does the same, if its windows have at most as many
elements as there are indices. -/
theorem Block.collapse_spec {P Q : Policy} {b : Block} (hPQ : P.Le Q) (hshift : Shifts P Q)
    (hb : b.Typed P) :
    b.Keeps Q b.collapse ∧ ∀ env, Small P → b.RefinedBy env b.collapse := by
  have hlock (env : Env) : Lockstep Q b.temps env [] (Inv P (.ofStmts b.stmts) []) b.stmts
      (b.stmts.map (stmt (.ofStmts b.stmts))) :=
    stmts_spec (Links.ok_ofStmts b.stmts) hPQ hshift hb.stmts
  refine ⟨(hlock ⟨fun _ => none, fun _ => none⟩).keeps (hb.mono hPQ), fun env hsmall => ?_⟩
  refine (hlock env).refinedBy hb fun s => ⟨hsmall, ?_⟩
  intro t l _ ht
  simp at ht

end Straightline
