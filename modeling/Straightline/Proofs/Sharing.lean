import Mathlib
import Straightline.Pass.Sharing
import Straightline.Proofs.Lockstep

/-!
# Sharing computations is sound

What the pass knows means something on a machine: a copy has the value of the temporary it stands
for, and a computation that was recorded has the value of the temporary that holds its result
(`Known.Holds`). Computations read temporaries only, each of which is assigned once, so no statement
can make this false.

Nothing is left to share (`Block.share_unshared`): the computations that were recorded are the right
sides that were computed so far, and one that is among them becomes a copy.
-/

namespace Straightline

/-- A right side that can be shared: an operation on a temporary, on two, or on a temporary and a
constant, and a floating-point constant given by its bits. -/
def Expr.isShareable : Expr → Bool
  | unop _ (tmp _) | binop _ (tmp _) (tmp _) | binop _ (tmp _) (const _)
  | binop _ (const _) (tmp _) => true
  | const c => c.tag == .f64i
  | _ => false

/-- No two assignments of the block have the same right side that can be shared. -/
def Block.Unshared (b : Block) : Prop :=
  b.stmts.Pairwise fun s s' =>
    ∀ t u e, s = .assign t e → s' = .assign u e → e.isShareable = false

namespace Sharing

variable {P : Policy} {temps : Array Ty} {env : Env} {defs : List Temp} {m m' m₁ : Machine}

namespace Computation

variable {x : Computation} {f : Temp → Temp}

theorem expr_of_ofExpr? {e : Expr} (h : ofExpr? e = some x) : x.expr = e := by
  unfold ofExpr? at h
  split at h
  case h_5 c =>
    split at h
    · rw [Option.some.injEq] at h
      rw [← h]
      rfl
    · simp at h
  case h_6 => simp at h
  all_goals
    rw [Option.some.injEq] at h
    rw [← h]
    rfl

theorem isSome_ofExpr? (e : Expr) : (ofExpr? e).isSome = e.isShareable := by
  unfold ofExpr?
  split
  case h_5 c => by_cases hc : c.tag = .f64i <;> simp [hc, Expr.isShareable]
  case h_6 => simp_all [Expr.isShareable]
  all_goals rfl

/-- A computation can be read off its right side after renaming, if operands that it does not have
are left alone. -/
theorem ofExpr?_expr_rename {e : Expr} (h : ofExpr? e = some x) (hf : f noTemp = noTemp) :
    ofExpr? (x.rename f).expr = some (x.rename f) := by
  unfold ofExpr? at h
  split at h
  case h_5 c =>
    split at h
    · rename_i hc
      rw [Option.some.injEq] at h
      subst h
      simp [rename, expr, ofExpr?, hf, hc]
    · simp at h
  case h_6 => simp at h
  all_goals
    rw [Option.some.injEq] at h
    subst h
    simp [rename, expr, ofExpr?, hf]

/-- An operand of a computation and the operand after renaming. -/
inductive Renamed (f : Temp → Temp) : Expr → Expr → Prop where
  | tmp (t : Temp) : Renamed f (.tmp t) (.tmp (f t))
  | const (c : Const) : Renamed f (.const c) (.const c)

/-- Renaming keeps the form of a computation. -/
theorem similar_rename (x : Computation) (f : Temp → Temp) :
    x.expr.Similar (Renamed f) (x.rename f).expr := by
  obtain ⟨shape, op, left, right, const⟩ := x
  cases shape with
  | unary => exact ⟨_, rfl, .tmp left⟩
  | tempTemp => exact ⟨_, _, rfl, .tmp left, .tmp right⟩
  | tempConst => exact ⟨_, _, rfl, .tmp left, .const const⟩
  | constTemp => exact ⟨_, _, rfl, .const const, .tmp right⟩
  | constant => rfl

/-- A computation without operands is not changed by renaming. -/
theorem expr_rename_of_isAtom (h : x.expr.isAtom = true) : (x.rename f).expr = x.expr := by
  obtain ⟨shape, op, left, right, const⟩ := x
  cases shape with
  | constant => rfl
  | _ => simp [expr, Expr.isAtom] at h

theorem hasTy_rename {T : Ty} (h : x.expr.HasTy P temps defs T)
    (hf : ∀ t U, (Expr.tmp t).HasTy P temps defs U → (Expr.tmp (f t)).HasTy P temps defs U) :
    (x.rename f).expr.HasTy P temps defs T := by
  cases hatom : x.expr.isAtom with
  | true =>
    rw [expr_rename_of_isAtom hatom]
    exact h
  | false =>
    refine h.similar (similar_rename x f) hatom fun c _ c' hc U hU => ?_
    cases hc with
    | tmp t => exact hf t U hU
    | const c => exact hU

theorem eval_rename {v : UInt64} (h : m.eval x.expr = .ok v)
    (hf : ∀ t u, .tmp t ∈ x.expr.children → m.eval (.tmp t) = .ok u → m.eval (.tmp (f t)) = .ok u) :
    m.eval (x.rename f).expr = .ok v := by
  cases hatom : x.expr.isAtom with
  | true =>
    rw [expr_rename_of_isAtom hatom]
    exact h
  | false =>
    refine Machine.eval_similar (similar_rename x f) hatom (Machine.headAgrees_of_eq rfl rfl _) ?_ h
    intro c hmem c' hc u hu
    cases hc with
    | tmp t => exact hf t u hmem hu
    | const c => exact hu

/-- A computation does not read the state. -/
theorem headAgrees (x : Computation) : ∀ n ∈ x.expr.nodes, m.HeadAgrees m' n := by
  obtain ⟨shape, op, left, right, const⟩ := x
  cases shape <;> simp [expr, Expr.nodes_eq, Expr.children, Machine.HeadAgrees]

theorem isAtom_children (x : Computation) : ∀ c ∈ x.expr.children, c.isAtom = true := by
  obtain ⟨shape, op, left, right, const⟩ := x
  cases shape <;> simp [expr, Expr.children, Expr.isAtom]

/-- The value of a computation on defined temporaries survives a step. -/
theorem eval_step {s : Stmt} {T : Ty} {v : UInt64} (hT : x.expr.HasTy P m.temps defs T)
    (hstep : m.step s = .next m₁) (hs : s.Ok P m.temps defs) (h : m.eval x.expr = .ok v) :
    m₁.eval x.expr = .ok v := by
  refine Machine.eval_congr x.headAgrees (fun t ht u hu => ?_) h
  obtain ⟨U, hU⟩ := hT.node ht
  rw [Machine.eval_atom_step hstep hs rfl hU]
  exact hu

end Computation

namespace Known

variable {k : Known}

/-- Copies have the type of what they stand for, results the type of their computation. -/
structure Ok (P : Policy) (temps : Array Ty) (defs : List Temp) (k : Known) : Prop where
  copyOf : ∀ u t, k.copyOf u = some t → ∃ T, (Expr.tmp u).HasTy P temps defs T ∧
    (Expr.tmp t).HasTy P temps defs T
  result : ∀ x t, (x, t) ∈ k.result → ∃ T, x.expr.HasTy P temps defs T ∧
    (Expr.tmp t).HasTy P temps defs T

/-- Copies have the value of what they stand for, results the value of their computation. -/
structure Holds (m : Machine) (k : Known) : Prop where
  copyOf : ∀ u t, k.copyOf u = some t → ∃ v, m.eval (.tmp u) = .ok v ∧ m.eval (.tmp t) = .ok v
  result : ∀ x t, (x, t) ∈ k.result → ∃ v, m.eval x.expr = .ok v ∧ m.eval (.tmp t) = .ok v

theorem Ok.rename {t : Temp} {T : Ty} (h : k.Ok P temps defs)
    (hT : (Expr.tmp t).HasTy P temps defs T) : (Expr.tmp (k.rename t)).HasTy P temps defs T := by
  unfold Known.rename
  cases hc : k.copyOf t with
  | none => exact hT
  | some u =>
    obtain ⟨U, hU, hu⟩ := h.copyOf t u hc
    rw [hT.unique hU]
    exact hu

theorem Holds.rename {t : Temp} {v : UInt64} (h : k.Holds m) (hv : m.eval (.tmp t) = .ok v) :
    m.eval (.tmp (k.rename t)) = .ok v := by
  unfold Known.rename
  cases hc : k.copyOf t with
  | none => exact hv
  | some u =>
    obtain ⟨x, hx, hu⟩ := h.copyOf t u hc
    rw [hv, Except.ok.injEq] at hx
    rw [hx]
    exact hu

/-- More temporaries may be defined. -/
theorem Ok.mono {defs' : List Temp} (h : k.Ok P temps defs) (hsub : defs ⊆ defs') :
    k.Ok P temps defs' := by
  have hm {e : Expr} {T : Ty} (hT : e.HasTy P temps defs T) : e.HasTy P temps defs' T :=
    hT.mono (.refl P) (fun _ _ => id) hsub
  constructor
  · intro u t ht
    obtain ⟨T, hu, ht⟩ := h.copyOf u t ht
    exact ⟨T, hm hu, hm ht⟩
  · intro x t ht
    obtain ⟨T, hx, ht⟩ := h.result x t ht
    exact ⟨T, hm hx, hm ht⟩

/-- What is known stays true. -/
theorem Holds.step {s : Stmt} (h : k.Holds m) (hk : k.Ok P m.temps defs)
    (hstep : m.step s = .next m₁) (hs : s.Ok P m.temps defs) : k.Holds m₁ := by
  have hm {t : Temp} {T : Ty} {v : UInt64} (hT : (Expr.tmp t).HasTy P m.temps defs T)
      (hv : m.eval (.tmp t) = .ok v) : m₁.eval (.tmp t) = .ok v := by
    rw [Machine.eval_atom_step hstep hs rfl hT]
    exact hv
  constructor
  · intro u t ht
    obtain ⟨v, hu, hv⟩ := h.copyOf u t ht
    obtain ⟨T, hTu, hTt⟩ := hk.copyOf u t ht
    exact ⟨v, hm hTu hu, hm hTt hv⟩
  · intro x t ht
    obtain ⟨v, hx, hv⟩ := h.result x t ht
    obtain ⟨T, hTx, hTt⟩ := hk.result x t ht
    exact ⟨v, x.eval_step hTx hstep hs hx, hm hTt hv⟩

end Known

/-! ## The pass -/

variable {k : Known} {s : Stmt}

/-- A statement that is left as it is keeps what is known. -/
theorem replaces_self (hk : k.Ok P temps defs) (hs : s.Ok P temps defs) :
    s.Replaces P temps env defs k.Holds k.Holds s := by
  refine .self hs fun m m₁ htemps _ _ hhold hstep => ?_
  subst htemps
  exact hhold.step hk hstep hs

/-- A computation whose result is known becomes a copy of it. -/
theorem replaces_copy {dst t : Temp} {x : Computation} (hk : k.Ok P temps defs)
    (hs : (Stmt.assign dst x.expr).Ok P temps defs) (hmem : (x.rename k.rename, t) ∈ k.result) :
    let k' : Known := { k with copyOf := fun u => if u = dst then some t else k.copyOf u }
    k'.Ok P temps (dst :: defs) ∧
      (Stmt.assign dst x.expr).Replaces P temps env defs k.Holds k'.Holds (.assign dst (.tmp t)) := by
  intro k'
  obtain ⟨T, hx, hdst, hfresh⟩ := id hs
  have hxr := x.hasTy_rename hx fun t U hU => hk.rename hU
  have ht : (Expr.tmp t).HasTy P temps defs T := by
    obtain ⟨U, hU, ht⟩ := hk.result _ t hmem
    rw [hxr.unique hU]
    exact ht
  have hmono := hk.mono (List.subset_cons_self dst defs)
  refine ⟨⟨?_, hmono.result⟩, ⟨T, ht, hdst, hfresh⟩, rfl, fun _ => by simp [Stmt.Flat, Expr.children],
    ?_, fun _ _ _ h => by simp [Machine.step, Machine.attempt_ne_leave] at h⟩
  · intro u t' hu
    simp only [k'] at hu
    split at hu
    · rename_i heq
      rw [Option.some.injEq] at hu
      subst heq hu
      exact ⟨T, ⟨hdst, by simp⟩, ht.1, List.mem_cons_of_mem _ ht.2⟩
    · exact hmono.copyOf u t' hu
  · intro m m₁ htemps _ hm hhold hstep
    subst htemps
    have hold := hhold.step hk hstep hs
    obtain ⟨v, T', hv, hT', hm₁⟩ := Machine.step_assign.mp hstep
    rw [hdst, Except.ok.injEq] at hT'
    subst hT'
    -- renaming keeps the value of the computation, and the recorded result has that value
    have hcopy : m.eval (.tmp t) = .ok v := by
      have hxv := x.eval_rename hv fun t u _ hu => hhold.rename hu
      obtain ⟨u, hu, htu⟩ := hhold.result _ t hmem
      rw [hxv, Except.ok.injEq] at hu
      rw [hu]
      exact htu
    refine ⟨Machine.step_assign.mpr ⟨v, T, hcopy, hdst, hm₁⟩, ?_, hold.result⟩
    intro u t' hu
    simp only [k'] at hu
    split at hu
    · rename_i heq
      rw [Option.some.injEq] at hu
      subst heq hu
      refine ⟨v, ?_, ?_⟩
      · rw [hm₁]
        exact Machine.eval_set_self hdst (Machine.eval_fits hm.fit hx hv)
      · rw [Machine.eval_atom_step hstep hs rfl ht]
        exact hcopy
    · exact hold.copyOf u t' hu

/-- A new computation is recorded, with its operands renamed. -/
theorem replaces_record {dst : Temp} {x : Computation} (hk : k.Ok P temps defs)
    (hs : (Stmt.assign dst x.expr).Ok P temps defs) :
    let k' : Known := { k with result := (x.rename k.rename, dst) :: k.result }
    k'.Ok P temps (dst :: defs) ∧ (Stmt.assign dst x.expr).Replaces P temps env defs k.Holds k'.Holds
      (.assign dst (x.rename k.rename).expr) := by
  intro k'
  obtain ⟨T, hx, hdst, hfresh⟩ := id hs
  have hxr := x.hasTy_rename hx fun t U hU => hk.rename hU
  have hmono := hk.mono (List.subset_cons_self dst defs)
  refine ⟨⟨hmono.copyOf, ?_⟩, ⟨T, hxr, hdst, hfresh⟩, rfl,
    fun _ => Computation.isAtom_children _, ?_,
    fun _ _ _ h => by simp [Machine.step, Machine.attempt_ne_leave] at h⟩
  · intro y t hy
    rcases List.mem_cons.mp hy with heq | hy
    · rw [Prod.mk.injEq] at heq
      obtain ⟨rfl, rfl⟩ := heq
      exact ⟨T, hxr.mono (.refl P) (fun _ _ => id) (List.subset_cons_self _ _), hdst, by simp⟩
    · exact hmono.result y t hy
  · intro m m₁ htemps _ hm hhold hstep
    subst htemps
    have hold := hhold.step hk hstep hs
    obtain ⟨v, T', hv, hT', hm₁⟩ := Machine.step_assign.mp hstep
    rw [hdst, Except.ok.injEq] at hT'
    subst hT'
    have hxv := x.eval_rename hv fun t u _ hu => hhold.rename hu
    refine ⟨Machine.step_assign.mpr ⟨v, T, hxv, hdst, hm₁⟩, hold.copyOf, ?_⟩
    intro y t hy
    rcases List.mem_cons.mp hy with heq | hy
    · rw [Prod.mk.injEq] at heq
      obtain ⟨rfl, rfl⟩ := heq
      refine ⟨v, Computation.eval_step hxr hstep hs hxv, ?_⟩
      rw [hm₁]
      exact Machine.eval_set_self hdst (Machine.eval_fits hm.fit hx hv)
    · exact hold.result y t hy

/-- What the pass makes of a statement, and what it knows then. -/
inductive Shared (k : Known) : Stmt → Known → Stmt → Prop where
  | same {s : Stmt} : (∀ t e, s = .assign t e → e.isShareable = false) → Shared k s k s
  | copy {dst t : Temp} {x : Computation} : (x.rename k.rename, t) ∈ k.result →
    Shared k (.assign dst x.expr) { k with copyOf := fun u => if u = dst then some t else k.copyOf u }
      (.assign dst (.tmp t))
  | record {dst : Temp} {x : Computation} : Computation.ofExpr? x.expr = some x →
    k.result.lookup (x.rename k.rename) = none →
    Shared k (.assign dst x.expr) { k with result := (x.rename k.rename, dst) :: k.result }
      (.assign dst (x.rename k.rename).expr)

theorem stmt_shared (k : Known) (s : Stmt) : Shared k s (stmt k s).1 (stmt k s).2 := by
  cases s with
  | assign dst src =>
    cases hx : Computation.ofExpr? src with
    | none =>
      rw [show stmt k (.assign dst src) = (k, .assign dst src) by simp only [stmt, hx]]
      refine .same fun t e h => ?_
      rw [Stmt.assign.injEq] at h
      rw [← h.2, ← Computation.isSome_ofExpr?, hx]
      rfl
    | some x =>
      obtain rfl := Computation.expr_of_ofExpr? hx
      cases hlookup : k.result.lookup (x.rename k.rename) with
      | none =>
        have hstmt : stmt k (.assign dst x.expr) =
            ({ k with result := (x.rename k.rename, dst) :: k.result },
              .assign dst (x.rename k.rename).expr) := by
          simp only [stmt, hx, hlookup]
        rw [hstmt]
        exact .record hx hlookup
      | some t =>
        have hmem : (x.rename k.rename, t) ∈ k.result := by
          obtain ⟨l, l', hsplit, -⟩ := List.lookup_eq_some_iff.mp hlookup
          rw [hsplit]
          simp
        have hstmt : stmt k (.assign dst x.expr) =
            ({ k with copyOf := fun u => if u = dst then some t else k.copyOf u },
              .assign dst (.tmp t)) := by
          simp only [stmt, hx, hlookup]
        rw [hstmt]
        exact .copy hmem
  | _ => exact .same fun t e h => by simp at h

/-- One statement of the pass. -/
theorem Shared.spec {k' : Known} {s' : Stmt} (h : Shared k s k' s') (hk : k.Ok P temps defs)
    (hs : s.Ok P temps defs) :
    k'.Ok P temps (s.defsAfter defs) ∧ s.Replaces P temps env defs k.Holds k'.Holds s' := by
  cases h with
  | same => exact ⟨hk.mono (Stmt.subset_defsAfter _ _), replaces_self hk hs⟩
  | copy hmem => exact replaces_copy hk hs hmem
  | record => exact replaces_record hk hs

theorem stmts_spec {ss : List Stmt} (hk : k.Ok P temps defs) (hss : Stmt.AllOk P temps defs ss) :
    Lockstep P temps env defs k.Holds ss (stmts k ss) := by
  induction ss generalizing k defs with
  | nil => exact .nil
  | cons s ss ih =>
    obtain ⟨hk', hs'⟩ := (stmt_shared k s).spec hk hss.1
    exact .cons hs' (ih hk' hss.2)

/-! ## What is left to share -/

namespace Known

/-- The right sides that were computed so far. -/
def sources (k : Known) : List Expr := k.result.map (·.1.expr)

/-- Computations can be read off their right sides: operands that they do not have are all the
same. -/
structure Normal (k : Known) : Prop where
  noTemp : k.rename noTemp = noTemp
  result : ∀ x t, (x, t) ∈ k.result → Computation.ofExpr? x.expr = some x

/-- The right side of a computation that was not recorded was not computed. -/
theorem Normal.not_mem_sources {x : Computation} (hk : k.Normal)
    (hx : Computation.ofExpr? x.expr = some x) (hlookup : k.result.lookup x = none) :
    x.expr ∉ k.sources := by
  intro hmem
  obtain ⟨⟨y, t⟩, hy, heq⟩ := List.mem_map.mp hmem
  -- equal right sides come from equal computations only because both are normal
  have hyx : y = x := by
    rw [← Option.some.injEq, ← hk.result y t hy, ← hx]
    exact congrArg _ heq
  rw [List.lookup_eq_none_iff] at hlookup
  simpa [hyx] using hlookup (y, t) hy

end Known

/-- A statement that does not define `noTemp` keeps computations normal. -/
theorem Shared.normal {k' : Known} {s' : Stmt} (h : Shared k s k' s') (hk : k.Normal)
    (hs : s.def? ≠ some noTemp) : k'.Normal := by
  cases h with
  | same => exact hk
  | @copy dst t x hmem =>
    -- a copy called `noTemp` would rename operands that are not there
    have hne : noTemp ≠ dst := by
      intro heq
      exact hs (congrArg some heq.symm)
    refine ⟨?_, hk.result⟩
    show ((if noTemp = dst then some t else k.copyOf noTemp).getD noTemp) = noTemp
    rw [if_neg hne]
    exact hk.noTemp
  | record hx =>
    refine ⟨hk.noTemp, fun y u hy => ?_⟩
    rcases List.mem_cons.mp hy with heq | hy
    · rw [(Prod.mk.inj heq).1]
      exact Computation.ofExpr?_expr_rename hx hk.noTemp
    · exact hk.result y u hy

/-- Right sides that were computed stay so, and one that is left and can be shared is a new one. -/
theorem Shared.sources {k' : Known} {s' : Stmt} (h : Shared k s k' s') (hk : k.Normal) :
    k.sources ⊆ k'.sources ∧ ∀ t e, s' = .assign t e → e.isShareable = true →
      e ∉ k.sources ∧ e ∈ k'.sources := by
  cases h with
  | same hnot =>
    refine ⟨List.Subset.refl _, fun t e hs' he => ?_⟩
    rw [hnot t e hs'] at he
    simp at he
  | copy =>
    refine ⟨List.Subset.refl _, fun u e hs' he => ?_⟩
    rw [Stmt.assign.injEq] at hs'
    simp [← hs'.2, Expr.isShareable] at he
  | record hx hlookup =>
    refine ⟨List.subset_cons_self _ _, fun u e hs' _ => ?_⟩
    rw [Stmt.assign.injEq] at hs'
    rw [← hs'.2]
    exact ⟨hk.not_mem_sources (Computation.ofExpr?_expr_rename hx hk.noTemp) hlookup,
      List.mem_cons_self⟩

/-- Among the statements that are left, each right side that can be shared is a new one. -/
theorem stmts_unshared {ss : List Stmt} (hk : k.Normal) (hss : ∀ s ∈ ss, s.def? ≠ some noTemp) :
    (∀ t e, .assign t e ∈ stmts k ss → e.isShareable = true → e ∉ k.sources) ∧
      (stmts k ss).Pairwise fun s s' =>
        ∀ t u e, s = .assign t e → s' = .assign u e → e.isShareable = false := by
  induction ss generalizing k with
  | nil => exact ⟨fun t e h => by simp [stmts] at h, .nil⟩
  | cons s ss ih =>
    rw [List.forall_mem_cons] at hss
    have hshared := stmt_shared k s
    obtain ⟨hsub, hnew⟩ := hshared.sources hk
    obtain ⟨hrest, hpair⟩ := ih (hshared.normal hk hss.1) hss.2
    refine ⟨fun t e hmem he => ?_, .cons (fun s' hs' t u e hs hs'' => ?_) hpair⟩
    · rcases List.mem_cons.mp hmem with heq | hmem
      · exact (hnew t e heq.symm he).1
      · exact fun h => hrest t e hmem he (hsub h)
    · -- the later one would be new behind the first one
      rw [← Bool.not_eq_true]
      intro he
      exact hrest u e (hs'' ▸ hs') he (hnew t e hs he).2

end Sharing

open Sharing in
/-- The block with repeated computations turned into copies does the same. -/
theorem Block.share_spec {P : Policy} {b : Block} (hb : b.Typed P) :
    b.Keeps P b.share ∧ ∀ env, b.RefinedBy env b.share := by
  have hlock (env : Env) : Lockstep P b.temps env [] Known.nothing.Holds b.stmts
      (Sharing.stmts .nothing b.stmts) :=
    stmts_spec ⟨fun u t h => by simp [Known.nothing] at h, fun x t h => by simp [Known.nothing] at h⟩
      hb.stmts
  refine ⟨(hlock ⟨fun _ => none, fun _ => none⟩).keeps hb, fun env => (hlock env).refinedBy hb ?_⟩
  exact fun s => ⟨fun u t h => by simp [Known.nothing] at h, fun x t h => by simp [Known.nothing] at h⟩

/-- Temporaries that are defined have a type, and `noTemp` has none. -/
theorem Block.Typed.def?_ne_noTemp {P : Policy} {b : Block} (hb : b.Typed P) :
    ∀ s ∈ b.stmts, s.def? ≠ some noTemp := by
  intro s hs hdef
  obtain ⟨defs, hok⟩ := hb.stmts.exists_ok hs
  obtain ⟨⟨T, hT⟩, -⟩ := hok.of_def? hdef
  exact absurd (tempTy_eq_ok.mp hT).1 (by decide)

theorem Sharing.Known.normal_nothing : Known.Normal .nothing :=
  ⟨rfl, fun x t h => by simp [Known.nothing] at h⟩

open Sharing in
/-- Nothing is left to share. -/
theorem Block.share_unshared {P : Policy} {b : Block} (hb : b.Typed P) : b.share.Unshared :=
  (stmts_unshared Known.normal_nothing hb.def?_ne_noTemp).2

end Straightline
