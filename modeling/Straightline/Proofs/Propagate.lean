import Mathlib
import Straightline.Pass.Propagate
import Straightline.Proofs.Lockstep
import Straightline.Proofs.Simplify

/-!
# Propagated constants and copies have the same meaning

The block that is left defines fewer temporaries: a dropped one is known through the atom that
stands for it. `Covers` says this of typing and `Tracks` of machines: where the original has the
value of a temporary, the atom has that value on the machine of the rest. Each statement is kept in
its form, turned into a replacement, or dropped, and each of these keeps both.
-/

namespace Straightline
namespace Propagate

variable {P : Policy} {temps : Array Ty} {defs defs' : List Temp} {σ : Subst} {s s' : Stmt}
  {e e' : Expr} {T : Ty} {t dst : Temp} {m m' m₁ : Machine} {v : UInt64}

/-! ## Replacements -/

/-- Of the temporaries `defs` of the original only `defs'` are left; the replacements are atoms made
of these. -/
structure Covers (P : Policy) (temps : Array Ty) (σ : Subst) (defs defs' : List Temp) : Prop where
  sub : defs' ⊆ defs
  bound : ∀ t e, σ t = some e → t ∈ defs ∧ e.isAtom = true
  hasTy : ∀ t T, (Expr.tmp t).HasTy P temps defs T → (σ.apply (.tmp t)).HasTy P temps defs' T

/-- The machine `m'` has the values of `m` at the replacements. -/
structure Tracks (σ : Subst) (m m' : Machine) : Prop where
  temps : m'.temps = m.temps
  env : m'.env = m.env
  state : m'.state = m.state
  vals : ∀ t v, m.eval (.tmp t) = .ok v → m'.eval (σ.apply (.tmp t)) = .ok v

theorem apply_tmp_of_none (h : σ t = none) : σ.apply (.tmp t) = .tmp t := by
  simp [Subst.apply, h]

theorem Covers.isAtom_apply (hc : Covers P temps σ defs defs') (h : e.isAtom = true) :
    (σ.apply e).isAtom = true := by
  cases e with
  | tmp t =>
    rw [Subst.apply]
    cases hσ : σ t with
    | none => rfl
    | some e => exact (hc.bound t e hσ).2
  | const c => rfl
  | _ => simp [Expr.isAtom] at h

theorem Covers.hasTy_apply (hc : Covers P temps σ defs defs') (hatom : e.isAtom = true)
    (h : e.HasTy P temps defs T) : (σ.apply e).HasTy P temps defs' T := by
  cases e with
  | tmp t => exact hc.hasTy t T h
  | const c => exact h
  | _ => simp [Expr.isAtom] at hatom

theorem Tracks.eval_apply (hm : Tracks σ m m') (hatom : e.isAtom = true) (h : m.eval e = .ok v) :
    m'.eval (σ.apply e) = .ok v := by
  cases e with
  | tmp t => exact hm.vals t v h
  | const c => exact h
  | _ => simp [Expr.isAtom] at hatom

theorem Covers.empty (P : Policy) (temps : Array Ty) : Covers P temps .empty [] [] :=
  ⟨List.Subset.refl _, fun t e h => by simp [Subst.empty] at h, fun t T h => h⟩

theorem Tracks.empty (m : Machine) : Tracks .empty m m := ⟨rfl, rfl, rfl, fun _ _ => id⟩

/-! ## Kept statements -/

/-- The replaced operand or right side `e'` has the type of `e` and, on machines that are tracked,
its value. -/
structure Stands (P : Policy) (temps : Array Ty) (defs defs' : List Temp) (σ : Subst)
    (e e' : Expr) : Prop where
  hasTy : ∀ T, e.HasTy P temps defs T → e'.HasTy P temps defs' T
  const : ∀ c, e = .const c → e' = .const c
  eval : ∀ m m' : Machine, m.temps = temps → Tracks σ m m' → m'.ValsFit →
    ∀ v, m.eval e = .ok v → m'.eval e' = .ok v

theorem Covers.stands_apply (hc : Covers P temps σ defs defs') (hatom : e.isAtom = true) :
    Stands P temps defs defs' σ e (σ.apply e) :=
  ⟨fun _ => hc.hasTy_apply hatom, fun c h => by rw [h]; rfl,
    fun _ _ _ hm _ _ => hm.eval_apply hatom⟩

/-- The right side behind replacement and simplification. -/
theorem source_spec (hc : Covers P temps σ defs defs') (hT : e.HasTy P temps defs T)
    (hflat : ∀ c ∈ e.children, c.isAtom = true) :
    ∃ e', source σ e = .ok e' ∧ Stands P temps defs defs' σ e e' ∧
      ∀ c ∈ e'.children, c.isAtom = true := by
  cases hatom : e.isAtom with
  | true =>
    refine ⟨σ.apply e, by rw [source, if_pos hatom], hc.stands_apply hatom, ?_⟩
    rw [Expr.children_of_isAtom (hc.isAtom_apply hatom)]
    simp
  | false =>
    have hsim : Expr.Similar (fun c c' => c' = σ.apply c) e (e.mapChildren σ.apply) :=
      Expr.similar_mapChildren fun _ _ => rfl
    have hT' : (e.mapChildren σ.apply).HasTy P temps defs' T := by
      refine hT.similar hsim hatom ?_
      intro c hmem c' hc' U hU
      rw [hc']
      exact hc.hasTy_apply (hflat c hmem) hU
    have hflat' : ∀ c ∈ (e.mapChildren σ.apply).children, c.isAtom = true :=
      forall_of_forall₂ hsim.children fun c hmem c' hc' => hc' ▸ hc.isAtom_apply (hflat c hmem)
    obtain ⟨e', he', hstands⟩ := Expr.simplify_spec hT'
    refine ⟨e', ?_, ⟨?_, ?_, ?_⟩, hstands.flat hflat'⟩
    · rw [source, if_neg (by simp [hatom]), bind_eq_ok]
      exact ⟨(), Expr.demand_eq_ok hT.ne_missing, he'⟩
    · intro U hU
      rw [← hT.unique hU]
      exact hstands.hasTy
    · intro c h
      simp [h, Expr.isAtom] at hatom
    · intro m m' htemps hm hfit v hv
      refine hstands.eval m' (hm.temps.trans htemps) hfit v ?_
      refine Machine.eval_similar hsim hatom (Machine.headAgrees_of_eq hm.state hm.env e) ?_ hv
      intro c hmem c' hc' u hu
      rw [hc']
      exact hm.eval_apply (hflat c hmem) hu

theorem Covers.eq_none_of_def? (hc : Covers P temps σ defs defs') (hs : s.Ok P temps defs)
    (ht : s.def? = some t) : σ t = none := by
  rw [Option.eq_none_iff_forall_ne_some]
  intro e he
  exact (hs.of_def? ht).2 (hc.bound t e he).1

/-- Behind a kept definition the replacements are as good as before it. -/
theorem Covers.keep (hc : Covers P temps σ defs defs') (hs : s.Ok P temps defs)
    (hdef : s'.def? = s.def?) : Covers P temps σ (s.defsAfter defs) (s'.defsAfter defs') := by
  refine ⟨?_, ?_, ?_⟩
  · intro t ht
    rw [Stmt.mem_defsAfter, hdef] at ht
    rw [Stmt.mem_defsAfter]
    exact ht.imp id (hc.sub ·)
  · intro t e h
    exact ⟨Stmt.subset_defsAfter _ _ (hc.bound t e h).1, (hc.bound t e h).2⟩
  · intro t T h
    obtain ⟨hT, hmem⟩ := h
    rcases Stmt.mem_defsAfter.mp hmem with hd | hd
    · rw [apply_tmp_of_none (hc.eq_none_of_def? hs hd)]
      exact ⟨hT, Stmt.mem_defsAfter.mpr (.inl (hdef.trans hd))⟩
    · exact (hc.hasTy t T ⟨hT, hd⟩).mono (.refl P) (fun _ _ => id) (Stmt.subset_defsAfter _ _)

/-- What is known in front of a statement. -/
structure Rel (temps : Array Ty) (σ : Subst) (defs' : List Temp) (m m' : Machine) : Prop where
  temps : m.temps = temps
  sound : m'.Sound defs'
  tracks : Tracks σ m m'

/-- A kept statement does the same. -/
theorem expands_keep (hc : Covers P temps σ defs defs') (hs : s.Ok P temps defs)
    (hs' : s'.Ok P temps defs')
    (hsim : s.Similar (Stands P temps defs defs' σ) id s') :
    s.Expands (Rel temps σ defs') (Rel temps σ (s'.defsAfter defs')) [s'] := by
  have hdef : s'.def? = s.def? := by simpa using hsim.def?
  constructor
  · intro m m' m₁ hrel hstep
    obtain ⟨htemps, hsound, htracks⟩ := hrel
    subst htemps
    have hcarry : ∀ e ∈ s.operands, ∀ e', Stands P m.temps defs defs' σ e e' →
        m.Carries m' e e' := by
      intro e he e' hee'
      refine ⟨hee'.eval m m' rfl htracks hsound.fit, ?_⟩
      intro T hT
      obtain ⟨U, hU⟩ := hs.operand he
      rw [hU.typeIn, Except.ok.injEq] at hT
      rw [htracks.temps, ← hT]
      exact (hee'.hasTy U hU).typeIn
    obtain ⟨st, h⟩ := Machine.step_similar hsim htracks.state htracks.env hcarry
      (fun t T _ hT => htracks.temps ▸ hT) hstep
    -- what the other machine does, and the values that survive there
    have hafter : ∀ m₁', m'.step s' = .next m₁' →
        m₁'.Sound (s'.defsAfter defs') ∧
          ∀ t v, m.eval (.tmp t) = .ok v → m₁'.eval (σ.apply (.tmp t)) = .ok v := by
      intro m₁' hstep'
      have hok : s'.Ok P m'.temps defs' := htracks.temps ▸ hs'
      exact ⟨hsound.step hstep' hok, fun t v hv =>
        hsound.eval_atom_step hstep' hok (hc.isAtom_apply rfl) (htracks.vals t v hv)⟩
    rcases h with ⟨rfl, hstep'⟩ | ⟨t, x, ht, rfl, hstep'⟩
    · obtain ⟨hsound', hvals⟩ := hafter _ hstep'
      exact ⟨_, Machine.exec_cons_eq_some.mpr ⟨_, hstep', rfl⟩, rfl, hsound',
        htracks.temps, htracks.env, rfl, hvals⟩
    · obtain ⟨hsound', hvals⟩ := hafter _ hstep'
      refine ⟨_, Machine.exec_cons_eq_some.mpr ⟨_, hstep', rfl⟩, rfl, hsound',
        htracks.temps, htracks.env, rfl, ?_⟩
      intro u v hv
      obtain ⟨hU, hv⟩ := Machine.eval_tmp_eq_ok.mp hv
      by_cases hut : u = t
      · subst hut
        rw [Machine.set_vals_self, Option.some.injEq] at hv
        rw [apply_tmp_of_none (hc.eq_none_of_def? hs ht), Machine.eval_tmp_eq_ok, ← hv]
        exact ⟨htracks.temps ▸ hU, Machine.set_vals_self _ _⟩
      · rw [Machine.set_vals_of_ne hut] at hv
        exact hvals u v (Machine.eval_tmp_eq_ok.mpr ⟨hU, hv⟩)
  · intro m m' k dst hrel hleave next kind ss
    obtain ⟨htemps, hsound, htracks⟩ := hrel
    have hleave' : m'.step s' = .leave k dst := by
      refine Machine.leave_similar hsim ?_ hleave
      intro e _ e' hee'
      exact hee'.eval m m' htemps htracks hsound.fit
    rw [← htracks.state]
    exact Machine.finish_cons_eq_some.mpr (.inr ⟨k, dst, hleave', rfl⟩)

/-! ## Dropped statements -/

theorem Covers.bind (hc : Covers P temps σ defs defs') (hT : tempTy temps dst = .ok T)
    (hatom : e'.isAtom = true) (he' : e'.HasTy P temps defs' T) :
    Covers P temps (σ.bind dst e') (dst :: defs) defs' := by
  refine ⟨fun t ht => List.mem_cons_of_mem _ (hc.sub ht), ?_, ?_⟩
  · intro t e h
    by_cases ht : t = dst
    · rw [Subst.bind, if_pos ht, Option.some.injEq] at h
      exact ⟨ht ▸ List.mem_cons_self, h ▸ hatom⟩
    · rw [Subst.bind, if_neg ht] at h
      exact ⟨List.mem_cons_of_mem _ (hc.bound t e h).1, (hc.bound t e h).2⟩
  · intro t U h
    obtain ⟨hU, hmem⟩ := h
    by_cases ht : t = dst
    · rw [ht, hT, Except.ok.injEq] at hU
      rw [Subst.apply, Subst.bind, if_pos ht, ← hU]
      exact he'
    · rw [List.mem_cons] at hmem
      have hold := hc.hasTy t U ⟨hU, hmem.resolve_left ht⟩
      rwa [Subst.apply, Subst.bind, if_neg ht]

/-- An assignment whose right side becomes an atom is remembered. -/
theorem expands_bind {src : Expr} (hs : (Stmt.assign dst src).Ok P temps defs)
    (hsrc : Stands P temps defs defs' σ src e') :
    (Stmt.assign dst src).Expands (Rel temps σ defs') (Rel temps (σ.bind dst e') defs') [] := by
  obtain ⟨T, hT, hdst, -⟩ := hs
  constructor
  · intro m m' m₁ hrel hstep
    obtain ⟨htemps, hsound, htracks⟩ := hrel
    obtain ⟨v, U, hv, hU, rfl⟩ := Machine.step_assign.mp hstep
    rw [htemps, hdst, Except.ok.injEq] at hU
    have hv' := hsrc.eval m m' htemps htracks hsound.fit v hv
    have hfit : T.Fits v :=
      Machine.eval_fits hsound.fit (htracks.temps ▸ htemps ▸ hsrc.hasTy T hT) hv'
    refine ⟨m', rfl, htemps, hsound, htracks.temps, htracks.env, htracks.state, ?_⟩
    intro t x hx
    obtain ⟨hX, hx⟩ := Machine.eval_tmp_eq_ok.mp hx
    by_cases ht : t = dst
    · rw [ht, Machine.set_vals_self, Option.some.injEq, ← hU, hfit] at hx
      rw [Subst.apply, Subst.bind, if_pos ht, ← hx]
      exact hv'
    · rw [Machine.set_vals_of_ne ht] at hx
      have hold := htracks.vals t x (Machine.eval_tmp_eq_ok.mpr ⟨hX, hx⟩)
      rwa [Subst.apply, Subst.bind, if_neg ht]
  · intro m m' k dst hrel hleave
    obtain ⟨guard, g, h, -⟩ := Machine.step_eq_leave.mp hleave
    simp at h

/-- A statement that only goes on can be dropped. -/
theorem expands_skip (h : ∀ m m' : Machine, Rel temps σ defs' m m' →
      (∀ m₁, m.step s = .next m₁ → m₁ = m) ∧ ∀ k dst, m.step s ≠ .leave k dst) :
    s.Expands (Rel temps σ defs') (Rel temps σ defs') [] := by
  constructor
  · intro m m' m₁ hrel hstep
    rw [(h m m' hrel).1 m₁ hstep]
    exact ⟨m', rfl, hrel⟩
  · intro m m' k dst hrel hleave
    exact absurd hleave ((h m m' hrel).2 k dst)

/-- An exit whose guard becomes the constant false is never taken. -/
theorem expands_exit {guard : Expr} {kind : JumpKind} {c : Const}
    (hguard : Stands P temps defs defs' σ guard e') (hfalse : isFalseConst e' = true) :
    (Stmt.exit guard kind c).Expands (Rel temps σ defs') (Rel temps σ defs') [] := by
  refine expands_skip ?_
  intro m m' hrel
  have hzero : ∀ v, m.eval guard = .ok v → v = 0 := by
    intro v hv
    have hv' := hguard.eval m m' hrel.temps hrel.tracks hrel.sound.fit v hv
    cases e' with
    | const k =>
      rw [Machine.eval_const, Except.ok.injEq] at hv'
      simp only [isFalseConst, Const.isFalse, Bool.and_eq_true, beq_iff_eq] at hfalse
      rw [← hv', hfalse.2]
    | _ => simp [isFalseConst] at hfalse
  constructor
  · intro m₁ hstep
    exact (Machine.step_exit.mp hstep).2
  · intro k dst hleave
    obtain ⟨guard', g, h, hg, hne⟩ := Machine.step_eq_leave.mp hleave
    simp only [Stmt.exit.injEq] at h
    exact hne (hzero g (h.1 ▸ hg))

/-! ## Statements -/

/-- What is left of a statement keeps the rules and does the same. -/
structure Residue (P : Policy) (temps : Array Ty) (defs defs' : List Temp) (σ σ' : Subst)
    (s : Stmt) (r : List Stmt) : Prop where
  ok : Stmt.AllOk P temps defs' r
  flat : ∀ s' ∈ r, s'.Flat
  covers : Covers P temps σ' (s.defsAfter defs) (Stmt.defsAfterAll r defs')
  expands : s.Expands (Rel temps σ defs') (Rel temps σ' (Stmt.defsAfterAll r defs')) r

theorem residue_keep (hc : Covers P temps σ defs defs') (hs : s.Ok P temps defs)
    (hsim : s.Similar (Stands P temps defs defs' σ) id s') (hflat : s'.Flat) :
    Residue P temps defs defs' σ σ s [s'] := by
  have hdef : s'.def? = s.def? := by simpa using hsim.def?
  have hs' : s'.Ok P temps defs' := by
    refine hs.similar hsim (hs.allowsStmt (.refl P)) (fun e _ e' hee' => hee'.hasTy) ?_ ?_
    · intro c e' _ hee'
      exact hee'.const c rfl
    · intro t ht
      exact ⟨fun _ => id, fun hmem => (hs.of_def? ht).2 (hc.sub hmem)⟩
  exact ⟨⟨hs', trivial⟩, by simpa using hflat, hc.keep hs hdef, expands_keep hc hs hs' hsim⟩

theorem residue_skip (hc : Covers P temps σ defs defs') (hdef : s.def? = none)
    (h : s.Expands (Rel temps σ defs') (Rel temps σ defs') []) :
    Residue P temps defs defs' σ σ s [] := by
  have hdefs : s.defsAfter defs = defs := by rw [Stmt.defsAfter, hdef]; rfl
  exact ⟨trivial, by simp, hdefs.symm ▸ hc, h⟩

theorem stmt_spec (hc : Covers P temps σ defs defs') (hs : s.Ok P temps defs) (hflat : s.Flat) :
    ∃ σ' r, stmt σ s = .ok (σ', r) ∧ Residue P temps defs defs' σ σ' s r.toList := by
  -- statements that only have their operands replaced
  have hmap : (∀ e ∈ s.operands, e.isAtom = true) → (∀ dst src, s ≠ .assign dst src) →
      Residue P temps defs defs' σ σ s [s.mapOperands σ.apply] := by
    intro hatoms hne
    have hsim : s.Similar (Stands P temps defs defs' σ) id (s.mapOperands σ.apply) :=
      Stmt.similar_mapOperands fun e he => hc.stands_apply (hatoms e he)
    refine residue_keep hc hs hsim ?_
    have hsim' : s.Similar (fun e e' => e' = σ.apply e) id (s.mapOperands σ.apply) :=
      Stmt.similar_mapOperands fun e _ => rfl
    have hatoms' := forall_of_forall₂ hsim'.operands fun e he e' hee' =>
      show e'.isAtom = true from hee' ▸ hc.isAtom_apply (hatoms e he)
    cases s <;> first | exact hatoms' | exact absurd rfl (hne _ _)
  cases s with
  | missing => exact hs.elim
  | noop =>
    refine ⟨σ, none, rfl, residue_skip hc rfl (expands_skip fun m m' _ => ⟨?_, ?_⟩)⟩
    · intro m₁ hstep
      exact (Machine.Step.next.inj hstep).symm
    · intro k dst hleave
      obtain ⟨guard, g, h, -⟩ := Machine.step_eq_leave.mp hleave
      simp at h
  | assign dst src =>
    obtain ⟨T, hT, hdst, hfresh⟩ := id hs
    obtain ⟨src', hsrc', hstands, hflat'⟩ := source_spec hc hT hflat
    cases hcopy : isCopyable src' with
    | true =>
      refine ⟨σ.bind dst src', none, ?_, trivial, by simp, ?_, expands_bind hs hstands⟩
      · simp only [stmt, bind_eq_ok]
        exact ⟨src', hsrc', by rw [if_pos hcopy]⟩
      · have hatom : src'.isAtom = true := by
          cases src' <;> simp_all [isCopyable, Expr.isAtom]
        exact hc.bind hdst hatom (hstands.hasTy T hT)
    | false =>
      refine ⟨σ, some (.assign dst src'), ?_, residue_keep hc hs ⟨src', rfl, hstands⟩ hflat'⟩
      simp only [stmt, bind_eq_ok]
      exact ⟨src', hsrc', by rw [if_neg (by simp [hcopy])]⟩
  | exit guard kind dst =>
    have hatom : guard.isAtom = true := hflat guard (by simp [Stmt.operands])
    cases hfalse : isFalseConst (σ.apply guard) with
    | true =>
      refine ⟨σ, none, by simp only [stmt, hfalse, if_true], residue_skip hc rfl ?_⟩
      exact expands_exit (hc.stands_apply hatom) hfalse
    | false =>
      refine ⟨σ, some (.exit (σ.apply guard) kind dst), by simp [stmt, hfalse], ?_⟩
      exact hmap hflat (by simp)
  | _ => exact ⟨σ, _, rfl, hmap hflat (by simp)⟩

theorem stmts_spec {ss : List Stmt} (hc : Covers P temps σ defs defs')
    (hss : Stmt.AllOk P temps defs ss) (hflat : ∀ s ∈ ss, s.Flat) :
    ∃ σ' ss', stmts σ ss = .ok (σ', ss') ∧ Stmt.AllOk P temps defs' ss' ∧ (∀ s ∈ ss', s.Flat) ∧
      Covers P temps σ' (Stmt.defsAfterAll ss defs) (Stmt.defsAfterAll ss' defs') ∧
      Expanded (Rel temps σ defs') (Rel temps σ' (Stmt.defsAfterAll ss' defs')) ss ss' := by
  induction ss generalizing σ defs defs' with
  | nil => exact ⟨σ, [], rfl, trivial, by simp, hc, .nil⟩
  | cons s ss ih =>
    rw [List.forall_mem_cons] at hflat
    obtain ⟨σ₁, r, hr, hres⟩ := stmt_spec hc hss.1 hflat.1
    obtain ⟨σ₂, ss', hss', hok, hflat', hcov, hexp⟩ := ih hres.covers hss.2 hflat.2
    refine ⟨σ₂, r.toList ++ ss', ?_, Stmt.allOk_append.mpr ⟨hres.ok, hok⟩, ?_, ?_, ?_⟩
    · simp only [stmts, bind_eq_ok]
      exact ⟨(σ₁, r), hr, (σ₂, ss'), hss', rfl⟩
    · intro s' hs'
      rcases List.mem_append.mp hs' with h | h
      · exact hres.flat s' h
      · exact hflat' s' h
    · rw [Stmt.defsAfterAll_append]
      exact hcov
    · rw [Stmt.defsAfterAll_append]
      exact .cons hres.expands hexp

end Propagate

open Propagate in
/-- Constants and copies are propagated through a flat block without a failure, and the block that is
left does the same. -/
theorem Block.propagate_spec {P : Policy} {b : Block} (hb : b.Typed P) (hflat : b.Flat) :
    ∃ r, b.propagate = .ok r ∧ b.Keeps P r ∧ ∀ env, b.RefinedBy env r := by
  obtain ⟨σ, ss, hss, hok, hflat', hcov, hexp⟩ :=
    Propagate.stmts_spec (.empty P b.temps) hb.stmts hflat.1
  refine ⟨{ b with stmts := ss, next := σ.apply b.next }, ?_, ⟨⟨hb.temps, hok, ?_, hb.kind⟩, ?_, ?_⟩,
    ?_⟩
  · simp only [Block.propagate, bind_eq_ok]
    exact ⟨(σ, ss), hss, rfl⟩
  · rcases hb.next with (h | h) | ⟨c, hc, htag, hexit⟩
    · exact .inl (.inl (hcov.hasTy_apply hflat.2 h))
    · exact .inl (.inr (hcov.hasTy_apply hflat.2 h))
    · exact .inr ⟨c, by rw [hc]; rfl, htag, hexit⟩
  · intro _
    exact ⟨hflat', hcov.isAtom_apply hflat.2⟩
  · -- a replaced successor is a typed constant, so that it fits
    have hnext := hb.next
    have hatom := hflat.2
    unfold Block.NextOk at hnext
    unfold Block.NextFits
    cases hn : b.next with
    | tmp t =>
      rw [hn] at hnext
      refine iff_of_true ?_ (by simp)
      intro c hc
      have hfits : ∀ T, (Expr.tmp t).HasTy P b.temps (Stmt.defsAfterAll b.stmts []) T →
          c.fits = true := by
        intro T hT
        have hT' := hcov.hasTy_apply rfl hT
        rw [show σ.apply (.tmp t) = .const c from hc] at hT'
        exact hT'.2.2
      rcases hnext with (h | h) | ⟨c', h, -⟩
      · exact hfits _ h
      · exact hfits _ h
      · simp at h
    | const c => rfl
    | _ => simp [hn, Expr.isAtom] at hatom
  · intro env s out hout
    rw [Block.ends_eq] at hout ⊢
    rw [← List.append_nil ss]
    refine hexp.finish ?_ ⟨rfl, Machine.sound_start _ _ _, .empty _⟩ hout
    intro m m' v hrel hv
    have hv' := hrel.tracks.eval_apply hflat.2 hv
    exact Machine.finish_nil_eq_some.mpr ⟨v, hv', by rw [hrel.tracks.state]⟩

end Straightline
