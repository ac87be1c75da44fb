import Mathlib
import Straightline.Pass.Liveness
import Straightline.Proofs.BitSet
import Straightline.Proofs.Stepping

/-!
# Dropping dead code is sound

`Swept` describes the backward walk as a relation between the statements and what is kept of them: a
statement is kept and its temporaries become live, or it is `Idle`, which means that it changes
nothing but a temporary that is not live. A run of the kept statements follows the original one on a
machine that agrees on the live temporaries.

No dead code is left (`Block.sweep_alive`): what is live behind a statement is what the kept ones
behind it read, and a statement that is idle there is not kept.
-/

namespace Straightline

/-- No statement of the block is dead: every one does something, no effect is sure not to happen,
and every temporary that is assigned is read further on. -/
structure Block.Alive (b : Block) : Prop where
  noop : .noop ∉ b.stmts
  effect : ∀ e, .effect e ∈ b.stmts → e.guard ≠ .const ⟨.u1, 0⟩
  assign : ∀ before dst src after, b.stmts = before ++ .assign dst src :: after →
    (∃ s ∈ after, .tmp dst ∈ s.nodes) ∨ .tmp dst ∈ b.next.nodes

namespace Liveness

/-- The temporary is in the set. -/
def Live (live : BitSet) (t : Temp) : Prop := live.contains t.toInt = true

/-- Nothing but a temporary outside the set is changed by the statement. -/
def Idle (live : BitSet) : Stmt → Prop
  | .noop => True
  | .assign dst _ => ¬Live live dst
  | .effect e => Propagate.isFalseConst e.guard = true
  | _ => False

/-- What the walk keeps of statements, and what is live behind and in front of them. -/
inductive Swept (live : BitSet) : List Stmt → BitSet → List Stmt → Prop where
  | nil : Swept live [] live []
  | keep {s : Stmt} {ss kept : List Stmt} {before before' : BitSet} :
    Swept live ss before kept → s ≠ .missing → ¬Idle before s →
    (∀ t, Live before' t ↔ Live before t ∨ .tmp t ∈ s.nodes) → Swept live (s :: ss) before' (s :: kept)
  | drop {s : Stmt} {ss kept : List Stmt} {before : BitSet} :
    Swept live ss before kept → Idle before s → Swept live (s :: ss) before kept

/-! ## The walk -/

/-- The temporaries of nodes without holes are added, and nothing else. -/
theorem addUses_spec (live : BitSet) (es : List Expr) (hmissing : ∀ e ∈ es, e ≠ .missing)
    (htemp : ∀ t, .tmp t ∈ es → 0 ≤ t.toInt) :
    ∃ live', addUses live es = .ok live' ∧ ∀ t, Live live' t ↔ Live live t ∨ .tmp t ∈ es := by
  induction es generalizing live with
  | nil => exact ⟨live, rfl, by simp⟩
  | cons e es ih =>
    rw [List.forall_mem_cons] at hmissing
    have htail : ∀ t, .tmp t ∈ es → 0 ≤ t.toInt := fun t ht => htemp t (List.mem_cons_of_mem _ ht)
    cases e with
    | missing => exact absurd rfl hmissing.1
    | tmp u =>
      obtain ⟨live₁, hinsert⟩ := live.exists_insert (htemp u (by simp))
      obtain ⟨live', hadd, hlive⟩ := ih live₁ hmissing.2 htail
      refine ⟨live', by simp only [addUses, hinsert, hadd], fun t => ?_⟩
      have hone : Live live₁ t ↔ t = u ∨ Live live t := by
        unfold Live
        rw [BitSet.contains_insert hinsert]
        simp [Int32.toInt_inj]
      rw [hlive, hone, List.mem_cons, Expr.tmp.injEq]
      tauto
    | _ =>
      obtain ⟨live', hadd, hlive⟩ := ih live hmissing.2 htail
      exact ⟨live', by simp only [addUses, hadd], fun t => by simp [hlive]⟩

variable {P : Policy} {temps : Array Ty} {defs : List Temp}

theorem nonneg_of_ok {s : Stmt} (h : s.Ok P temps defs) {t : Temp} (ht : .tmp t ∈ s.nodes) :
    0 ≤ t.toInt := by
  obtain ⟨T, hT⟩ := h.node ht
  exact (tempTy_eq_ok.mp hT.1).1

theorem keep_spec {s : Stmt} (w : Sweep) (h : s.Ok P temps defs) :
    ∃ live, keep w s = .ok { w with live, kept := s :: w.kept } ∧
      ∀ t, Live live t ↔ Live w.live t ∨ .tmp t ∈ s.nodes := by
  obtain ⟨live, hadd, hlive⟩ := addUses_spec w.live _ h.nodes_ne_missing fun _ => nonneg_of_ok h
  refine ⟨live, ?_, hlive⟩
  simp only [keep, bind_eq_ok]
  exact ⟨(), Stmt.demand_eq_ok h.ne_missing, live, hadd, rfl⟩

/-- A statement that keeps the rules is kept or idle. -/
theorem stmt_spec {s : Stmt} {ss : List Stmt} {live : BitSet} {w : Sweep}
    (h : s.Ok P temps defs) (hw : Swept live ss w.live w.kept) :
    ∃ w', stmt w s = .ok w' ∧ Swept live (s :: ss) w'.live w'.kept := by
  have hkeep (hidle : ¬Idle w.live s) :
      ∃ w', keep w s = .ok w' ∧ Swept live (s :: ss) w'.live w'.kept := by
    obtain ⟨live', hk, hlive⟩ := keep_spec w h
    exact ⟨_, hk, .keep hw h.ne_missing hidle hlive⟩
  cases s with
  | noop => exact ⟨w, rfl, .drop hw trivial⟩
  | assign dst src =>
    by_cases hlive : w.live.contains dst.toInt = true
    · simpa only [stmt, hlive, if_true] using hkeep (not_not_intro hlive)
    · obtain ⟨T, -, hT, -⟩ := h
      obtain ⟨dropped, hdrop⟩ := w.dropped.exists_insert (tempTy_eq_ok.mp hT).1
      refine ⟨{ w with dropped }, by simp only [stmt, hlive, hdrop]; rfl, .drop hw hlive⟩
  | effect e =>
    by_cases hfalse : Propagate.isFalseConst e.guard = true
    · exact ⟨w, by simp only [stmt, hfalse, if_true], .drop hw hfalse⟩
    · simpa only [stmt, hfalse, Bool.false_eq_true, if_false] using hkeep hfalse
  | _ => exact hkeep id

/-- The walk over statements that keep the rules. -/
theorem stmts_spec (live : BitSet) {ss : List Stmt} (h : Stmt.AllOk P temps defs ss) :
    ∃ w, stmts live ss = .ok w ∧ Swept live ss w.live w.kept := by
  induction ss generalizing defs with
  | nil => exact ⟨_, rfl, .nil⟩
  | cons s ss ih =>
    obtain ⟨w, hw, hswept⟩ := ih h.2
    obtain ⟨w', hw', hswept'⟩ := stmt_spec h.1 hswept
    exact ⟨w', by simp only [stmts, bind_eq_ok]; exact ⟨w, hw, hw'⟩, hswept'⟩

/-! ## What is kept -/

variable {live before : BitSet} {ss kept : List Stmt}

theorem Swept.sublist (h : Swept live ss before kept) : kept.Sublist ss := by
  induction h with
  | nil => exact .slnil
  | keep _ _ _ _ ih => exact ih.cons_cons _
  | drop _ _ ih => exact ih.cons _

/-- What is kept keeps the rules, with the definitions that are live. -/
theorem Swept.allOk {defs' : List Temp} (h : Swept live ss before kept)
    (hok : Stmt.AllOk P temps defs ss) (hsub : defs' ⊆ defs)
    (hlive : ∀ t ∈ defs, Live before t → t ∈ defs') :
    Stmt.AllOk P temps defs' kept ∧ ∀ t ∈ Stmt.defsAfterAll ss defs, Live live t →
      t ∈ Stmt.defsAfterAll kept defs' := by
  induction h generalizing defs defs' with
  | nil => exact ⟨trivial, hlive⟩
  | @keep s ss kept before before' _ _ _ hbefore ih =>
    have hs : s.Ok P temps defs' := by
      refine hok.1.of_temps ?_ ?_
      · intro t U ht hU
        exact ⟨hU.1, hlive t hU.2 ((hbefore t).mpr (.inr ht))⟩
      · intro t ht
        exact ⟨fun _ => id, fun hmem => (hok.1.of_def? ht).2 (hsub hmem)⟩
    have hsub' : s.defsAfter defs' ⊆ s.defsAfter defs := by
      intro t ht
      rw [Stmt.mem_defsAfter] at ht ⊢
      exact ht.imp id (hsub ·)
    obtain ⟨hrest, hdefs⟩ := ih hok.2 hsub' fun t ht hl => by
      rw [Stmt.mem_defsAfter] at ht ⊢
      exact ht.imp id fun hd => hlive t hd ((hbefore t).mpr (.inl hl))
    exact ⟨⟨hs, hrest⟩, hdefs⟩
  | @drop s ss kept before _ hidle ih =>
    refine ih hok.2 (fun t ht => Stmt.subset_defsAfter _ _ (hsub ht)) ?_
    intro t ht hl
    rw [Stmt.mem_defsAfter] at ht
    rcases ht with hdef | hd
    · -- what an idle statement defines is not live
      cases s with
      | assign dst src =>
        rw [Stmt.def?, Option.some.injEq] at hdef
        exact absurd hl (hdef ▸ hidle)
      | effect e =>
        obtain ⟨htrue, -⟩ := hok.1.result t hdef
        obtain ⟨c, hc, hct⟩ := WellFormed.isTrueConst_iff.mp htrue
        have hfalse : Propagate.isFalseConst e.guard = true := hidle
        rw [hc] at hfalse
        simp_all [Propagate.isFalseConst, Const.isTrue, Const.isFalse]
      | _ => simp [Stmt.def?] at hdef
    · exact hlive t hd hl

/-- What is live in front of the statements is live behind them, or the kept ones read it. -/
theorem Swept.live_iff (h : Swept live ss before kept) (t : Temp) :
    Live before t ↔ Live live t ∨ ∃ s ∈ kept, .tmp t ∈ s.nodes := by
  induction h with
  | nil => simp
  | keep _ _ _ hbefore ih =>
    rw [hbefore, ih, or_right_comm, or_assoc]
    simp only [List.mem_cons, exists_eq_or_imp]
  | drop _ _ ih => exact ih

/-- A statement that is kept is not idle in front of what the kept ones behind it leave live. -/
theorem Swept.not_idle {xs ys : List Stmt} {s : Stmt} (h : Swept live ss before (xs ++ s :: ys)) :
    ∃ behind, (∀ t, Live behind t ↔ Live live t ∨ ∃ s' ∈ ys, .tmp t ∈ s'.nodes) ∧
      ¬Idle behind s := by
  -- what is live behind `s` is the set that the walk had when it came to `s`
  generalize hkept : xs ++ s :: ys = kept at h
  induction h generalizing xs with
  | nil => simp at hkept
  | @keep s' ss kept behind before hrest _ hidle _ ih =>
    cases xs with
    | nil =>
      obtain ⟨rfl, rfl⟩ := List.cons.inj hkept
      exact ⟨behind, hrest.live_iff, hidle⟩
    | cons x xs => exact ih (List.cons.inj hkept).2
  | drop _ _ ih => exact ih hkept

/-! ## Runs -/

/-- The machines differ in temporaries that are not live only. -/
structure Agree (live : BitSet) (m m' : Machine) : Prop where
  temps : m'.temps = m.temps
  env : m'.env = m.env
  state : m'.state = m.state
  vals : ∀ t, Live live t → m'.vals t = m.vals t

theorem Agree.eval {m m' : Machine} {e : Expr} (h : Agree live m m')
    (he : ∀ t, .tmp t ∈ e.nodes → Live live t) {v : UInt64} (hv : m.eval e = .ok v) :
    m'.eval e = .ok v := by
  refine Machine.eval_congr (fun n _ => Machine.headAgrees_of_eq h.state h.env n) ?_ hv
  intro t ht u hu
  rw [Machine.eval_tmp_eq_ok] at hu ⊢
  rw [h.temps, h.vals t (he t ht)]
  exact hu

/-- An idle statement does not leave, and changes no live temporary. -/
theorem Idle.step {s : Stmt} {m m₁ m' : Machine} (hs : Idle live s) (h : m.step s = .next m₁)
    (hagree : Agree live m m') : Agree live m₁ m' := by
  cases s with
  | noop =>
    rw [← Machine.Step.next.inj h]
    exact hagree
  | assign dst src =>
    obtain ⟨v, T, -, -, rfl⟩ := Machine.step_assign.mp h
    refine ⟨hagree.temps, hagree.env, hagree.state, fun t ht => ?_⟩
    have hne : t ≠ dst := by
      intro heq
      exact hs (heq ▸ ht)
    rw [Machine.set_vals_of_ne hne]
    exact hagree.vals t ht
  | effect e =>
    obtain ⟨addr, g, -, hg, hrest⟩ := Machine.step_effect.mp h
    have hzero : m.eval e.guard = .ok 0 := by
      have hfalse : Propagate.isFalseConst e.guard = true := hs
      cases hguard : e.guard with
      | const c =>
        simp only [hguard, Propagate.isFalseConst, Const.isFalse, Bool.and_eq_true,
          beq_iff_eq] at hfalse
        rw [Machine.eval_const, hfalse.2]
      | _ => simp [hguard, Propagate.isFalseConst] at hfalse
    rw [hzero, Except.ok.injEq] at hg
    rcases hrest with ⟨-, rfl⟩ | ⟨hne, -⟩
    · exact hagree
    · exact absurd hg.symm hne
  | _ => exact hs.elim

/-- The kept statements end as the original ones do. -/
theorem Swept.finish {m m' : Machine} {next : Expr} {kind : JumpKind} {out : Outcome}
    (h : Swept live ss before kept) (hagree : Agree before m m')
    (hnext : ∀ t, .tmp t ∈ next.nodes → Live live t)
    (hout : Machine.finish next kind ss m = some out) :
    Machine.finish next kind kept m' = some out := by
  induction h generalizing m m' with
  | nil =>
    obtain ⟨v, hv, rfl⟩ := Machine.finish_nil_eq_some.mp hout
    exact Machine.finish_nil_eq_some.mpr ⟨v, hagree.eval hnext hv, by rw [hagree.state]⟩
  | @keep s ss kept before before' _ _ _ hbefore ih =>
    -- what a kept statement reads is live, so its operands have the same values on both machines
    have hops : ∀ e ∈ s.operands, ∀ e', e = e' → m.Carries m' e e' := by
      intro e he e' heq
      subst heq
      refine ⟨fun v hv => hagree.eval (fun t ht => ?_) hv, fun T hT => by rw [hagree.temps]; exact hT⟩
      exact (hbefore t).mpr (.inr (List.mem_flatMap.mpr ⟨e, he, ht⟩))
    have hself : s.Similar Eq id s := Stmt.similar_self fun _ _ => rfl
    rcases Machine.finish_cons_eq_some.mp hout with ⟨m₁, hstep, hrest⟩ | ⟨k, dst, hleave, rfl⟩
    · obtain ⟨st, ⟨rfl, hstep'⟩ | ⟨t, x, -, rfl, hstep'⟩⟩ :=
        Machine.step_similar hself hagree.state hagree.env hops
          (fun t T _ hT => by rw [hagree.temps]; exact hT) hstep
      · refine Machine.finish_cons_eq_some.mpr (.inl ⟨_, hstep', ih ?_ hrest⟩)
        exact ⟨hagree.temps, hagree.env, rfl, fun u hu => hagree.vals u ((hbefore u).mpr (.inl hu))⟩
      · refine Machine.finish_cons_eq_some.mpr (.inl ⟨_, hstep', ih ?_ hrest⟩)
        refine ⟨hagree.temps, hagree.env, rfl, fun u hu => ?_⟩
        rw [Machine.set_vals, Machine.set_vals, id]
        split
        · rfl
        · exact hagree.vals u ((hbefore u).mpr (.inl hu))
    · have hleave' := Machine.leave_similar hself (fun e he e' heq => (hops e he e' heq).1) hleave
      exact Machine.finish_cons_eq_some.mpr (.inr ⟨k, dst, hleave', by rw [hagree.state]⟩)
  | @drop s ss kept before _ hidle ih =>
    rcases Machine.finish_cons_eq_some.mp hout with ⟨m₁, hstep, hrest⟩ | ⟨k, dst, hleave, -⟩
    · exact ih (hidle.step hstep hagree) hrest
    -- an exit is never idle
    · obtain ⟨guard, g, rfl, -⟩ := Machine.step_eq_leave.mp hleave
      exact hidle.elim

end Liveness

open Liveness in
/-- The walk over a typed block starts with the temporaries of the successor. -/
theorem Block.exists_swept {P : Policy} {b : Block} (hb : b.Typed P) :
    ∃ live before kept, b.sweep.result = .ok { b with stmts := kept } ∧
      (∀ t, Live live t ↔ .tmp t ∈ b.next.nodes) ∧ Swept live b.stmts before kept := by
  have hnodes := hb.next_nodes
  obtain ⟨live, hadd, hlive⟩ := addUses_spec (.ofCapacity b.temps.size) b.next.nodes
    (fun e he => (hnodes e he).1) fun t ht => by
      obtain ⟨T, hT⟩ := (hnodes _ ht).2 t rfl
      exact (tempTy_eq_ok.mp hT).1
  obtain ⟨w, hw, hswept⟩ := stmts_spec live hb.stmts
  refine ⟨live, w.live, w.kept, ?_, fun t => ?_, hswept⟩
  · simp only [Block.sweep, Journaled.result_bind_eq_ok, Journaled.result_silent_eq_ok,
      Journaled.result_record, Journaled.result_pure]
    exact ⟨live, hadd, (), trivial, w, hw, (), trivial, rfl⟩
  · have hnone : ¬Live (.ofCapacity b.temps.size) t := by
      unfold Live
      rw [BitSet.contains_ofCapacity]
      simp
    rw [hlive]
    exact or_iff_right hnone

open Liveness in
/-- Dead code is dropped without a failure, and the rest of the block does the same. -/
theorem Block.sweep_spec {P : Policy} {b : Block} (hb : b.Typed P) :
    ∃ r, b.sweep.result = .ok r ∧ b.Keeps P r ∧ ∀ env, b.RefinedBy env r := by
  obtain ⟨live, before, kept, hr, hlive, hswept⟩ := Block.exists_swept hb
  have huses : ∀ t, .tmp t ∈ b.next.nodes → Live live t := fun t ht => (hlive t).mpr ht
  obtain ⟨hok, hdefs⟩ := hswept.allOk hb.stmts (List.Subset.refl _) fun t ht _ => ht
  refine ⟨_, hr, ⟨⟨hb.temps, hok, ?_, hb.kind⟩, ?_, Iff.rfl⟩, ?_⟩
  · rcases hb.next with haddr | hconst
    · have hkeep {T : Ty} (hT : b.next.HasTy P b.temps (Stmt.defsAfterAll b.stmts []) T) :=
        hT.of_temps fun t U ht hU => ⟨hU.1, hdefs t hU.2 (huses t ht)⟩
      exact .inl (haddr.imp hkeep hkeep)
    · exact .inr hconst
  · exact fun hflat => ⟨fun s hs => hflat.1 s (hswept.sublist.subset hs), hflat.2⟩
  · intro env s out hout
    rw [Block.ends_eq] at hout ⊢
    exact hswept.finish ⟨rfl, rfl, rfl, fun _ _ => rfl⟩ huses hout

open Liveness in
/-- No dead code is left. -/
theorem Block.sweep_alive {P : Policy} {b r : Block} (hb : b.Typed P)
    (hr : b.sweep.result = .ok r) : r.Alive := by
  obtain ⟨live, before, kept, hr', hlive, hswept⟩ := Block.exists_swept hb
  rw [hr', Except.ok.injEq] at hr
  subst hr
  have hidle (s : Stmt) (hs : s ∈ kept) : ∃ behind, ¬Idle behind s := by
    obtain ⟨xs, ys, rfl⟩ := List.append_of_mem hs
    obtain ⟨behind, -, hidle⟩ := hswept.not_idle
    exact ⟨behind, hidle⟩
  refine ⟨fun hs => ?_, fun e he hguard => ?_, fun xs dst src ys hsplit => ?_⟩
  · obtain ⟨behind, hidle⟩ := hidle _ hs
    exact hidle trivial
  · obtain ⟨behind, hidle⟩ := hidle _ he
    exact hidle (by rw [Idle, hguard]; rfl)
  · obtain rfl : kept = xs ++ .assign dst src :: ys := hsplit
    obtain ⟨behind, hbehind, hidle⟩ := hswept.not_idle
    rcases (hbehind dst).mp (not_not.mp hidle) with h | h
    · exact .inr ((hlive dst).mp h)
    · exact .inl h

end Straightline
