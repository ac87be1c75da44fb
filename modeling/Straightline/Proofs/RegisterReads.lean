import Mathlib
import Straightline.Pass.RegisterReads
import Straightline.Proofs.Lockstep

/-!
# Reusing register reads is sound

The table of known slots means something on a machine: each slot it lists reads as the value of the
atom listed with it (`Known.Holds`). Statements keep this true of the table that the pass goes on
with, so a read that became a copy has the value it had.
-/

namespace Straightline
namespace RegisterReads

variable {P : Policy} {temps : Array Ty} {env : Env} {defs : List Temp} {m m₁ : Machine}

namespace Known

variable {k : Known} {r : Region} {e : Expr}

/-- The listed values are atoms that are typed here. -/
def Ok (P : Policy) (temps : Array Ty) (defs : List Temp) (k : Known) : Prop :=
  ∀ r e, (r, e) ∈ k → e.isAtom = true ∧ ∃ T, e.HasTy P temps defs T

/-- Each listed slot reads as the value listed with it. -/
def Holds (m : Machine) (k : Known) : Prop :=
  ∀ r e, (r, e) ∈ k → ∃ off T v, r = .ofTy off T ∧ e.typeIn m.temps = .ok T ∧ m.eval e = .ok v ∧
    m.state.readReg off T = .ok v

theorem mem_of_find? (h : k.find? r = some e) : (r, e) ∈ k := by
  obtain ⟨l, l', rfl, -⟩ := List.lookup_eq_some_iff.mp h
  simp

theorem mem_learn {r' : Region} {e' : Expr} (h : (r', e') ∈ k.learn r e) :
    r' = r ∧ e' = e ∨ (r', e') ∈ k := by
  rcases List.mem_cons.mp h with heq | hmem
  · exact .inl (Prod.mk.injEq _ _ _ _ ▸ heq)
  · exact .inr (List.mem_filter.mp hmem).1

theorem mem_forget {r' : Region} (h : (r', e) ∈ k.forget r) :
    (r', e) ∈ k ∧ r'.overlaps r = false := by
  obtain ⟨hmem, hdis⟩ := List.mem_filter.mp h
  exact ⟨hmem, by simpa using hdis⟩

theorem Ok.subset {k' : Known} (h : k.Ok P temps defs) (hsub : ∀ r e, (r, e) ∈ k' → (r, e) ∈ k) :
    k'.Ok P temps defs := fun r e he => h r e (hsub r e he)

theorem Ok.learn (h : k.Ok P temps defs) (hatom : e.isAtom = true) {T : Ty}
    (hT : e.HasTy P temps defs T) : (k.learn r e).Ok P temps defs := by
  intro r' e' h'
  rcases mem_learn h' with ⟨-, rfl⟩ | hmem
  · exact ⟨hatom, T, hT⟩
  · exact h r' e' hmem

/-- More temporaries may be defined. -/
theorem Ok.mono {defs' : List Temp} (h : k.Ok P temps defs) (hsub : defs ⊆ defs') :
    k.Ok P temps defs' := by
  intro r e he
  obtain ⟨hatom, T, hT⟩ := h r e he
  exact ⟨hatom, T, hT.mono (.refl P) (fun _ _ => id) hsub⟩

/-- A slot that a step does not change still reads as listed. -/
theorem Holds.step {s : Stmt} (h : k.Holds m) (hk : k.Ok P m.temps defs)
    (hstep : m.step s = .next m₁) (hs : s.Ok P m.temps defs)
    (hread : ∀ r e, (r, e) ∈ k → ∀ off T, r = .ofTy off T →
      m₁.state.readReg off T = m.state.readReg off T) : k.Holds m₁ := by
  intro r e he
  obtain ⟨off, T, v, hr, hty, hv, hval⟩ := h r e he
  obtain ⟨hatom, U, hU⟩ := hk r e he
  refine ⟨off, T, v, hr, by rw [Machine.step_temps hstep]; exact hty, ?_, ?_⟩
  · rw [Machine.eval_atom_step hstep hs hatom hU]
    exact hv
  · rw [hread r e he off T hr]
    exact hval

theorem Holds.learn (h : k.Holds m) {off : Int64} {T : Ty} {v : UInt64}
    (hty : e.typeIn m.temps = .ok T) (hv : m.eval e = .ok v)
    (hread : m.state.readReg off T = .ok v) : (k.learn (.ofTy off T) e).Holds m := by
  intro r' e' h'
  rcases mem_learn h' with ⟨rfl, rfl⟩ | hmem
  · exact ⟨off, T, v, rfl, hty, hv, hread⟩
  · exact h r' e' hmem

end Known

/-- What is known at a point of the run, with the assumptions about the environment. -/
def Inv (P : Policy) (env : Env) (k : Known) (m : Machine) : Prop :=
  (P.Unwrapped ∧ P.KeepsRegs env) ∧ k.Holds m

variable {k : Known} {s : Stmt}

/-- A statement that writes no register keeps what is known. -/
theorem replaces_self (hk : k.Ok P temps defs) (hs : s.Ok P temps defs)
    (hwrites : s.mayWriteRegs = false) :
    s.Replaces P temps env defs (Inv P env k) (Inv P env k) s := by
  refine .self hs fun m m₁ htemps _ _ hinv hstep => ⟨hinv.1, ?_⟩
  subst htemps
  refine hinv.2.step hk hstep hs fun r e _ off T _ => ?_
  exact State.readReg_of_regs_eq (Machine.step_regs hstep hwrites)

/-- A read of a slot that is not known makes it known. -/
theorem replaces_read {dst : Temp} {off : Int64} {ty : Ty} (hk : k.Ok P temps defs)
    (hs : (Stmt.assign dst (.get off ty)).Ok P temps defs) :
    (Stmt.assign dst (.get off ty)).Replaces P temps env defs (Inv P env k)
      (Inv P env (k.learn (.ofTy off ty) (.tmp dst))) (.assign dst (.get off ty)) := by
  refine .self hs fun m m₁ htemps _ _ hinv hstep => ⟨hinv.1, ?_⟩
  subst htemps
  have hold := hinv.2.step hk hstep hs fun r e _ off' T _ =>
    State.readReg_of_regs_eq (Machine.step_regs hstep rfl)
  obtain ⟨T, ⟨rfl, -⟩, hdst, -⟩ := hs
  obtain ⟨v, T, hv, hT, rfl⟩ := Machine.step_assign.mp hstep
  rw [hdst, Except.ok.injEq] at hT
  subst hT
  exact hold.learn (v := v) hdst (Machine.eval_set_self hdst (State.readReg_fits hv)) hv

/-- A read of a known slot is a copy of its value. -/
theorem replaces_copy {dst : Temp} {off : Int64} {ty : Ty} {e : Expr} (hk : k.Ok P temps defs)
    (hs : (Stmt.assign dst (.get off ty)).Ok P temps defs) (he : (.ofTy off ty, e) ∈ k)
    (hty : e.typeIn temps = .ok ty) :
    (Stmt.assign dst (.get off ty)).Replaces P temps env defs (Inv P env k) (Inv P env k)
      (.assign dst e) := by
  obtain ⟨hatom, U, hU⟩ := hk _ e he
  have hUty : U = ty := by
    have h := hU.typeIn
    rw [hty, Except.ok.injEq] at h
    exact h.symm
  subst hUty
  refine ⟨?_, rfl, fun _ => ?_, ?_, fun _ _ _ h => ?_⟩
  · obtain ⟨T, ⟨rfl, -⟩, hdst, hfresh⟩ := hs
    exact ⟨_, hU, hdst, hfresh⟩
  · cases e <;> simp_all [Stmt.Flat, Expr.children, Expr.isAtom]
  · intro m m₁ htemps _ _ hinv hstep
    subst htemps
    have hold := hinv.2.step hk hstep hs fun r e _ off' T _ =>
      State.readReg_of_regs_eq (Machine.step_regs hstep rfl)
    refine ⟨?_, hinv.1, hold⟩
    obtain ⟨v, T, hv, hT, rfl⟩ := Machine.step_assign.mp hstep
    obtain ⟨off', T', v', hr, hty', hv', hread⟩ := hinv.2 _ e he
    rw [hty, Except.ok.injEq] at hty'
    subst hty'
    have hoff : off = off' := congrArg Region.lo hr
    subst hoff
    rw [Machine.eval_get, hread, Except.ok.injEq] at hv
    subst hv
    exact Machine.step_assign.mpr ⟨v', T, hv', hT, rfl⟩
  · simp [Machine.step, Machine.attempt_ne_leave] at h

/-- A write of an atom to a slot makes it known, and the slots that overlap it unknown. -/
theorem holds_put {off : Int64} {data : Expr} {T : Ty} (hk : k.Ok P m.temps defs)
    (hs : (Stmt.put off data).Ok P m.temps defs) (hT : data.HasTy P m.temps defs T)
    (hm : m.Sound defs) (hhold : k.Holds m) (hstep : m.step (.put off data) = .next m₁) :
    (k.forget (.ofTy off T)).Holds m₁ ∧
      (data.isAtom = true → ((k.forget (.ofTy off T)).learn (.ofTy off T) data).Holds m₁) := by
  have hforget : (k.forget (.ofTy off T)).Ok P m.temps defs :=
    hk.subset fun r e he => (Known.mem_forget he).1
  have hsub : (k.forget (.ofTy off T)).Holds m := fun r e he => hhold r e (Known.mem_forget he).1
  obtain ⟨U, v, st, hU, hv, hst, hm₁⟩ := Machine.step_put.mp hstep
  rw [hT.typeIn, Except.ok.injEq] at hU
  subst hU
  have hold : (k.forget (.ofTy off T)).Holds m₁ := by
    refine hsub.step hforget hstep hs fun r e he off' T' hr => ?_
    rw [hm₁]
    refine State.readReg_writeReg_of_not_overlaps hst ?_
    rw [Region.overlaps_comm, ← hr]
    exact (Known.mem_forget he).2
  refine ⟨hold, fun hatom => hold.learn (v := v) ?_ ?_ ?_⟩
  · rw [Machine.step_temps hstep]
    exact hT.typeIn
  · rw [Machine.eval_atom_step hstep hs hatom hT]
    exact hv
  · have hfits : v &&& T.mask = v := Machine.eval_fits hm.fit hT hv
    rw [hm₁, ← hfits]
    exact State.readReg_writeReg hst

/-- A write to an element keeps the slots outside the bounds of its window. -/
theorem holds_putIx {w : Window} {ix data : Expr} {bias : Int64} (hun : P.Unwrapped)
    (hk : k.Ok P m.temps defs) (hs : (Stmt.putIx w ix bias data).Ok P m.temps defs)
    (hhold : k.Holds m) (hstep : m.step (.putIx w ix bias data) = .next m₁) :
    (k.forget w.bounds).Holds m₁ := by
  have hforget : (k.forget w.bounds).Ok P m.temps defs :=
    hk.subset fun r e he => (Known.mem_forget he).1
  have hsub : (k.forget w.bounds).Holds m := fun r e he => hhold r e (Known.mem_forget he).1
  refine hsub.step hforget hstep hs fun r e he off' T' hr => ?_
  obtain ⟨i, v, off, st, -, -, hoff, hst, rfl⟩ := Machine.step_putIx.mp hstep
  obtain ⟨hw, hwin, -⟩ := hs
  refine State.readReg_congr (State.size_writeReg hst) fun j hj => ?_
  refine State.getElem?_writeReg_of_not_covers hst fun hcov => ?_
  have hbounds := Window.covers_bounds hw (hun w bias hwin) hoff hcov
  have hover := Region.overlaps_of_covers hj hbounds
  rw [← hr, (Known.mem_forget he).2] at hover
  exact Bool.noConfusion hover

/-- An effect that declares no register write keeps what is known. -/
theorem holds_effect {e : Effect} (hkeep : P.KeepsRegs m.env) (hk : k.Ok P m.temps defs)
    (hs : (Stmt.effect e).Ok P m.temps defs) (hwrites : e.writesState = false)
    (hhold : k.Holds m) (hstep : m.step (.effect e) = .next m₁) : k.Holds m₁ := by
  exact hhold.step hk hstep hs fun r _ _ off T _ =>
    State.readReg_of_regs_eq (Machine.step_effect_regs hkeep hs hwrites hstep)

/-! ## The pass -/

/-- One statement of the pass. -/
theorem stmt_spec (hk : k.Ok P temps defs) (hs : s.Ok P temps defs) :
    ∃ k' s', stmt temps k s = .ok (k', s') ∧ k'.Ok P temps (s.defsAfter defs) ∧
      ∀ env, s.Replaces P temps env defs (Inv P env k) (Inv P env k') s' := by
  have hmono : k.Ok P temps (s.defsAfter defs) := hk.mono (Stmt.subset_defsAfter _ _)
  have hsame (h : s.mayWriteRegs = false) : stmt temps k s = .ok (k, s) →
      ∃ k' s', stmt temps k s = .ok (k', s') ∧ k'.Ok P temps (s.defsAfter defs) ∧
        ∀ env, s.Replaces P temps env defs (Inv P env k) (Inv P env k') s' :=
    fun heq => ⟨k, s, heq, hmono, fun env => replaces_self hk hs h⟩
  cases s with
  | missing | noop | mark | store | fence | exit => exact hsame rfl rfl
  | assign dst src =>
    cases src with
    | get off ty =>
      obtain ⟨T, ⟨rfl, -⟩, hdst, -⟩ := id hs
      cases hfind : k.find? (.ofTy off ty) with
      | none =>
        refine ⟨_, _, by simp only [stmt, hfind], ?_, fun env => replaces_read hk hs⟩
        exact hmono.learn rfl (T := ty) ⟨hdst, by simp [Stmt.defsAfter, Stmt.def?]⟩
      | some v =>
        have hmem := Known.mem_of_find? hfind
        obtain ⟨-, U, hU⟩ := hk _ v hmem
        by_cases heq : U = ty
        · subst heq
          refine ⟨k, .assign dst v, ?_, hmono, fun env => replaces_copy hk hs hmem hU.typeIn⟩
          simp [stmt, hfind, hU.typeIn, bind, Except.bind]
        -- what is known there has another type, so the read stays
        · refine ⟨k, .assign dst (.get off ty), ?_, hmono, fun env => replaces_self hk hs rfl⟩
          simp [stmt, hfind, hU.typeIn, bind, Except.bind, heq]
    | _ => exact hsame rfl rfl
  | put off data =>
    obtain ⟨hoff, T, hT, hslot⟩ := id hs
    have hforget : (k.forget (.ofTy off T)).Ok P temps defs :=
      hk.subset fun r e he => (Known.mem_forget he).1
    -- the write makes what it covers obsolete; only an atom can be remembered in its place
    cases hatom : data.isAtom with
    | true =>
      refine ⟨(k.forget (.ofTy off T)).learn (.ofTy off T) data, .put off data, ?_, ?_, ?_⟩
      · simp [stmt, hT.typeIn, bind, Except.bind, hatom]
      · exact hforget.learn hatom hT
      · intro env
        refine .self hs fun m m₁ htemps _ hm hinv hstep => ⟨hinv.1, ?_⟩
        subst htemps
        exact (holds_put hk hs hT hm hinv.2 hstep).2 hatom
    | false =>
      refine ⟨k.forget (.ofTy off T), .put off data, ?_, hforget, ?_⟩
      · simp [stmt, hT.typeIn, bind, Except.bind, hatom]
      · intro env
        refine .self hs fun m m₁ htemps _ hm hinv hstep => ⟨hinv.1, ?_⟩
        subst htemps
        exact (holds_put hk hs hT hm hinv.2 hstep).1
  | putIx w ix bias data =>
    refine ⟨k.forget w.bounds, .putIx w ix bias data, rfl, ?_, fun env => ?_⟩
    · exact hk.subset fun r e he => (Known.mem_forget he).1
    · refine .self hs fun m m₁ htemps _ _ hinv hstep => ⟨hinv.1, ?_⟩
      subst htemps
      exact holds_putIx hinv.1.1 hk hs hinv.2 hstep
  | effect e =>
    cases hwrites : e.writesState with
    | true =>
      -- any register may have been written, so nothing is known any more
      refine ⟨[], .effect e, by simp only [stmt, hwrites, if_true], ?_, fun env => ?_⟩
      · intro r e he
        simp at he
      · refine .self hs fun m m₁ _ _ _ hinv _ => ⟨hinv.1, ?_⟩
        intro r e he
        simp at he
    | false =>
      refine ⟨k, .effect e, by simp only [stmt, hwrites]; rfl, hmono, fun env => ?_⟩
      refine .self hs fun m m₁ htemps henv _ hinv hstep => ⟨hinv.1, ?_⟩
      subst htemps henv
      exact holds_effect hinv.1.2 hk hs hwrites hinv.2 hstep

/-- The pass over statements that keep the rules. -/
theorem stmts_spec {ss : List Stmt} (hk : k.Ok P temps defs) (hss : Stmt.AllOk P temps defs ss) :
    ∃ ss', stmts temps k ss = .ok ss' ∧ ∀ env, Lockstep P temps env defs (Inv P env k) ss ss' := by
  induction ss generalizing k defs with
  | nil => exact ⟨[], rfl, fun env => .nil⟩
  | cons s ss ih =>
    obtain ⟨k', s', hstmt, hk', hs'⟩ := stmt_spec hk hss.1
    obtain ⟨ss', hstmts, hss'⟩ := ih hk' hss.2
    refine ⟨s' :: ss', ?_, fun env => .cons (hs' env) (hss' env)⟩
    simp only [stmts, bind_eq_ok]
    exact ⟨(k', s'), hstmt, ss', hstmts, rfl⟩

end RegisterReads

open RegisterReads in
/-- Reads of known slots become copies without a failure, and the block does the same, if its
windows end at offsets and its effects change registers only where they say so. -/
theorem Block.reuseReads_spec {P : Policy} {b : Block} (hb : b.Typed P) :
    ∃ r, b.reuseReads = .ok r ∧ b.Keeps P r ∧
      ∀ env, P.Unwrapped → P.KeepsRegs env → b.RefinedBy env r := by
  have hempty : Known.Ok P b.temps [] [] := by
    intro r e he
    simp at he
  obtain ⟨ss, hss, hlock⟩ := stmts_spec hempty hb.stmts
  refine ⟨{ b with stmts := ss }, ?_, (hlock ⟨fun _ => none, fun _ => none⟩).keeps hb, ?_⟩
  · simp only [Block.reuseReads, bind_eq_ok]
    exact ⟨ss, hss, rfl⟩
  · intro env hun hkeep
    refine (hlock env).refinedBy hb fun s => ⟨⟨hun, hkeep⟩, ?_⟩
    intro r e he
    simp at he

end Straightline
