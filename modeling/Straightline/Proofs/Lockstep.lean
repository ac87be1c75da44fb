import Mathlib
import Straightline.Proofs.Stepping
import Straightline.Proofs.Windows

/-!
# Passes that keep every machine

Several passes replace statements one by one by others that do exactly the same, given what is known
at that point of the run. What is known is a property of the machine, and each statement takes it to
the property that holds behind it. `Replaces` is the obligation for one statement; `Lockstep` chains
it over a list, and `Lockstep.keeps` and `Lockstep.refinedBy` draw the conclusions for blocks.

A pass that drops or adds definitions leaves another machine behind. `Expands` is the obligation for
one statement and the statements that stand for it, `Expanded` chains it.
-/

namespace Straightline

/-! ## Assumptions about policies -/

namespace Policy

/-- The windows end at offsets. -/
def Unwrapped (P : Policy) : Prop := ∀ w bias, P.window w bias → w.Unwrapped

/-- Displacements can be added to every index. -/
def Steady (P : Policy) : Prop := ∀ w bias, P.window w bias → Straightline.Steady bias

/-- Effects that declare no register write leave the registers alone. -/
def KeepsRegs (P : Policy) (env : Env) : Prop :=
  ∀ e : Effect, P.effect e.callee e.args.length e.state → e.writesState = false →
    ∀ f, env.effect e.callee = some f →
      ∀ s vs addr r s', f s vs addr = .ok (r, s') → s'.regs = s.regs

/-- Effects that declare no touch of registers do not depend on them either. -/
def Blind (P : Policy) (env : Env) : Prop :=
  ∀ e : Effect, P.effect e.callee e.args.length e.state → e.touchesState = false →
    ∀ f, env.effect e.callee = some f →
      ∀ s vs addr r s', f s vs addr = .ok (r, s') → s'.regs = s.regs ∧
        ∀ regs, regs.size = s.regs.size → f ⟨regs, s.mem⟩ vs addr = .ok (r, ⟨regs, s'.mem⟩)

end Policy

/-- An effect that declares no register write leaves the registers alone. -/
theorem Machine.step_effect_regs {P : Policy} {defs : List Temp} {m m₁ : Machine} {e : Effect}
    (hkeep : P.KeepsRegs m.env) (hs : (Stmt.effect e).Ok P m.temps defs)
    (hwrites : e.writesState = false) (hstep : m.step (.effect e) = .next m₁) :
    m₁.state.regs = m.state.regs := by
  obtain ⟨addr, g, -, -, hrest⟩ := Machine.step_effect.mp hstep
  rcases hrest with ⟨-, rfl⟩ | ⟨-, vs, f, x, st, -, hf, hx, hafter⟩
  · rfl
  · rw [hafter.state]
    exact hkeep e hs.policy hwrites f hf _ _ _ _ _ hx

/-! ## Statements -/

/-- Given `Inv`, the statement `s'` does what `s` does, and `Inv'` holds behind it. -/
structure Stmt.Replaces (P : Policy) (temps : Array Ty) (env : Env) (defs : List Temp)
    (Inv Inv' : Machine → Prop) (s s' : Stmt) : Prop where
  ok : s'.Ok P temps defs
  def? : s'.def? = s.def?
  flat : s.Flat → s'.Flat
  step : ∀ m m₁ : Machine, m.temps = temps → m.env = env → m.Sound defs → Inv m →
    m.step s = .next m₁ → m.step s' = .next m₁ ∧ Inv' m₁
  leave : ∀ (m : Machine) k dst, m.step s = .leave k dst → m.step s' = .leave k dst

/-- Statements replaced one by one. -/
inductive Lockstep (P : Policy) (temps : Array Ty) (env : Env) :
    List Temp → (Machine → Prop) → List Stmt → List Stmt → Prop where
  | nil {defs : List Temp} {Inv : Machine → Prop} : Lockstep P temps env defs Inv [] []
  | cons {defs : List Temp} {Inv Inv' : Machine → Prop} {s s' : Stmt} {ss ss' : List Stmt} :
    s.Replaces P temps env defs Inv Inv' s' →
    Lockstep P temps env (s.defsAfter defs) Inv' ss ss' →
    Lockstep P temps env defs Inv (s :: ss) (s' :: ss')

namespace Lockstep

variable {P : Policy} {temps : Array Ty} {env : Env} {defs : List Temp} {Inv : Machine → Prop}
  {ss ss' : List Stmt}

theorem defsAfter_eq {s s' : Stmt} (h : s'.def? = s.def?) (defs : List Temp) :
    s'.defsAfter defs = s.defsAfter defs := by
  rw [Stmt.defsAfter, Stmt.defsAfter, h]

theorem allOk (h : Lockstep P temps env defs Inv ss ss') :
    Stmt.AllOk P temps defs ss' ∧ Stmt.defsAfterAll ss' defs = Stmt.defsAfterAll ss defs := by
  induction h with
  | nil => exact ⟨trivial, rfl⟩
  | cons hs _ ih =>
    rw [Stmt.AllOk, Stmt.defsAfterAll, Stmt.defsAfterAll, defsAfter_eq hs.def?]
    exact ⟨⟨hs.ok, ih.1⟩, ih.2⟩

theorem flat (h : Lockstep P temps env defs Inv ss ss') (hflat : ∀ s ∈ ss, s.Flat) :
    ∀ s ∈ ss', s.Flat := by
  induction h with
  | nil => exact hflat
  | cons hs _ ih =>
    rw [List.forall_mem_cons] at hflat ⊢
    exact ⟨hs.flat hflat.1, ih hflat.2⟩

theorem finish {Q : Policy} {m : Machine} {next : Expr} {kind : JumpKind} {out : Outcome}
    (h : Lockstep P temps env defs Inv ss ss') (hok : Stmt.AllOk Q temps defs ss)
    (htemps : m.temps = temps) (henv : m.env = env) (hm : m.Sound defs) (hinv : Inv m)
    (hout : Machine.finish next kind ss m = some out) :
    Machine.finish next kind ss' m = some out := by
  induction h generalizing m with
  | nil => exact hout
  | cons hs _ ih =>
    rcases Machine.finish_cons_eq_some.mp hout with ⟨m₁, hstep, hrest⟩ | ⟨k, dst, hleave, rfl⟩
    · obtain ⟨hstep', hinv'⟩ := hs.step m m₁ htemps henv hm hinv hstep
      have htemps' := (Machine.step_temps hstep).trans htemps
      have henv' := (Machine.step_env hstep).trans henv
      have hsound := hm.step hstep (htemps ▸ hok.1)
      exact Machine.finish_cons_eq_some.mpr
        (.inl ⟨m₁, hstep', ih hok.2 htemps' henv' hsound hinv' hrest⟩)
    · exact Machine.finish_cons_eq_some.mpr (.inr ⟨k, dst, hs.leave m k dst hleave, rfl⟩)

/-! ## Blocks -/

variable {b : Block}

theorem keeps (hb : b.Typed P) (h : Lockstep P b.temps env [] Inv b.stmts ss') :
    b.Keeps P { b with stmts := ss' } := by
  obtain ⟨hok, hdefs⟩ := h.allOk
  refine ⟨⟨hb.temps, hok, ?_, hb.kind⟩, fun hflat => ⟨h.flat hflat.1, hflat.2⟩, Iff.rfl⟩
  have hnext := hb.next
  unfold Block.NextOk at hnext ⊢
  rw [← hdefs] at hnext
  exact hnext

theorem refinedBy {Q : Policy} (hb : b.Typed Q) (h : Lockstep P b.temps env [] Inv b.stmts ss')
    (hinv : ∀ s, Inv (.start b.temps env s)) : b.RefinedBy env { b with stmts := ss' } := by
  intro s out hout
  rw [Block.ends_eq] at hout ⊢
  exact h.finish hb.stmts rfl rfl (Machine.sound_start _ _ _) (hinv s) hout

end Lockstep

/-- A statement replaces itself if it takes what is known in front of it to what is known behind. -/
theorem Stmt.Replaces.self {P : Policy} {temps : Array Ty} {env : Env} {defs : List Temp}
    {Inv Inv' : Machine → Prop} {s : Stmt} (h : s.Ok P temps defs)
    (hstep : ∀ m m₁ : Machine, m.temps = temps → m.env = env → m.Sound defs → Inv m →
      m.step s = .next m₁ → Inv' m₁) : s.Replaces P temps env defs Inv Inv' s :=
  ⟨h, rfl, id, fun m m₁ ht he hm hi hs => ⟨hs, hstep m m₁ ht he hm hi hs⟩, fun _ _ _ => id⟩

/-! ## Statements replaced by several -/

/-- On machines related by `Rel`, the statements `r` do what `s` does, and the machines behind them
are related by `Rel'`. -/
structure Stmt.Expands (Rel Rel' : Machine → Machine → Prop) (s : Stmt) (r : List Stmt) :
    Prop where
  step : ∀ m m' m₁, Rel m m' → m.step s = .next m₁ → ∃ m₁', Machine.exec r m' = some m₁' ∧ Rel' m₁ m₁'
  leave : ∀ m m' k dst, Rel m m' → m.step s = .leave k dst → ∀ next kind ss,
    Machine.finish next kind (r ++ ss) m' = some ⟨dst.bits, k, m.state⟩

/-- Statements replaced by several each. -/
inductive Expanded : (Machine → Machine → Prop) → (Machine → Machine → Prop) → List Stmt →
    List Stmt → Prop where
  | nil {Rel : Machine → Machine → Prop} : Expanded Rel Rel [] []
  | cons {Rel Rel₁ Rel' : Machine → Machine → Prop} {s : Stmt} {ss r ss' : List Stmt} :
    s.Expands Rel Rel₁ r → Expanded Rel₁ Rel' ss ss' → Expanded Rel Rel' (s :: ss) (r ++ ss')

/-- Replaced statements end as the original ones do, if the jump behind them, with the statements
`tail` in front of it, goes to the same place. -/
theorem Expanded.finish {Rel Rel' : Machine → Machine → Prop} {ss ss' tail : List Stmt}
    {m m' : Machine} {next next' : Expr} {kind : JumpKind} {out : Outcome}
    (h : Expanded Rel Rel' ss ss')
    (hend : ∀ m m' v, Rel' m m' → m.eval next = .ok v →
      Machine.finish next' kind tail m' = some ⟨v, kind, m.state⟩)
    (hrel : Rel m m') (hout : Machine.finish next kind ss m = some out) :
    Machine.finish next' kind (ss' ++ tail) m' = some out := by
  induction h generalizing m m' with
  | nil =>
    obtain ⟨v, hv, rfl⟩ := Machine.finish_nil_eq_some.mp hout
    exact hend m m' v hrel hv
  | cons hs _ ih =>
    rw [List.append_assoc]
    rcases Machine.finish_cons_eq_some.mp hout with ⟨m₁, hstep, hrest⟩ | ⟨k, dst, hleave, rfl⟩
    · obtain ⟨m₁', hexec, hrel'⟩ := hs.step m m' m₁ hrel hstep
      rw [Machine.finish_append hexec]
      exact ih hend hrel' hrest
    · exact hs.leave m m' k dst hrel hleave _ _ _

theorem Expanded.exec {Rel Rel' : Machine → Machine → Prop} {ss ss' : List Stmt}
    {m m' m₁ : Machine} (h : Expanded Rel Rel' ss ss') (hrel : Rel m m')
    (hexec : Machine.exec ss m = some m₁) :
    ∃ m₁', Machine.exec ss' m' = some m₁' ∧ Rel' m₁ m₁' := by
  induction h generalizing m m' with
  | nil =>
    rw [Machine.exec, Option.some.injEq] at hexec
    exact ⟨m', rfl, hexec ▸ hrel⟩
  | cons hs _ ih =>
    obtain ⟨m₂, hstep, hrest⟩ := Machine.exec_cons_eq_some.mp hexec
    obtain ⟨m₂', hr, hrel'⟩ := hs.step m m' m₂ hrel hstep
    obtain ⟨m₁', hss', hend⟩ := ih hrel' hrest
    exact ⟨m₁', Machine.exec_append_eq_some.mpr ⟨m₂', hr, hss'⟩, hend⟩

/-- Where the original statements are left through an exit, so are the ones that replace them. -/
theorem Expanded.left {Rel Rel' : Machine → Machine → Prop} {ss ss' : List Stmt}
    {m m' : Machine} {out : Outcome} (h : Expanded Rel Rel' ss ss') (hrel : Rel m m')
    (hleft : Machine.left? ss m = some out) : Machine.left? ss' m' = some out := by
  -- with a hole for the successor, only an exit gives an outcome
  have hout : Machine.finish .missing .boring ss m = some out := by
    rw [← List.append_nil ss]
    exact Machine.finish_append_eq_some.mpr (.inl hleft)
  have hout' : Machine.finish .missing .boring (ss' ++ []) m' = some out :=
    h.finish (fun m m' v _ hv => by simp [Machine.eval] at hv) hrel hout
  rcases Machine.finish_append_eq_some.mp hout' with h | ⟨m₁, -, hmissing⟩
  · exact h
  · obtain ⟨v, hv, -⟩ := Machine.finish_nil_eq_some.mp hmissing
    simp [Machine.eval] at hv

end Straightline
