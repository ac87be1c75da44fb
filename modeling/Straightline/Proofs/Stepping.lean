import Mathlib
import Straightline.Proofs.Evaluation

/-!
# Steps and outcomes

What a statement does, stated once for each form, and what a run amounts to: its `Outcome` is where
it went and the state it left, if it did not fail. Which exit was taken is no part of the outcome.
`Block.ends` is the outcome of a block, and two blocks are compared through it.
-/

namespace Straightline

/-- Whether a statement can change registers. -/
def Stmt.mayWriteRegs : Stmt → Bool
  | .put _ _ | .putIx _ _ _ _ | .effect _ => true
  | _ => false

namespace Machine

variable {m m' : Machine} {s : Stmt}

/-! ## Updates -/

/-- The machine with temporary `t` set to `v`. -/
def set (m : Machine) (t : Temp) (v : UInt64) : Machine :=
  { m with vals := fun u => if u = t then some v else m.vals u }

/-- The machine in another state. -/
def withState (m : Machine) (s : State) : Machine := { m with state := s }

@[simp] theorem set_temps (t : Temp) (v : UInt64) : (m.set t v).temps = m.temps := rfl
@[simp] theorem set_env (t : Temp) (v : UInt64) : (m.set t v).env = m.env := rfl
@[simp] theorem set_state (t : Temp) (v : UInt64) : (m.set t v).state = m.state := rfl
@[simp] theorem withState_temps (s : State) : (m.withState s).temps = m.temps := rfl
@[simp] theorem withState_env (s : State) : (m.withState s).env = m.env := rfl
@[simp] theorem withState_vals (s : State) : (m.withState s).vals = m.vals := rfl
@[simp] theorem withState_state (s : State) : (m.withState s).state = s := rfl

theorem set_vals (t u : Temp) (v : UInt64) :
    (m.set t v).vals u = if u = t then some v else m.vals u := rfl

@[simp] theorem set_vals_self (t : Temp) (v : UInt64) : (m.set t v).vals t = some v := by
  simp [set_vals]

theorem set_vals_of_ne {t u : Temp} (h : u ≠ t) (v : UInt64) : (m.set t v).vals u = m.vals u := by
  simp [set_vals, h]

/-! ## Steps -/

theorem define_eq_ok {t : Temp} {v : UInt64} :
    m.define t v = .ok m' ↔ ∃ T, tempTy m.temps t = .ok T ∧ m' = m.set t (v &&& T.mask) := by
  simp only [define, bind_eq_ok, Except.ok.injEq, set, eq_comm (a := m')]

theorem attempt_eq_next {x : Except Fault Machine} : m.attempt x = .next m' ↔ x = .ok m' := by
  cases x <;> simp [attempt]

theorem attempt_ne_leave {x : Except Fault Machine} {k : JumpKind} {dst : Const} :
    m.attempt x ≠ .leave k dst := by
  cases x <;> simp [attempt]

theorem step_assign {dst : Temp} {src : Expr} :
    m.step (.assign dst src) = .next m' ↔
      ∃ v T, m.eval src = .ok v ∧ tempTy m.temps dst = .ok T ∧ m' = m.set dst (v &&& T.mask) := by
  simp only [step, attempt_eq_next, bind_eq_ok, define_eq_ok, exists_and_left]

theorem step_put {off : Int64} {data : Expr} :
    m.step (.put off data) = .next m' ↔
      ∃ T v st, data.typeIn m.temps = .ok T ∧ m.eval data = .ok v ∧
        m.state.writeReg off T v = .ok st ∧ m' = m.withState st := by
  simp only [step, attempt_eq_next, bind_eq_ok, exists_and_left, Except.ok.injEq, withState,
    eq_comm (a := m')]

theorem step_putIx {w : Window} {ix data : Expr} {bias : Int64} :
    m.step (.putIx w ix bias data) = .next m' ↔
      ∃ i v off st, m.eval ix = .ok i ∧ m.eval data = .ok v ∧
        w.offset? (index i) bias = some off ∧ m.state.writeReg off w.elem v = .ok st ∧
        m' = m.withState st := by
  simp only [step, attempt_eq_next, bind_eq_ok, exists_and_left, Except.ok.injEq, withState,
    element_eq_ok, eq_comm (a := m')]

theorem step_store {addr data : Expr} :
    m.step (.store addr data) = .next m' ↔
      ∃ a T v, m.eval addr = .ok a ∧ data.typeIn m.temps = .ok T ∧ m.eval data = .ok v ∧
        m' = m.withState (m.state.store a T v) := by
  simp only [step, attempt_eq_next, bind_eq_ok, exists_and_left, Except.ok.injEq, withState,
    eq_comm (a := m')]

/-- The address that an effect hands to its helper. -/
def EffectAddr (m : Machine) (e : Effect) (addr : UInt64) : Prop :=
  if e.touchesMem = true then m.eval e.memAddr = .ok addr else addr = 0

/-- The machine behind an effect that happened, with the result `r` and in the state `st`. -/
def AfterEffect (m : Machine) (e : Effect) (r : UInt64) (st : State) (m' : Machine) : Prop :=
  match e.result with
  | none => m' = m.withState st
  | some t => ∃ T, tempTy m.temps t = .ok T ∧ m' = (m.withState st).set t (r &&& T.mask)

/-- The state behind an effect that happened is the one that its helper left. -/
theorem AfterEffect.state {e : Effect} {r : UInt64} {st : State} (h : m.AfterEffect e r st m') :
    m'.state = st := by
  unfold AfterEffect at h
  cases hres : e.result with
  | none =>
    simp only [hres] at h
    rw [h, withState_state]
  | some t =>
    simp only [hres] at h
    obtain ⟨T, -, rfl⟩ := h
    rfl

/-- The result goes to the same temporary in every state. -/
theorem AfterEffect.withState {e : Effect} {r : UInt64} {st : State} (h : m.AfterEffect e r st m')
    (before after : State) :
    (m.withState before).AfterEffect e r after (m'.withState after) := by
  unfold AfterEffect at h ⊢
  cases hres : e.result with
  | none =>
    simp only [hres] at h ⊢
    rw [h]
    rfl
  | some t =>
    simp only [hres] at h ⊢
    obtain ⟨T, hT, rfl⟩ := h
    exact ⟨T, hT, rfl⟩

theorem fire_eq_bind {e : Effect} :
    m.fire e = (if e.touchesMem = true then m.eval e.memAddr else .ok 0) >>= fun addr =>
      m.eval e.guard >>= fun g => if g = 0 then .ok none else m.evalAll e.args >>= fun vs =>
        match m.env.effect e.callee with
        | some f => f m.state vs addr >>= fun r => .ok (some r)
        | none => .error (.atStmt .unknownEffect (.effect e)) := by
  unfold fire
  cases e.touchesMem <;> rfl

theorem fire_eq_ok {e : Effect} {o : Option (UInt64 × State)} :
    m.fire e = .ok o ↔
      ∃ addr g, m.EffectAddr e addr ∧ m.eval e.guard = .ok g ∧
        (g = 0 ∧ o = none ∨ g ≠ 0 ∧ ∃ vs f r, m.evalAll e.args = .ok vs ∧
          m.env.effect e.callee = some f ∧ f m.state vs addr = .ok r ∧ o = some r) := by
  have haddr : ∀ addr, (if e.touchesMem = true then m.eval e.memAddr else .ok 0) = .ok addr ↔
      m.EffectAddr e addr := by
    intro addr
    unfold EffectAddr
    split
    · rfl
    · rw [Except.ok.injEq, eq_comm]
  simp only [fire_eq_bind, bind_eq_ok, haddr]
  constructor
  · intro h
    obtain ⟨addr, ha, g, hg, h⟩ := h
    refine ⟨addr, g, ha, hg, ?_⟩
    by_cases hz : g = 0
    · rw [if_pos hz, Except.ok.injEq] at h
      exact .inl ⟨hz, h.symm⟩
    · rw [if_neg hz, bind_eq_ok] at h
      obtain ⟨vs, hvs, h⟩ := h
      refine .inr ⟨hz, vs, ?_⟩
      cases hf : m.env.effect e.callee with
      | none => simp [hf] at h
      | some f =>
        simp only [hf, bind_eq_ok, Except.ok.injEq] at h
        obtain ⟨r, hr, ho⟩ := h
        exact ⟨f, r, hvs, rfl, hr, ho.symm⟩
  · intro h
    obtain ⟨addr, g, ha, hg, h⟩ := h
    refine ⟨addr, ha, g, hg, ?_⟩
    rcases h with ⟨hz, ho⟩ | ⟨hz, vs, f, r, hvs, hf, hr, ho⟩
    · rw [if_pos hz, ho]
    · rw [if_neg hz, bind_eq_ok]
      refine ⟨vs, hvs, ?_⟩
      simp only [hf, bind_eq_ok, Except.ok.injEq]
      exact ⟨r, hr, ho.symm⟩

/-- An effect evaluates its address and its guard, and if the guard holds, runs its helper on the
values of its arguments. -/
theorem step_effect {e : Effect} :
    m.step (.effect e) = .next m' ↔
      ∃ addr g, m.EffectAddr e addr ∧ m.eval e.guard = .ok g ∧
        (g = 0 ∧ m' = m ∨ g ≠ 0 ∧ ∃ vs f r st, m.evalAll e.args = .ok vs ∧
          m.env.effect e.callee = some f ∧ f m.state vs addr = .ok (r, st) ∧
          m.AfterEffect e r st m') := by
  have hafter : ∀ r st, (match e.result with
      | none => Step.next { m with state := st }
      | some t => ({ m with state := st } : Machine).attempt
          (({ m with state := st } : Machine).define t r)) = .next m' ↔ m.AfterEffect e r st m' := by
    intro r st
    unfold AfterEffect
    cases e.result with
    | none => simp [withState, eq_comm]
    | some t => exact attempt_eq_next.trans define_eq_ok
  constructor
  · intro h
    simp only [step] at h
    cases hfire : m.fire e with
    | error f => simp [hfire] at h
    | ok o =>
      obtain ⟨addr, g, ha, hg, ho⟩ := fire_eq_ok.mp hfire
      refine ⟨addr, g, ha, hg, ?_⟩
      rcases ho with ⟨hz, rfl⟩ | ⟨hz, vs, f, ⟨r, st⟩, hvs, hf, hr, rfl⟩
      · simp only [hfire, Step.next.injEq] at h
        exact .inl ⟨hz, h.symm⟩
      · simp only [hfire] at h
        exact .inr ⟨hz, vs, f, r, st, hvs, hf, hr, (hafter r st).mp h⟩
  · intro h
    obtain ⟨addr, g, ha, hg, h⟩ := h
    rcases h with ⟨hz, rfl⟩ | ⟨hz, vs, f, r, st, hvs, hf, hr, h⟩
    · have hfire := fire_eq_ok.mpr ⟨addr, g, ha, hg, .inl ⟨hz, rfl⟩⟩
      simp only [step, hfire]
    · have hfire := fire_eq_ok.mpr ⟨addr, g, ha, hg, .inr ⟨hz, vs, f, (r, st), hvs, hf, hr, rfl⟩⟩
      simp only [step, hfire]
      exact (hafter r st).mpr h

theorem step_exit {guard : Expr} {kind : JumpKind} {dst : Const} :
    m.step (.exit guard kind dst) = .next m' ↔ m.eval guard = .ok 0 ∧ m' = m := by
  simp only [step]
  cases hg : m.eval guard with
  | error f => simp
  | ok g =>
    by_cases hz : g = 0
    · simp [hz, eq_comm]
    · simp [hz]

theorem step_missing : m.step .missing ≠ .next m' := by simp [step]

/-- Only an exit whose guard holds leaves the block. -/
theorem step_eq_leave {k : JumpKind} {dst : Const} :
    m.step s = .leave k dst ↔ ∃ guard g, s = .exit guard k dst ∧ m.eval guard = .ok g ∧ g ≠ 0 := by
  cases s with
  | missing => simp [step]
  | noop => simp [step]
  | mark => simp [step]
  | fence => simp [step]
  | assign => simp [step, attempt_ne_leave]
  | put => simp [step, attempt_ne_leave]
  | putIx => simp [step, attempt_ne_leave]
  | store => simp [step, attempt_ne_leave]
  | effect e =>
    simp only [step]
    cases m.fire e with
    | error f => simp
    | ok o =>
      cases o with
      | none => simp
      | some r => cases e.result <;> simp [attempt_ne_leave]
  | exit guard kind c =>
    simp only [step]
    cases hg : m.eval guard with
    | error f => simp [hg]
    | ok g =>
      by_cases hz : g = 0
      · simp [hz, hg]
      · simp only [hz, if_false, Step.leave.injEq, Stmt.exit.injEq]
        constructor
        · intro h
          exact ⟨guard, g, ⟨rfl, h.1, h.2⟩, hg, hz⟩
        · intro h
          obtain ⟨_, _, ⟨_, hk, hc⟩, _⟩ := h
          exact ⟨hk, hc⟩

/-! ## Steps in parallel -/

/-- On the other machine, `e'` has the value and the type that `e` has on this one. -/
def Carries (m m' : Machine) (e e' : Expr) : Prop :=
  (∀ v, m.eval e = .ok v → m'.eval e' = .ok v) ∧
    ∀ T, e.typeIn m.temps = .ok T → e'.typeIn m'.temps = .ok T

/-- Statements of the same form, in the same state and with operands of the same values, do the
same: they go on in the same state and define the same value. -/
theorem step_similar {R : Expr → Expr → Prop} {g : Temp → Temp} {s' : Stmt} {m₁ : Machine}
    (hs : s.Similar R g s') (hstate : m'.state = m.state) (henv : m'.env = m.env)
    (hR : ∀ e ∈ s.operands, ∀ e', R e e' → m.Carries m' e e')
    (hdef : ∀ t T, s.def? = some t → tempTy m.temps t = .ok T → tempTy m'.temps (g t) = .ok T)
    (h : m.step s = .next m₁) :
    ∃ st, m₁ = m.withState st ∧ m'.step s' = .next (m'.withState st) ∨
      ∃ t x, s.def? = some t ∧ m₁ = (m.withState st).set t x ∧
        m'.step s' = .next ((m'.withState st).set (g t) x) := by
  have hself : m'.withState m.state = m' := by rw [← hstate]; rfl
  cases s with
  | missing => exact absurd h step_missing
  | noop | mark | fence =>
    rw [show s' = _ from hs]
    exact ⟨m.state, .inl ⟨(Step.next.inj h).symm, by rw [hself]; rfl⟩⟩
  | assign dst src =>
    obtain ⟨src', rfl, hsrc⟩ := hs
    obtain ⟨v, T, hv, hT, rfl⟩ := step_assign.mp h
    have hv' := (hR src (by simp [Stmt.operands]) _ hsrc).1 v hv
    exact ⟨m.state, .inr ⟨dst, v &&& T.mask, rfl, rfl,
      step_assign.mpr ⟨v, T, hv', hdef dst T rfl hT, by rw [hself]⟩⟩⟩
  | put off data =>
    obtain ⟨data', rfl, hdata⟩ := hs
    obtain ⟨T, v, st, hT, hv, hst, rfl⟩ := step_put.mp h
    obtain ⟨hv', hT'⟩ := hR data (by simp [Stmt.operands]) _ hdata
    exact ⟨st, .inl ⟨rfl, step_put.mpr ⟨T, v, st, hT' T hT, hv' v hv, hstate ▸ hst, rfl⟩⟩⟩
  | putIx w ix bias data =>
    obtain ⟨ix', data', rfl, hix, hdata⟩ := hs
    obtain ⟨i, v, off, st, hi, hv, hoff, hst, rfl⟩ := step_putIx.mp h
    have hi' := (hR ix (by simp [Stmt.operands]) _ hix).1 i hi
    have hv' := (hR data (by simp [Stmt.operands]) _ hdata).1 v hv
    exact ⟨st, .inl ⟨rfl, step_putIx.mpr ⟨i, v, off, st, hi', hv', hoff, hstate ▸ hst, rfl⟩⟩⟩
  | store addr data =>
    obtain ⟨addr', data', rfl, haddr, hdata⟩ := hs
    obtain ⟨a, T, v, ha, hT, hv, rfl⟩ := step_store.mp h
    have ha' := (hR addr (by simp [Stmt.operands]) _ haddr).1 a ha
    obtain ⟨hv', hT'⟩ := hR data (by simp [Stmt.operands]) _ hdata
    exact ⟨_, .inl ⟨rfl, step_store.mpr ⟨a, T, v, ha', hT' T hT, hv' v hv, by rw [hstate]⟩⟩⟩
  | effect x =>
    obtain ⟨y, rfl, hy⟩ := hs
    obtain ⟨addr, g', haddr, hg, hrest⟩ := step_effect.mp h
    have htouch : y.touchesMem = x.touchesMem := by rw [Effect.touchesMem, hy.memTouch]; rfl
    have haddr' : m'.EffectAddr y addr := by
      have hmem := hy.memAddr
      unfold EffectAddr at haddr ⊢
      rw [htouch]
      by_cases ht : x.touchesMem = true
      · rw [if_pos ht] at haddr hmem ⊢
        exact (hR x.memAddr (by simp [Stmt.operands, Effect.operands, ht]) _ hmem).1 addr haddr
      · rw [if_neg ht] at haddr ⊢
        exact haddr
    have hg' := (hR x.guard (by simp [Stmt.operands, Effect.operands]) _ hy.guard).1 g' hg
    rcases hrest with ⟨hz, rfl⟩ | ⟨hz, vs, f, r, st, hvs, hf, hr, hafter⟩
    -- the guard is false on both machines, and nothing happens
    · exact ⟨m₁.state, .inl ⟨rfl, step_effect.mpr ⟨addr, g', haddr', hg', .inl ⟨hz, hself⟩⟩⟩⟩
    · have hvs' : m'.evalAll y.args = .ok vs :=
        evalAll_eq_ok.mpr (values_similar hy.args
          (fun a ha a' haa => (hR a (by simp [Stmt.operands, Effect.operands, ha]) a' haa).1)
          (evalAll_eq_ok.mp hvs))
      -- the same helper runs on the same values in the same state, so only the result is left to place
      have hnext : ∀ m₂, m'.AfterEffect y r st m₂ → m'.step (.effect y) = .next m₂ := fun m₂ h₂ =>
        step_effect.mpr ⟨addr, g', haddr', hg', .inr ⟨hz, vs, f, r, st, hvs', by
          rw [henv, hy.callee, hf], by rw [hstate, hr], h₂⟩⟩
      unfold AfterEffect at hafter
      cases hres : x.result with
      | none =>
        simp only [hres] at hafter
        refine ⟨st, .inl ⟨hafter, hnext _ ?_⟩⟩
        simp [AfterEffect, hy.result, hres]
      | some t =>
        simp only [hres] at hafter
        obtain ⟨T, hT, rfl⟩ := hafter
        refine ⟨st, .inr ⟨t, r &&& T.mask, hres, rfl, hnext _ ?_⟩⟩
        simp only [AfterEffect, hy.result, hres, Option.map_some]
        exact ⟨T, hdef t T hres hT, rfl⟩
  | exit guard kind dst =>
    obtain ⟨guard', rfl, hguard⟩ := hs
    obtain ⟨hg, rfl⟩ := step_exit.mp h
    have hg' := (hR guard (by simp [Stmt.operands]) _ hguard).1 0 hg
    exact ⟨m₁.state, .inl ⟨rfl, step_exit.mpr ⟨hg', hself⟩⟩⟩

/-- Statements of the same form with operands of the same values leave alike. -/
theorem leave_similar {R : Expr → Expr → Prop} {g : Temp → Temp} {s' : Stmt} {k : JumpKind}
    {dst : Const} (hs : s.Similar R g s')
    (hR : ∀ e ∈ s.operands, ∀ e', R e e' → ∀ v, m.eval e = .ok v → m'.eval e' = .ok v)
    (h : m.step s = .leave k dst) : m'.step s' = .leave k dst := by
  obtain ⟨guard, v, rfl, hv, hz⟩ := step_eq_leave.mp h
  obtain ⟨guard', rfl, hguard⟩ := hs
  exact step_eq_leave.mpr
    ⟨guard', v, rfl, hR guard (by simp [Stmt.operands]) _ hguard v hv, hz⟩

/-! ## What every step keeps -/

/-- A step changes the state, and the temporary that the statement defines, if it defines one. -/
theorem step_shape (h : m.step s = .next m') :
    ∃ st, m' = m.withState st ∨ ∃ t T v, s.def? = some t ∧ tempTy m.temps t = .ok T ∧
      m' = (m.withState st).set t (v &&& T.mask) := by
  cases s with
  | missing => exact absurd h step_missing
  | noop => exact ⟨m.state, .inl (Step.next.inj h).symm⟩
  | mark => exact ⟨m.state, .inl (Step.next.inj h).symm⟩
  | fence => exact ⟨m.state, .inl (Step.next.inj h).symm⟩
  | assign dst src =>
    obtain ⟨v, T, -, hT, rfl⟩ := step_assign.mp h
    exact ⟨m.state, .inr ⟨dst, T, v, rfl, hT, rfl⟩⟩
  | put off data =>
    obtain ⟨T, v, st, -, -, -, rfl⟩ := step_put.mp h
    exact ⟨st, .inl rfl⟩
  | putIx w ix bias data =>
    obtain ⟨i, v, off, st, -, -, -, -, rfl⟩ := step_putIx.mp h
    exact ⟨st, .inl rfl⟩
  | store addr data =>
    obtain ⟨a, T, v, -, -, -, rfl⟩ := step_store.mp h
    exact ⟨_, .inl rfl⟩
  | effect e =>
    obtain ⟨addr, g, -, -, hrest⟩ := step_effect.mp h
    rcases hrest with ⟨-, rfl⟩ | ⟨-, vs, f, r, st, -, -, -, hafter⟩
    · exact ⟨m'.state, .inl rfl⟩
    · unfold AfterEffect at hafter
      cases hr : e.result with
      | none =>
        simp only [hr] at hafter
        exact ⟨st, .inl hafter⟩
      | some t =>
        simp only [hr] at hafter
        obtain ⟨T, hT, hm'⟩ := hafter
        exact ⟨st, .inr ⟨t, T, r, hr, hT, hm'⟩⟩
  | exit guard kind dst =>
    obtain ⟨-, rfl⟩ := step_exit.mp h
    exact ⟨m'.state, .inl rfl⟩

theorem step_temps (h : m.step s = .next m') : m'.temps = m.temps := by
  obtain ⟨st, rfl | ⟨t, T, v, -, -, rfl⟩⟩ := step_shape h
  · rfl
  · rfl

theorem step_env (h : m.step s = .next m') : m'.env = m.env := by
  obtain ⟨st, rfl | ⟨t, T, v, -, -, rfl⟩⟩ := step_shape h
  · rfl
  · rfl

theorem step_vals (h : m.step s = .next m') {t : Temp} (ht : s.def? ≠ some t) :
    m'.vals t = m.vals t := by
  obtain ⟨st, rfl | ⟨u, T, v, hu, -, rfl⟩⟩ := step_shape h
  · rfl
  · have hne : t ≠ u := by
      intro heq
      exact ht (heq ▸ hu)
    exact set_vals_of_ne hne _

theorem step_valsFit (h : m.step s = .next m') (hm : m.ValsFit) : m'.ValsFit := by
  obtain ⟨st, rfl | ⟨t, T, v, -, hT, rfl⟩⟩ := step_shape h
  · exact hm
  · intro u x U hx hU
    by_cases hu : u = t
    · subst hu
      rw [set_vals_self, Option.some.injEq] at hx
      rw [set_temps, withState_temps, hT, Except.ok.injEq] at hU
      rw [← hx, ← hU]
      exact Ty.fits_and_mask _ _
    · rw [set_vals_of_ne hu] at hx
      exact hm u x U hx hU

/-- The defined temporaries are the ones listed. -/
def Scope (m : Machine) (defs : List Temp) : Prop := ∀ t, (∃ v, m.vals t = some v) ↔ t ∈ defs

/-- A statement that keeps the rules defines what it lists. -/
theorem step_scope {P : Policy} {defs : List Temp} (h : m.step s = .next m')
    (hs : s.Ok P m.temps defs) (hm : m.Scope defs) : m'.Scope (s.defsAfter defs) := by
  intro t
  rw [Stmt.mem_defsAfter]
  by_cases ht : s.def? = some t
  · -- the statement is an assignment, or an effect whose guard is the constant true
    simp only [ht, true_or, iff_true]
    cases s with
    | assign dst src =>
      obtain ⟨v, T, -, -, rfl⟩ := step_assign.mp h
      rw [Stmt.def?, Option.some.injEq] at ht
      subst ht
      exact ⟨_, set_vals_self _ _⟩
    | effect e =>
      obtain ⟨addr, g, -, hg, hrest⟩ := step_effect.mp h
      obtain ⟨c, hc, htrue⟩ := WellFormed.isTrueConst_iff.mp (hs.result t ht).1
      rw [hc, eval_const, Except.ok.injEq] at hg
      have hone : c.bits = 1 := by
        simp only [Const.isTrue, Bool.and_eq_true, beq_iff_eq] at htrue
        exact htrue.2
      rcases hrest with ⟨hz, -⟩ | ⟨-, vs, f, r, st, -, -, -, hafter⟩
      · rw [← hg, hone] at hz
        exact absurd hz (by decide)
      · have hr : e.result = some t := ht
        simp only [AfterEffect, hr] at hafter
        obtain ⟨T, -, rfl⟩ := hafter
        exact ⟨_, set_vals_self _ _⟩
    | _ => simp [Stmt.def?] at ht
  · rw [step_vals h ht, hm t]
    simp [ht]

/-- A machine in the middle of a typed block. -/
structure Sound (m : Machine) (defs : List Temp) : Prop where
  fit : m.ValsFit
  scope : m.Scope defs

theorem Sound.step {P : Policy} {defs : List Temp} (hm : m.Sound defs) (h : m.step s = .next m')
    (hs : s.Ok P m.temps defs) : m'.Sound (s.defsAfter defs) :=
  ⟨step_valsFit h hm.fit, step_scope h hs hm.scope⟩

/-- An atom that has a value keeps it. -/
theorem Sound.eval_atom_step {P : Policy} {defs : List Temp} {e : Expr} {v : UInt64}
    (hm : m.Sound defs) (h : m.step s = .next m') (hs : s.Ok P m.temps defs)
    (hatom : e.isAtom = true) (hv : m.eval e = .ok v) : m'.eval e = .ok v := by
  cases e with
  | tmp t =>
    obtain ⟨hT, hval⟩ := eval_tmp_eq_ok.mp hv
    have hdef : t ∈ defs := (hm.scope t).mp ⟨v, hval⟩
    rw [eval_tmp_eq_ok, step_temps h, step_vals h fun hd => (hs.of_def? hd).2 hdef]
    exact ⟨hT, hval⟩
  | const c => exact hv
  | _ => simp [Expr.isAtom] at hatom

/-- A defined temporary of a known type has a value. -/
theorem Sound.eval_tmp {P : Policy} {defs : List Temp} {t : Temp} {T : Ty} (hm : m.Sound defs)
    (ht : (Expr.tmp t).HasTy P m.temps defs T) : ∃ v, m.eval (.tmp t) = .ok v := by
  obtain ⟨v, hv⟩ := (hm.scope t).mpr ht.2
  exact ⟨v, eval_tmp_eq_ok.mpr ⟨⟨T, ht.1⟩, hv⟩⟩

/-- A typed atom has a value. -/
theorem Sound.eval_atom {P : Policy} {defs : List Temp} {e : Expr} {T : Ty} (hm : m.Sound defs)
    (hT : e.HasTy P m.temps defs T) (hatom : e.isAtom = true) : ∃ v, m.eval e = .ok v := by
  cases e with
  | tmp t => exact hm.eval_tmp hT
  | const c => exact ⟨c.bits, rfl⟩
  | _ => simp [Expr.isAtom] at hatom

/-- A temporary has the value that it was given, if that fits. -/
theorem eval_set_self {t : Temp} {T : Ty} {v : UInt64} (hT : tempTy m.temps t = .ok T)
    (hfits : T.Fits v) : (m.set t (v &&& T.mask)).eval (.tmp t) = .ok v := by
  rw [eval_tmp_eq_ok, set_vals_self, hfits]
  exact ⟨⟨T, hT⟩, rfl⟩

/-- The value of a defined atom survives a step. -/
theorem eval_atom_step {P : Policy} {defs : List Temp} {e : Expr} {T : Ty}
    (h : m.step s = .next m') (hs : s.Ok P m.temps defs) (hatom : e.isAtom = true)
    (hT : e.HasTy P m.temps defs T) : m'.eval e = m.eval e := by
  cases e with
  | tmp t =>
    have hvals : m'.vals t = m.vals t :=
      step_vals h fun hdef => (hs.of_def? hdef).2 hT.2
    simp only [eval, step_temps h, hvals]
  | const c => rfl
  | _ => simp [Expr.isAtom] at hatom

theorem step_regs (h : m.step s = .next m') (hs : s.mayWriteRegs = false) :
    m'.state.regs = m.state.regs := by
  cases s with
  | missing => exact absurd h step_missing
  | noop | mark | fence => rw [← Step.next.inj h]
  | assign dst src =>
    obtain ⟨v, T, -, -, rfl⟩ := step_assign.mp h
    rfl
  | store addr data =>
    obtain ⟨a, T, v, -, -, -, rfl⟩ := step_store.mp h
    exact State.regs_store _ _ _ _
  | exit guard kind dst =>
    obtain ⟨-, rfl⟩ := step_exit.mp h
    rfl
  | put | putIx | effect => simp [Stmt.mayWriteRegs] at hs

/-- A machine at the start of a block. -/
def start (temps : Array Ty) (env : Env) (s : State) : Machine := ⟨temps, env, fun _ => none, s⟩

theorem sound_start (temps : Array Ty) (env : Env) (s : State) : (start temps env s).Sound [] := by
  constructor
  · intro t v T hv
    simp [start] at hv
  · intro t
    simp [start]

end Machine

/-! ## Outcomes -/

/-- Where a run went and the state it left. -/
structure Outcome where
  target : UInt64
  kind : JumpKind
  state : State

/-- The outcome of a run that did not fail. -/
def Run.outcome? (r : Run) : Option Outcome :=
  match r.outcome with
  | .ok x => some ⟨x.target, x.kind, r.state⟩
  | .error _ => none

/-- The outcome of a block from a state, if its run does not fail. -/
def Block.ends (b : Block) (s : State) (env : Env) : Option Outcome := (b.run s env).outcome?

namespace Machine

/-- The outcome of statements and the jump behind them. -/
def finish (next : Expr) (kind : JumpKind) : List Stmt → Machine → Option Outcome
  | [], m =>
    match m.eval next with
    | .ok v => some ⟨v, kind, m.state⟩
    | .error _ => none
  | s :: ss, m =>
    match m.step s with
    | .next m' => finish next kind ss m'
    | .leave k dst => some ⟨dst.bits, k, m.state⟩
    | .fail _ _ => none

variable {m m' : Machine} {s : Stmt} {ss : List Stmt} {next : Expr} {kind : JumpKind}
  {out : Outcome}

theorem outcome?_run (next : Expr) (kind : JumpKind) (i : Nat) (ss : List Stmt) (m : Machine) :
    (Machine.run next kind i ss m).outcome? = finish next kind ss m := by
  induction ss generalizing i m with
  | nil =>
    simp only [Machine.run, finish, Run.outcome?]
    cases m.eval next <;> rfl
  | cons s ss ih =>
    simp only [Machine.run, finish]
    cases m.step s with
    | next m' => exact ih (i + 1) m'
    | leave k dst => rfl
    | fail f st => rfl

theorem finish_nil_eq_some :
    finish next kind [] m = some out ↔ ∃ v, m.eval next = .ok v ∧ out = ⟨v, kind, m.state⟩ := by
  simp only [finish]
  cases m.eval next <;> simp [eq_comm]

theorem finish_cons_eq_some :
    finish next kind (s :: ss) m = some out ↔
      (∃ m', m.step s = .next m' ∧ finish next kind ss m' = some out) ∨
        ∃ k dst, m.step s = .leave k dst ∧ out = ⟨dst.bits, k, m.state⟩ := by
  simp only [finish]
  cases m.step s <;> simp [eq_comm]

/-- The machine behind statements that all go on. -/
def exec : List Stmt → Machine → Option Machine
  | [], m => some m
  | s :: ss, m =>
    match m.step s with
    | .next m' => exec ss m'
    | _ => none

theorem exec_cons_eq_some :
    exec (s :: ss) m = some m' ↔ ∃ m₁, m.step s = .next m₁ ∧ exec ss m₁ = some m' := by
  rw [exec]
  cases m.step s <;> simp

theorem exec_append_eq_some {r : List Stmt} :
    exec (r ++ ss) m = some m' ↔ ∃ m₁, exec r m = some m₁ ∧ exec ss m₁ = some m' := by
  induction r generalizing m with
  | nil => simp [exec]
  | cons s r ih =>
    rw [List.cons_append, exec_cons_eq_some]
    simp only [ih, exec_cons_eq_some]
    constructor
    · intro h
      obtain ⟨m₁, hstep, m₂, hr, hss⟩ := h
      exact ⟨m₂, ⟨m₁, hstep, hr⟩, hss⟩
    · intro h
      obtain ⟨m₂, ⟨m₁, hstep, hr⟩, hss⟩ := h
      exact ⟨m₁, hstep, m₂, hr, hss⟩

/-- Statements that all go on leave the outcome to the rest. -/
theorem finish_append {r : List Stmt} (h : exec r m = some m') :
    finish next kind (r ++ ss) m = finish next kind ss m' := by
  induction r generalizing m with
  | nil =>
    rw [exec, Option.some.injEq] at h
    rw [h, List.nil_append]
  | cons s r ih =>
    obtain ⟨m₁, hstep, hr⟩ := exec_cons_eq_some.mp h
    rw [List.cons_append, finish, hstep]
    exact ih hr

/-- The outcome of statements that are left through an exit. -/
def left? : List Stmt → Machine → Option Outcome
  | [], _ => none
  | s :: ss, m =>
    match m.step s with
    | .next m' => left? ss m'
    | .leave k dst => some ⟨dst.bits, k, m.state⟩
    | .fail _ _ => none

/-- Statements are left through an exit, or the rest decides. -/
theorem finish_append_eq_some {r : List Stmt} :
    finish next kind (r ++ ss) m = some out ↔
      left? r m = some out ∨ ∃ m', exec r m = some m' ∧ finish next kind ss m' = some out := by
  induction r generalizing m with
  | nil => simp [left?, exec]
  | cons s r ih =>
    rw [List.cons_append, finish, left?, exec]
    cases m.step s with
    | next m' => exact ih
    | leave k dst => simp
    | fail f st => simp

/-- Statements that all go on leave the run to the rest, which keeps its numbers. -/
theorem run_append {r : List Stmt} (h : exec r m = some m') (i : Nat) :
    Machine.run next kind i (r ++ ss) m = Machine.run next kind (i + r.length) ss m' := by
  induction r generalizing m i with
  | nil =>
    rw [exec, Option.some.injEq] at h
    rw [h]
    rfl
  | cons s r ih =>
    obtain ⟨m₁, hstep, hr⟩ := exec_cons_eq_some.mp h
    rw [List.cons_append, Machine.run, hstep, List.length_cons, Nat.add_comm r.length,
      ← Nat.add_assoc]
    exact ih hr (i + 1)

/-- A run that is left through an exit among the first statements tells which one it was. -/
theorem run_append_of_left {r : List Stmt} (h : left? r m = some out) (next : Expr)
    (kind : JumpKind) (i : Nat) (ss : List Stmt) :
    ∃ q, i ≤ q ∧ q < i + r.length ∧ Machine.run next kind i (r ++ ss) m =
      ⟨.ok ⟨out.target, out.kind, some q⟩, out.state⟩ := by
  induction r generalizing m i with
  | nil => simp [left?] at h
  | cons s r ih =>
    rw [left?] at h
    rw [List.cons_append, Machine.run, List.length_cons]
    cases hstep : m.step s with
    | next m₁ =>
      obtain ⟨q, hlo, hhi, hrun⟩ := ih (by simpa [hstep] using h) (i + 1)
      exact ⟨q, by omega, by omega, hrun⟩
    | leave k dst =>
      simp only [hstep, Option.some.injEq] at h
      exact ⟨i, le_rfl, by omega, by rw [← h]⟩
    | fail f st => simp [hstep] at h

/-- The number of the exit taken is that of an exit statement, which names where the run went. -/
theorem exists_exit_of_run {i q : Nat} {x : Result}
    (h : (Machine.run next kind i ss m).outcome = .ok x) (hq : x.exit = some q) :
    i ≤ q ∧ ∃ guard dst, ss[q - i]? = some (.exit guard x.kind dst) ∧ x.target = dst.bits := by
  induction ss generalizing m i with
  | nil =>
    rw [Machine.run] at h
    cases hv : m.eval next with
    | error f => simp [hv, Except.map] at h
    | ok v =>
      simp only [hv, Except.map, Except.ok.injEq] at h
      rw [← h] at hq
      cases hq
  | cons s ss ih =>
    rw [Machine.run] at h
    cases hstep : m.step s with
    | next m₁ =>
      rw [hstep] at h
      obtain ⟨hle, guard, dst, hget, htarget⟩ := ih h
      have hindex : q - i = q - (i + 1) + 1 := by omega
      refine ⟨by omega, guard, dst, ?_, htarget⟩
      rw [hindex, List.getElem?_cons_succ]
      exact hget
    | leave k dst =>
      simp only [hstep, Except.ok.injEq] at h
      subst h
      obtain ⟨guard, g, rfl, -⟩ := step_eq_leave.mp hstep
      obtain rfl := Option.some.inj hq
      exact ⟨le_rfl, guard, dst, by simp, rfl⟩
    | fail f st => simp [hstep] at h

theorem exec_temps (h : exec ss m = some m') : m'.temps = m.temps ∧ m'.env = m.env := by
  induction ss generalizing m with
  | nil =>
    rw [exec, Option.some.injEq] at h
    exact h ▸ ⟨rfl, rfl⟩
  | cons s ss ih =>
    obtain ⟨m₁, hstep, hrest⟩ := exec_cons_eq_some.mp h
    obtain ⟨htemps, henv⟩ := ih hrest
    exact ⟨htemps.trans (step_temps hstep), henv.trans (step_env hstep)⟩

/-- Going on through statements that keep the rules keeps a machine sound, and the values of atoms. -/
theorem Sound.exec {P : Policy} {defs : List Temp} (hm : m.Sound defs)
    (hss : Stmt.AllOk P m.temps defs ss) (h : exec ss m = some m') :
    m'.Sound (Stmt.defsAfterAll ss defs) ∧
      ∀ e v, Expr.isAtom e = true → m.eval e = .ok v → m'.eval e = .ok v := by
  induction ss generalizing m defs with
  | nil =>
    rw [Machine.exec, Option.some.injEq] at h
    subst h
    exact ⟨hm, fun _ _ _ hv => hv⟩
  | cons s ss ih =>
    obtain ⟨m₁, hstep, hrest⟩ := exec_cons_eq_some.mp h
    have hss' : Stmt.AllOk P m₁.temps (s.defsAfter defs) ss := step_temps hstep ▸ hss.2
    obtain ⟨hsound, hatom⟩ := ih (hm.step hstep hss.1) hss' hrest
    exact ⟨hsound, fun e v he hv => hatom e v he (hm.eval_atom_step hstep hss.1 he hv)⟩

end Machine

theorem Block.ends_eq (b : Block) (s : State) (env : Env) :
    b.ends s env = Machine.finish b.next b.kind b.stmts (.start b.temps env s) :=
  Machine.outcome?_run _ _ _ _ _

/-! ## Refinement -/

namespace Block

/-- In the environment, every outcome of `b` is an outcome of `r`. -/
def RefinedBy (env : Env) (b r : Block) : Prop :=
  ∀ s out, b.ends s env = some out → r.ends s env = some out

theorem RefinedBy.refl (env : Env) (b : Block) : b.RefinedBy env b := fun _ _ => id

theorem RefinedBy.trans {env : Env} {a b c : Block} (hab : a.RefinedBy env b)
    (hbc : b.RefinedBy env c) : a.RefinedBy env c := fun s out h => hbc s out (hab s out h)

/-- `r` keeps the rules, is flat if `b` is, and its successor is as good as that of `b`. -/
structure Keeps (P : Policy) (b r : Block) : Prop where
  typed : r.Typed P
  flat : b.Flat → r.Flat
  fits : r.NextFits ↔ b.NextFits

end Block
end Straightline
