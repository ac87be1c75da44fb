import Mathlib
import Straightline.Proofs.Stepping
import Straightline.Proofs.Windows

/-!
# Type soundness

A well-formed block runs to its end on every state that suits it: one whose register file holds
every byte the block may read or write, in an environment whose helpers answer the block's calls.

The argument is the usual one, statement by statement. What suits a block is the policy
`Policy.fits`; under it every typed expression has a value (`Sound.progress`), every statement goes
on or leaves, and going on keeps the machine sound and the size of its register file
(`Sound.step_progress`).
-/

namespace Straightline

/-- The policy of blocks that run in `env` on a register file of `n` bytes: accesses lie in the
file, helpers are known and total, and effects keep the size of the file. -/
def Policy.fits (env : Env) (n : Nat) : Policy where
  slot off ty := off.toInt + ty.bytes ≤ n
  window w _ := w.stop ≤ n
  helper callee _ tys :=
    ∃ f, env.helper callee = some f ∧ ∀ vs, vs.length = tys.length → ∃ r, f vs = .ok r
  effect callee k _ :=
    ∃ f, env.effect callee = some f ∧ ∀ s vs addr, s.regs.size = n → vs.length = k →
      ∃ r s', f s vs addr = .ok (r, s') ∧ s'.regs.size = n
  exit _ := True

namespace Machine

variable {m m' : Machine} {defs : List Temp} {n : Nat} {T : Ty} {e : Expr} {s : Stmt}

/-- A sound machine whose register file has `n` bytes, which fit a word. -/
structure Ready (m : Machine) (defs : List Temp) (n : Nat) : Prop extends m.Sound defs where
  size : m.state.regs.size = n
  bound : n < 2 ^ 63

theorem Ready.exists_readReg (hm : m.Ready defs n) {off : Int64} (h0 : 0 ≤ off.toInt)
    (h : off.toInt + T.bytes ≤ n) : ∃ v, m.state.readReg off T = .ok v := by
  have hsize := hm.size
  have hbound := hm.bound
  exact State.exists_readReg h0 (by omega) (by omega)

theorem Ready.exists_writeReg (hm : m.Ready defs n) {off : Int64} (h0 : 0 ≤ off.toInt)
    (h : off.toInt + T.bytes ≤ n) (v : UInt64) : ∃ st, m.state.writeReg off T v = .ok st := by
  have hsize := hm.size
  have hbound := hm.bound
  exact State.exists_writeReg h0 (by omega) (by omega)

/-- An element of a window in the file lies in the file. -/
theorem Ready.element_bounds (hm : m.Ready defs n) {w : Window} (hw : w.Proper) (hn : w.stop ≤ n)
    (i : UInt64) (bias : Int64) :
    ∃ off, w.offset? (index i) bias = some off ∧ 0 ≤ off.toInt ∧ off.toInt + w.elem.bytes ≤ n := by
  have hbound := hm.bound
  have hbase := hw.base_nonneg
  have hun : w.Unwrapped := by
    unfold Window.Unwrapped
    omega
  obtain ⟨off, hoff, -⟩ := Window.offset?_eq hw hun (index i) bias
  have hin := Window.offset?_bounds hw hun hoff
  exact ⟨off, hoff, by omega, by omega⟩

/-! ## Expressions -/

/-- A typed expression has a value. -/
theorem Ready.progress (hm : m.Ready defs n) (h : e.HasTy (.fits m.env n) m.temps defs T) :
    ∃ v, m.eval e = .ok v := by
  induction e generalizing T with
  | missing => exact h.elim
  | tmp t => exact hm.eval_tmp h
  | const c => exact ⟨c.bits, eval_const c⟩
  | get off ty =>
    obtain ⟨-, hoff, -, hslot⟩ := h
    exact hm.exists_readReg (Int64.le_iff_toInt_le.mp hoff) hslot
  | getIx w ix bias ih =>
    obtain ⟨-, hw, hwin, hix⟩ := h
    obtain ⟨i, hi⟩ := ih hix
    obtain ⟨off, hoff, h0, hn⟩ := hm.element_bounds hw hwin i bias
    obtain ⟨v, hv⟩ := hm.exists_readReg h0 hn
    exact ⟨v, eval_getIx_eq_ok.mpr ⟨i, off, hi, hoff, hv⟩⟩
  | unop op a ih =>
    obtain ⟨x, hx⟩ := ih h.2.2
    obtain ⟨r, hr⟩ := Op.exists_apply1 h.2.1 x
    exact ⟨_, eval_unop_eq_ok.mpr ⟨x, r, hx, hr, rfl⟩⟩
  | binop op a b iha ihb =>
    obtain ⟨x, hx⟩ := iha h.2.2.1
    obtain ⟨y, hy⟩ := ihb h.2.2.2
    obtain ⟨r, hr⟩ := Op.exists_apply2 h.2.1 x y
    exact ⟨_, eval_binop_eq_ok.mpr ⟨x, y, r, hx, hy, hr, rfl⟩⟩
  | load ty a ih =>
    obtain ⟨x, hx⟩ : ∃ x, m.eval a = .ok x := h.2.2.elim ih ih
    exact ⟨_, eval_load_eq_ok.mpr ⟨x, hx, rfl⟩⟩
  | call callee ty args ih =>
    obtain ⟨-, -, -, tys, htys, f, hf, htotal⟩ := h
    obtain ⟨vs, hvs⟩ := exists_values fun a ha => by
      obtain ⟨U, hU⟩ := htys.exists_of_mem ha
      exact ih a ha hU
    obtain ⟨r, hr⟩ := htotal vs (by rw [← hvs.length_eq, htys.length_eq])
    exact ⟨_, eval_call_eq_ok.mpr ⟨vs, f, r, hvs, hf, hr, rfl⟩⟩
  | select c z x ihc ihz ihx =>
    obtain ⟨vc, hc⟩ := ihc h.1
    obtain ⟨vz, hz⟩ := ihz h.2.1
    obtain ⟨vx, hx⟩ := ihx h.2.2
    exact ⟨_, eval_select_eq_ok.mpr ⟨vc, vz, vx, hc, hz, hx, rfl⟩⟩

/-! ## Statements -/

/-- The address of a declared memory touch has a value. -/
theorem Ready.exists_effectAddr (hm : m.Ready defs n) {x : Effect}
    (h : x.Ok (.fits m.env n) m.temps defs) : ∃ addr, m.EffectAddr x addr := by
  unfold EffectAddr
  by_cases htouch : x.touchesMem = true
  · obtain ⟨U, hU⟩ := Stmt.Ok.operand (s := .effect x) h (e := x.memAddr)
      (by simp [Stmt.operands, Effect.operands, htouch])
    simpa [htouch] using hm.progress hU
  · exact ⟨0, by simp [htouch]⟩

/-- An effect goes on, with a register file of the same size. -/
theorem Ready.step_effect_progress (hm : m.Ready defs n) {x : Effect}
    (h : x.Ok (.fits m.env n) m.temps defs) :
    ∃ m', m.step (.effect x) = .next m' ∧ m'.state.regs.size = n := by
  obtain ⟨addr, haddr⟩ := hm.exists_effectAddr h
  obtain ⟨g, hg⟩ := hm.progress h.guard
  by_cases hz : g = 0
  · exact ⟨m, step_effect.mpr ⟨addr, g, haddr, hg, .inl ⟨hz, rfl⟩⟩, hm.size⟩
  · obtain ⟨vs, hvs⟩ := exists_values fun a ha => by
      obtain ⟨U, hU⟩ := h.args a ha
      exact hm.progress hU
    obtain ⟨f, hf, htotal⟩ := h.policy
    obtain ⟨r, st, hr, hsize⟩ := htotal m.state vs addr hm.size hvs.length_eq.symm
    have hnext : ∀ m', m.AfterEffect x r st m' → m.step (.effect x) = .next m' := fun m' hafter =>
      step_effect.mpr ⟨addr, g, haddr, hg, .inr ⟨hz, vs, f, r, st, evalAll_eq_ok.mpr hvs, hf, hr,
        hafter⟩⟩
    cases hres : x.result with
    | none => exact ⟨m.withState st, hnext _ (by simp [AfterEffect, hres]), hsize⟩
    | some t =>
      obtain ⟨-, ⟨T, hT⟩, -⟩ := h.result t hres
      exact ⟨(m.withState st).set t (r &&& T.mask), hnext _ (by simp [AfterEffect, hres, hT]), hsize⟩

/-- A statement that keeps the rules goes on, with a register file of the same size, or leaves. -/
theorem Ready.step_progress (hm : m.Ready defs n) (h : s.Ok (.fits m.env n) m.temps defs) :
    (∃ m', m.step s = .next m' ∧ m'.state.regs.size = n) ∨ ∃ k dst, m.step s = .leave k dst := by
  cases s with
  | missing => exact h.elim
  | noop | mark | fence => exact .inl ⟨m, rfl, hm.size⟩
  | assign dst src =>
    obtain ⟨T, hsrc, hdst, -⟩ := h
    obtain ⟨v, hv⟩ := hm.progress hsrc
    exact .inl ⟨_, step_assign.mpr ⟨v, T, hv, hdst, rfl⟩, hm.size⟩
  | put off data =>
    obtain ⟨hoff, T, hdata, hslot⟩ := h
    obtain ⟨v, hv⟩ := hm.progress hdata
    obtain ⟨st, hst⟩ := hm.exists_writeReg (Int64.le_iff_toInt_le.mp hoff) hslot v
    exact .inl ⟨_, step_put.mpr ⟨T, v, st, hdata.typeIn, hv, hst, rfl⟩,
      (State.size_writeReg hst).trans hm.size⟩
  | putIx w ix bias data =>
    obtain ⟨hw, hwin, hix, hdata⟩ := h
    obtain ⟨i, hi⟩ := hm.progress hix
    obtain ⟨v, hv⟩ := hm.progress hdata
    obtain ⟨off, hoff, h0, hn⟩ := hm.element_bounds hw hwin i bias
    obtain ⟨st, hst⟩ := hm.exists_writeReg h0 hn v
    exact .inl ⟨_, step_putIx.mpr ⟨i, v, off, st, hi, hv, hoff, hst, rfl⟩,
      (State.size_writeReg hst).trans hm.size⟩
  | store addr data =>
    obtain ⟨haddr, T, hdata⟩ := h
    obtain ⟨a, ha⟩ : ∃ a, m.eval addr = .ok a := haddr.elim hm.progress hm.progress
    obtain ⟨v, hv⟩ := hm.progress hdata
    exact .inl ⟨_, step_store.mpr ⟨a, T, v, ha, hdata.typeIn, hv, rfl⟩, by simp [hm.size]⟩
  | effect x => exact .inl (hm.step_effect_progress h)
  | exit guard kind dst =>
    obtain ⟨g, hg⟩ := hm.progress h.1
    by_cases hz : g = 0
    · exact .inl ⟨m, step_exit.mpr ⟨hz ▸ hg, rfl⟩, hm.size⟩
    · exact .inr ⟨kind, dst, step_eq_leave.mpr ⟨guard, g, rfl, hg, hz⟩⟩

/-- Going on keeps a machine ready. -/
theorem Ready.step (hm : m.Ready defs n) (h : s.Ok (.fits m.env n) m.temps defs)
    (hstep : m.step s = .next m') : m'.Ready (s.defsAfter defs) n := by
  refine ⟨hm.toSound.step hstep h, ?_, hm.bound⟩
  rcases hm.step_progress h with ⟨m'', hm'', hsize⟩ | ⟨k, dst, hleave⟩
  · rw [hstep, Step.next.injEq] at hm''
    rwa [hm'']
  · rw [hstep] at hleave
    simp at hleave

/-! ## Runs -/

/-- Going on through statements keeps a machine ready. -/
theorem Ready.exec {ss : List Stmt} (hm : m.Ready defs n)
    (h : Stmt.AllOk (.fits m.env n) m.temps defs ss) (hexec : exec ss m = some m') :
    m'.Ready (Stmt.defsAfterAll ss defs) n ∧ m'.temps = m.temps ∧ m'.env = m.env := by
  induction ss generalizing m defs with
  | nil =>
    rw [Machine.exec, Option.some.injEq] at hexec
    subst hexec
    exact ⟨hm, rfl, rfl⟩
  | cons s ss ih =>
    obtain ⟨m₁, hstep, hrest⟩ := exec_cons_eq_some.mp hexec
    have htemps := step_temps hstep
    have henv := step_env hstep
    obtain ⟨hready, htemps', henv'⟩ := ih (hm.step h.1 hstep) (by rw [htemps, henv]; exact h.2) hrest
    exact ⟨hready, htemps'.trans htemps, henv'.trans henv⟩

/-- Statements that keep the rules and a typed successor have an outcome. -/
theorem Ready.finish_progress {ss : List Stmt} {next : Expr} (kind : JumpKind)
    (hm : m.Ready defs n) (h : Stmt.AllOk (.fits m.env n) m.temps defs ss)
    (hnext : ∀ m' : Machine, m'.temps = m.temps → m'.env = m.env →
      m'.Ready (Stmt.defsAfterAll ss defs) n → ∃ v, m'.eval next = .ok v) :
    ∃ out, finish next kind ss m = some out := by
  induction ss generalizing m defs with
  | nil =>
    obtain ⟨v, hv⟩ := hnext m rfl rfl hm
    exact ⟨_, finish_nil_eq_some.mpr ⟨v, hv, rfl⟩⟩
  | cons s ss ih =>
    rcases hm.step_progress h.1 with ⟨m₁, hstep, -⟩ | ⟨k, dst, hleave⟩
    · have htemps := step_temps hstep
      have henv := step_env hstep
      obtain ⟨out, hout⟩ := ih (hm.step h.1 hstep) (by rw [htemps, henv]; exact h.2)
        fun m' ht he hr => hnext m' (ht.trans htemps) (he.trans henv) hr
      exact ⟨out, finish_cons_eq_some.mpr (.inl ⟨m₁, hstep, hout⟩)⟩
    · exact ⟨_, finish_cons_eq_some.mpr (.inr ⟨k, dst, hleave, rfl⟩)⟩

end Machine

/-! ## Blocks -/

namespace Block

/-- The nodes of all expressions of the block. -/
def nodes (b : Block) : List Expr := b.stmts.flatMap Stmt.nodes ++ b.next.nodes

/-- The block can run in `env` on a register file of `n` bytes: the ranges of its reads and writes
and the bounds of its windows lie in the file, and its helpers and effects are known and answer
every call of their arity, effects with a file of the same size. -/
structure Suits (b : Block) (env : Env) (n : Nat) : Prop where
  get : ∀ (off : Int64) (ty : Ty), .get off ty ∈ b.nodes → off.toInt + ty.bytes ≤ n
  getIx : ∀ (w : Window) ix bias, .getIx w ix bias ∈ b.nodes → w.stop ≤ n
  put : ∀ (off : Int64) (data : Expr) (T : Ty), .put off data ∈ b.stmts →
    data.typeIn b.temps = .ok T → off.toInt + T.bytes ≤ n
  putIx : ∀ (w : Window) ix bias data, .putIx w ix bias data ∈ b.stmts → w.stop ≤ n
  call : ∀ callee ty args, .call callee ty args ∈ b.nodes →
    ∃ f, env.helper callee = some f ∧ ∀ vs, vs.length = args.length → ∃ r, f vs = .ok r
  effect : ∀ e, .effect e ∈ b.stmts →
    ∃ f, env.effect e.callee = some f ∧ ∀ s vs addr, s.regs.size = n → vs.length = e.args.length →
      ∃ r s', f s vs addr = .ok (r, s') ∧ s'.regs.size = n

variable {b : Block} {env : Env} {n : Nat} {s : Stmt} {e : Expr}

theorem mem_nodes_of_stmt (hs : s ∈ b.stmts) (he : e ∈ s.nodes) : e ∈ b.nodes :=
  List.mem_append_left _ (List.mem_flatMap.mpr ⟨s, hs, he⟩)

theorem mem_nodes_of_next (he : e ∈ b.next.nodes) : e ∈ b.nodes := List.mem_append_right _ he

theorem Suits.allows (h : b.Suits env n) (he : e ∈ b.nodes) :
    (Policy.fits env n).Allows b.temps e := by
  cases e with
  | get off ty => exact h.get off ty he
  | getIx w ix bias => exact h.getIx w ix bias he
  | call callee ty args =>
    obtain ⟨f, hf, htotal⟩ := h.call callee ty args he
    intro tys htys
    exact ⟨f, hf, fun vs hvs => htotal vs (hvs.trans htys.length_eq.symm)⟩
  | _ => trivial

theorem Suits.allowsStmt (h : b.Suits env n) (hs : s ∈ b.stmts) :
    (Policy.fits env n).AllowsStmt b.temps s := by
  cases s with
  | put off data => exact fun T hT => h.put off data T hs hT
  | putIx w ix bias data => exact h.putIx w ix bias data hs
  | effect e => exact h.effect e hs
  | _ => trivial

/-- A well-formed block keeps the policy of the states that suit it. -/
theorem Typed.of_suits (hb : b.Typed .any) (h : b.Suits env n) : b.Typed (.fits env n) :=
  hb.of_allows (fun _ hs => ⟨h.allowsStmt hs, fun _ he => h.allows (mem_nodes_of_stmt hs he)⟩)
    (fun _ he => h.allows (mem_nodes_of_next he)) fun _ _ => trivial

/-- A successor that keeps the rules has a value behind the statements. -/
theorem Typed.exists_next {m : Machine} (hb : b.Typed (.fits env n)) (htemps : m.temps = b.temps)
    (henv : m.env = env) (hm : m.Ready (Stmt.defsAfterAll b.stmts []) n) :
    ∃ v, m.eval b.next = .ok v := by
  subst henv
  rcases hb.next with haddr | ⟨c, hc, -⟩
  · rw [← htemps] at haddr
    exact haddr.elim hm.progress hm.progress
  · rw [hc]
    exact ⟨_, Machine.eval_const c⟩

/-- A block that keeps the policy has an outcome. -/
theorem Typed.exists_ends {s : State} (hb : b.Typed (.fits env n)) (hsize : s.regs.size = n)
    (hn : n < 2 ^ 63) : ∃ out, b.ends s env = some out := by
  rw [ends_eq]
  have hready : (Machine.start b.temps env s).Ready [] n :=
    ⟨Machine.sound_start b.temps env s, hsize, hn⟩
  exact hready.finish_progress b.kind hb.stmts fun m ht he hm => hb.exists_next ht he hm

theorem exists_outcome {s : State} {out : Outcome} (h : b.ends s env = some out) :
    ∃ r, (b.run s env).outcome = .ok r := by
  unfold ends Run.outcome? at h
  cases hr : (b.run s env).outcome with
  | ok r => exact ⟨r, rfl⟩
  | error f => simp [hr] at h

end Block

/-- The expression has a value, and the value has no bit outside the mask of the type that the
checker finds for it. -/
def Machine.HasCheckedValue (m : Machine) (defs : List Temp) (e : Expr) : Prop :=
  ∃ T v, WellFormed.checkExpr m.temps defs e = .ok T ∧ m.eval e = .ok v ∧ v &&& ~~~T.mask = 0

theorem Machine.Ready.hasCheckedValue {m : Machine} {defs : List Temp} {n : Nat} {e e' : Expr}
    {T : Ty} (hm : m.Ready defs n) (he : e.HasTy (.fits m.env n) m.temps defs T)
    (hn : e' ∈ e.nodes) : m.HasCheckedValue defs e' := by
  obtain ⟨U, hU⟩ := he.node hn
  obtain ⟨v, hv⟩ := hm.progress hU
  refine ⟨U, v, ?_, hv, Ty.fits_iff_and_compl.mp (eval_fits hm.fit hU hv)⟩
  exact WellFormed.checkExpr_eq_ok.mpr (hU.mono (.any _) (fun _ _ => id) (List.Subset.refl _))

/-- A well-formed block runs to an outcome from every state that suits it. Behind any statements of
the run, every expression of the next statement, and at the end every one of the successor, has a
value that fits the type the checker gives it. -/
theorem checked_block_runs {b : Block} {env : Env} {s : State} (hb : b.check false = .ok ())
    (hfit : b.Suits env s.regs.size) (hword : s.regs.size < 2 ^ 63) :
    (∃ r, (b.run s env).outcome = .ok r) ∧
      (∀ pre stmt post m, b.stmts = pre ++ stmt :: post →
        Machine.exec pre (.start b.temps env s) = some m →
        ∀ e ∈ stmt.nodes, m.HasCheckedValue (Stmt.defsAfterAll pre []) e) ∧
      ∀ m, Machine.exec b.stmts (.start b.temps env s) = some m →
        ∀ e ∈ b.next.nodes, m.HasCheckedValue (Stmt.defsAfterAll b.stmts []) e := by
  obtain ⟨hany, hnext, -⟩ := Block.check_eq_ok_iff.mp hb
  have htyped := hany.of_suits hfit
  have hstart : (Machine.start b.temps env s).Ready [] s.regs.size :=
    ⟨Machine.sound_start b.temps env s, rfl, hword⟩
  refine ⟨?_, ?_, ?_⟩
  · obtain ⟨out, hout⟩ := htyped.exists_ends rfl hword
    exact Block.exists_outcome hout
  · intro pre stmt post m hsplit hexec e he
    have hall := htyped.stmts
    rw [hsplit, Stmt.allOk_append] at hall
    obtain ⟨hready, htemps, henv⟩ := hstart.exec hall.1 hexec
    obtain ⟨e₀, he₀, hn⟩ := List.mem_flatMap.mp he
    obtain ⟨T, hT⟩ := hall.2.1.operand he₀
    have henv' : m.env = env := henv
    have htemps' : m.temps = b.temps := htemps
    rw [← henv', ← htemps'] at hT
    exact hready.hasCheckedValue hT hn
  · intro m hexec e he
    obtain ⟨hready, htemps, henv⟩ := hstart.exec htyped.stmts hexec
    have henv' : m.env = env := henv
    have htemps' : m.temps = b.temps := htemps
    have haddr := htyped.next.isAddress hnext
    rw [Expr.IsAddress, ← henv', ← htemps'] at haddr
    rcases haddr with hT | hT
    · exact hready.hasCheckedValue hT he
    · exact hready.hasCheckedValue hT he

/-- Bumps the second of two words with a helper, writes it back, reports it and may leave. -/
def Block.bump : Block where
  temps := #[.i32, .i32]
  stmts := [.assign 0 (.getIx ⟨0, .i32, 2⟩ (.const ⟨.u32, 3⟩) 0),
    .assign 1 (.call "inc" .i32 [.tmp 0]), .put 4 (.tmp 1),
    .effect ⟨"report", .const ⟨.u1, 1⟩, [.tmp 1], none, .none, .missing, 0, []⟩,
    .exit (.const ⟨.u1, 0⟩) .boring ⟨.u32, 16⟩]
  next := .const ⟨.u32, 32⟩
  kind := .boring

/-- Helpers that add one and effects that do nothing. -/
def Env.bump : Env where
  helper := fun _ => some fun vs => .ok (vs.headD 0 + 1)
  effect := fun _ => some fun s _ _ => .ok (0, s)

theorem Block.bump_suits : Block.bump.Suits .bump 8 := by
  have hnodes : Block.bump.nodes = [.getIx ⟨0, .i32, 2⟩ (.const ⟨.u32, 3⟩) 0, .const ⟨.u32, 3⟩,
      .call "inc" .i32 [.tmp 0], .tmp 0, .tmp 1, .const ⟨.u1, 1⟩, .tmp 1, .const ⟨.u1, 0⟩,
      .const ⟨.u32, 32⟩] := rfl
  constructor
  · simp [hnodes]
  · intro w ix bias h
    simp only [hnodes, List.mem_cons, Expr.getIx.injEq, reduceCtorEq, or_false,
      List.not_mem_nil] at h
    rw [h.1]
    decide
  · intro off data T h hT
    simp only [Block.bump, List.mem_cons, Stmt.put.injEq, reduceCtorEq, false_or, or_false,
      List.not_mem_nil] at h
    rw [h.2] at hT
    rw [h.1, ← Except.ok.inj hT]
    decide
  · simp [Block.bump]
  · exact fun _ _ _ _ => ⟨_, rfl, fun vs _ => ⟨_, rfl⟩⟩
  · exact fun _ _ => ⟨_, rfl, fun s vs addr hs _ => ⟨_, s, rfl, hs⟩⟩

theorem checked_block_runs_bump :
    ∃ r, (Block.bump.run (.zero 8) .bump).outcome = .ok r :=
  (checked_block_runs (b := .bump) (s := .zero 8) rfl Block.bump_suits
    (by decide)).1

end Straightline
