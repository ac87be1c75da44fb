import Mathlib
import Straightline.Proofs.Generated
import Straightline.Proofs.Nesting
import Straightline.Proofs.Pipeline

/-!
# Optimized blocks mean what they were made from

Main statement: the optimizer returns a well-formed flat block for every well-formed block, and one
run of it is one run of the block, or several if a loop was unrolled, each coming back to the address
of the block but for the last (`optimized_block_condenses`). It is assumed of the block that its exit
targets and displacements are in range, and of the environment that effects do to registers what they
declare. Of the specializer something is assumed for the calls that can come up: what it offers for
them is typed, and has the value of the call if it has the type of the call.

Without the assumption about exit targets the optimizer still returns a block, but an exit target
that has become the successor may be too wide for its tag, and then the block is refused.
-/

namespace Straightline

/-! ## Policies of well-formed blocks -/

/-- Calls of pure helpers, by name, result type and argument types. -/
abbrev Signature := String → Ty → List Ty → Prop

/-- The policy of the data model, with calls of the signature. -/
def Policy.calling (calls : Signature) : Policy := { Policy.any with helper := calls }

/-- The same, with exit targets that fit their tags. -/
def Policy.targets (calls : Signature) : Policy :=
  { Policy.calling calls with exit := fun c => c.fits = true }

theorem Policy.targets_le (calls : Signature) : (targets calls).Le (calling calls) :=
  ⟨fun _ _ => id, fun _ _ => id, fun _ _ _ => id, fun _ _ _ => id, fun _ _ => trivial⟩

/-- The target of an exit. -/
def Stmt.exit? : Stmt → Option Const
  | .exit _ _ dst => some dst
  | _ => none

/-- Exit targets fit their tags. -/
def Block.ExitsFit (b : Block) : Prop :=
  ∀ guard kind dst, Stmt.exit guard kind dst ∈ b.stmts → dst.fits = true

instance (b : Block) : Decidable b.ExitsFit :=
  decidable_of_iff (∀ s ∈ b.stmts, ∀ dst ∈ s.exit?, Const.fits dst = true) <| by
    constructor
    · intro h guard kind dst hs
      exact h _ hs dst rfl
    · intro h s hs dst hdst
      cases s with
      | exit guard kind dst' =>
        obtain rfl := Option.some.inj hdst
        exact h guard kind dst' hs
      | _ => simp [Stmt.exit?] at hdst

/-- The calls of the block are of the signature. -/
def Block.Calls (b : Block) (calls : Signature) : Prop :=
  ∀ callee ty args tys, .call callee ty args ∈ b.nodes →
    List.Forall₂ (fun a T => Expr.typeIn b.temps a = .ok T) args tys → calls callee ty tys

theorem Block.calls_any (b : Block) : b.Calls fun _ _ _ => True := fun _ _ _ _ _ _ => trivial

namespace Block

variable {b : Block} {calls : Signature}

theorem Calls.allows {e : Expr} (h : b.Calls calls) (he : e ∈ b.nodes) :
    (Policy.calling calls).Allows b.temps e := by
  cases e with
  | call callee ty args => exact fun tys htys => h callee ty args tys he htys
  | _ => trivial

theorem Typed.calling (hb : b.Typed .any) (hcalls : b.Calls calls) : b.Typed (.calling calls) := by
  refine hb.of_allows ?_ (fun e he => hcalls.allows (mem_nodes_of_next he)) fun _ _ => trivial
  intro s hs
  refine ⟨?_, fun e he => hcalls.allows (mem_nodes_of_stmt hs he)⟩
  cases s with
  | put => exact fun _ _ => trivial
  | _ => trivial

theorem Typed.targets (hb : b.Typed .any) (hnext : b.NextFits) (hexits : b.ExitsFit)
    (hcalls : b.Calls calls) : b.Typed (.targets calls) := by
  refine hb.of_allows ?_ (fun e he => hcalls.allows (mem_nodes_of_next he)) hnext
  intro s hs
  refine ⟨?_, fun e he => hcalls.allows (mem_nodes_of_stmt hs he)⟩
  cases s with
  | exit guard kind dst => exact hexits guard kind dst hs
  | put => exact fun _ _ => trivial
  | _ => trivial

/-- A typed successor fits its tag if exit targets do. -/
theorem Typed.nextFits {P : Policy} (hb : b.Typed P)
    (hexit : ∀ c, P.exit c → Const.fits c = true) : b.NextFits := by
  intro c hc
  rcases hb.next with (h | h) | ⟨c', hc', -, h⟩
  · rw [hc] at h
    exact h.2.2
  · rw [hc] at h
    exact h.2.2
  · rw [hc, Expr.const.injEq] at hc'
    exact hc' ▸ hexit c' h

/-- A flat block that keeps the policy is well-formed. -/
theorem Typed.check_of_targets (hb : b.Typed (.targets calls)) (hflat : b.Flat) :
    b.check true = .ok () :=
  check_eq_ok_iff.mpr ⟨hb.mono (.any _), hb.nextFits fun _ => id, fun _ => hflat⟩

end Block

theorem Specializer.WellTyped.targets {sp : Specializer} {calls : Signature}
    (h : sp.WellTyped (.calling calls)) : sp.WellTyped (.targets calls) := by
  intro callee args x temps defs ty hx hargs hcall
  have hcall' := hcall.mono (Policy.targets_le calls) (fun _ _ => id) (List.Subset.refl _)
  obtain ⟨hnest, T, hT, hkeeps⟩ := h callee args x temps defs ty hx hargs hcall'
  refine ⟨hnest, T, hT, fun hty => (hkeeps hty).of_allows fun n hn => ?_⟩
  obtain ⟨U, hU⟩ := (hkeeps hty).node hn
  exact hU.allows

namespace Optimizer

variable {o : Optimizer} {b : Block} {addr : UInt64} {calls : Signature}

theorem admits_calling (h : o.specializer.WellTyped (.calling calls)) :
    o.Admits fun _ => .calling calls :=
  ⟨fun _ => .refl _, fun _ _ _ _ _ _ => trivial, fun _ _ _ => trivial, fun _ => h⟩

theorem admits_targets (h : o.specializer.WellTyped (.calling calls)) :
    o.Admits fun _ => .targets calls :=
  ⟨fun _ => .refl _, fun _ _ _ _ _ _ => trivial, fun _ _ hc => hc, fun _ => h.targets⟩

theorem level_nonneg (h : o.validate = .ok ()) : 0 ≤ o.level := by
  rw [validate] at h
  split at h
  · simp at h
  · rename_i hlevel
    exact Int64.not_lt.mp fun hneg => hlevel (.inl hneg)

/-- The optimizer returns a flat block, each run of which is some runs of the flat form of the
block, no more than the journal reports copies. -/
theorem optimize_returns {P : Nat → Policy} (hP : o.Admits P) (hvalid : o.validate = .ok ())
    (hb : b.Typed (P 0)) (hnest : b.NestsWithin Flat.maxDepth) (hroom : o.HasRoom b addr) :
    ∃ f r, b.flatten = .ok f ∧ (o.optimize b addr).result = .ok r ∧ r.Typed (P 2) ∧ r.Flat ∧
      o.IsFactor (o.optimize b addr).copies ∧
      ∀ env, o.Trusts P env → f.Condenses addr env (o.optimize b addr).copies r := by
  obtain ⟨f, hf, -, hflat, hkeeps, -⟩ := Block.flatten_spec hb hnest hroom.1
  obtain ⟨r, hr, htyped, hrflat, hruns⟩ := improve_returns hP hkeeps.typed hflat
    (level_nonneg hvalid) (fun h0 => (hroom.2 f hf h0).1) fun c hc h0 h1 => (hroom.2 f hf h0).2 c hc h1
  rw [copies_optimize hvalid hf]
  refine ⟨f, r, hf, ?_, htyped, hrflat, hruns⟩
  rw [result_optimize hvalid]
  exact Journaled.result_bind_eq_ok.mpr ⟨f, result_quiet_flat hf, hr⟩

/-- The result is well-formed if the exit targets of the block fit their tags. -/
theorem optimize_checked {r : Block} (hb : b.check false = .ok ())
    (hnest : b.NestsWithin Flat.maxDepth) (hexits : b.ExitsFit) (hvalid : o.validate = .ok ())
    (hcalls : b.Calls calls) (hspec : o.specializer.WellTyped (.calling calls))
    (hroom : o.HasRoom b addr) (hr : (o.optimize b addr).result = .ok r) :
    r.check true = .ok () := by
  obtain ⟨htyped, hnext, -⟩ := Block.check_eq_ok_iff.mp hb
  obtain ⟨f, r', -, hr', htyped', hflat, -⟩ := optimize_returns (admits_targets hspec) hvalid
    (htyped.targets hnext hexits hcalls) hnest hroom
  rw [hr, Except.ok.injEq] at hr'
  subst hr'
  exact htyped'.check_of_targets hflat

/-- Trees are prepared from every typed block. -/
theorem buildTrees_returns {r : Block} (hr : r.Typed .any) :
    ∃ t, (buildTrees r).result = .ok t := by
  obtain ⟨d, hd, hkeeps, -⟩ : r.Becomes .any (fun _ => True) (dead r) := becomes_dead hr
  obtain ⟨t, ht, -⟩ := Block.buildTrees_spec hkeeps.typed
  refine ⟨t, ?_⟩
  refine Journaled.result_bind_eq_ok.mpr ⟨(), rfl, Journaled.result_bind_eq_ok.mpr ⟨d, hd, ?_⟩⟩
  rw [quiet, result_stage]
  exact Journaled.result_silent_eq_ok.mpr ht

theorem translate_returns {r : Block} (hb : b.check false = .ok ())
    (hr : (o.optimize b addr).result = .ok r) (hcheck : r.check true = .ok ()) :
    ∃ t, (o.translate b addr).result = .ok t := by
  obtain ⟨t, ht⟩ := buildTrees_returns (Block.check_eq_ok_iff.mp hcheck).1
  refine ⟨t, ?_⟩
  refine Journaled.result_bind_eq_ok.mpr ⟨(), Journaled.result_silent_eq_ok.mpr hb, ?_⟩
  refine Journaled.result_bind_eq_ok.mpr ⟨r, hr, ?_⟩
  exact Journaled.result_bind_eq_ok.mpr ⟨(), Journaled.result_silent_eq_ok.mpr hcheck, ht⟩

theorem compile_returns {r : Block} {a : Option UInt64} (ha : a.getD (b.addr?.getD 0) = addr)
    (hr : (o.optimize b addr).result = .ok r) (hcheck : r.check true = .ok ()) :
    (o.compile b a).result = .ok r := by
  refine Journaled.result_bind_eq_ok.mpr ⟨r, ?_, ?_⟩
  · rw [ha, Journaled.within, hr]
    rfl
  · refine Journaled.result_bind_eq_ok.mpr ⟨(), ?_, rfl⟩
    rw [Journaled.within, Journaled.result_silent_eq_ok.mpr hcheck]
    rfl

end Optimizer

/-- The optimizer fails on no well-formed block. What it returns is typed and flat, and if the exit
targets of the block fit their tags, it is well-formed, so that translation returns trees and
compilation returns it, whether or not the address is given. -/
theorem optimizer_never_fails {o : Optimizer} {b : Block} {addr : UInt64}
    (hb : b.check false = .ok ()) (hnest : b.NestsWithin Flat.maxDepth)
    (hvalid : o.validate = .ok ()) (hnil : o.specializer = fun _ _ => none)
    (hroom : o.HasRoom b addr) :
    ∃ r, (o.optimize b addr).result = .ok r ∧ r.Typed .any ∧ r.Flat ∧
      (b.ExitsFit → r.check true = .ok () ∧ (∃ t, (o.translate b addr).result = .ok t) ∧
        ∀ a, a.getD (b.addr?.getD 0) = addr → (o.compile b a).result = .ok r) := by
  have hspec : o.specializer.WellTyped (.calling fun _ _ _ => True) :=
    hnil ▸ Specializer.wellTyped_none _
  obtain ⟨htyped, -, -⟩ := Block.check_eq_ok_iff.mp hb
  obtain ⟨f, r, -, hr, htyped', hflat, -⟩ :=
    Optimizer.optimize_returns (Optimizer.admits_calling hspec) hvalid htyped hnest hroom
  refine ⟨r, hr, htyped', hflat, fun hexits => ?_⟩
  have hcheck := Optimizer.optimize_checked hb hnest hexits hvalid b.calls_any hspec hroom hr
  exact ⟨hcheck, Optimizer.translate_returns hb hr hcheck, fun a ha =>
    Optimizer.compile_returns ha hr hcheck⟩

/-- Counts a register down and comes back to its address, 16, until the register is zero. -/
def Block.countdown : Block where
  temps := #[]
  stmts := [.put 0 (.binop (.arith .sub .w32) (.get 0 .i32) (.const ⟨.u32, 1⟩)),
    .exit (.binop (.differ .w32) (.get 0 .i32) (.const ⟨.u32, 0⟩)) .boring ⟨.u32, 16⟩]
  next := .const ⟨.u32, 32⟩
  kind := .boring

theorem Block.countdown_exitsFit : Block.countdown.ExitsFit := by decide

theorem optimizer_never_fails_countdown :
    ∃ r, (Optimizer.default.optimize .countdown 16).result = .ok r ∧ r.check true = .ok () ∧
      (∃ t, (Optimizer.default.translate .countdown 16).result = .ok t) ∧
      (Optimizer.default.compile .countdown (some 16)).result = .ok r := by
  have hroom : Optimizer.default.HasRoom .countdown 16 := by decide +kernel
  obtain ⟨r, hr, -, -, h⟩ := optimizer_never_fails rfl (by decide +kernel) rfl rfl hroom
  obtain ⟨hcheck, htrees, hcompile⟩ := h Block.countdown_exitsFit
  exact ⟨r, hr, hcheck, htrees, hcompile (some 16) rfl⟩

/-- Comes back to its address through an exit whose target is too wide for its tag. -/
def Block.wide : Block where
  temps := #[.i1]
  stmts := [.assign 0 (.get 0 .i1), .exit (.tmp 0) .boring ⟨.u32, 2 ^ 32⟩]
  next := .const ⟨.u32, 32⟩
  kind := .boring

/-- Unrolling makes the target of the last exit the successor, where its width matters: a well-formed
block is optimized to one that is refused. -/
theorem optimized_wide_refused :
    Block.wide.check false = .ok () ∧
      ∃ r, (Optimizer.default.optimize .wide (2 ^ 32)).result = .ok r ∧ r.check true ≠ .ok () :=
  ⟨rfl, by decide +kernel⟩

/-! ## Register reads and empty register files -/

/-- What is read from the register file is no longer than the file. -/
theorem State.bytes_le_of_readReg {s : State} {off : Int64} {T : Ty} {v : UInt64}
    (h : s.readReg off T = .ok v) : T.bytes ≤ s.regs.size := by
  unfold State.readReg at h
  split at h
  · rename_i i hplace
    obtain ⟨-, hle, -⟩ := placement_eq_inside T.bytes_le hplace
    omega
  · simp at h
  · simp at h

/-- An expression has a value only if all its nodes do. -/
theorem Machine.exists_eval_node {m : Machine} {e n : Expr} {v : UInt64} (h : m.eval e = .ok v)
    (hn : n ∈ e.nodes) : ∃ u, m.eval n = .ok u := by
  induction e using Expr.childInduct generalizing v with
  | h e ih =>
    rcases Expr.mem_nodes.mp hn with rfl | ⟨c, hc, hn⟩
    · exact ⟨v, h⟩
    · obtain ⟨vs, hvs⟩ := exists_values_children h
      have hvalue : ∀ c ∈ e.children, ∃ u, m.eval c = .ok u :=
        forall_of_forall₂ hvs.flip fun u _ c hu => ⟨u, hu⟩
      obtain ⟨u, hu⟩ := hvalue c hc
      exact ih c hc hu hn

/-- A machine at any point of a block, with all temporaries zero and no registers. -/
def Machine.bare (temps : Array Ty) (env : Env) (defs : List Temp) : Machine :=
  ⟨temps, env, fun t => if t ∈ defs then some 0 else none, .zero 0⟩

theorem Machine.sound_bare (temps : Array Ty) (env : Env) (defs : List Temp) :
    (Machine.bare temps env defs).Sound defs := by
  constructor
  · intro t v T hv _
    simp only [bare, Option.ite_none_right_eq_some, Option.some.injEq] at hv
    exact hv.2 ▸ Ty.fits_zero T
  · intro t
    simp [bare]

/-- Without registers no element of a window has a value. -/
theorem Machine.eval_getIx_bare {temps : Array Ty} {env : Env} {defs : List Temp} {w : Window}
    {ix : Expr} {bias : Int64} {v : UInt64} (hw : w.Proper) :
    (Machine.bare temps env defs).eval (.getIx w ix bias) ≠ .ok v := by
  intro h
  obtain ⟨i, off, -, -, hread⟩ := eval_getIx_eq_ok.mp h
  have hle := State.bytes_le_of_readReg hread
  have hpos := hw.bytes_pos
  simp only [bare, State.zero, Array.size_replicate] at hle
  omega

/-! ## Honest environments -/

/-- The effect leaves the registers alone. -/
def EffectHelper.KeepsRegs (f : EffectHelper) : Prop :=
  ∀ s vs addr r s', f s vs addr = .ok (r, s') → s'.regs = s.regs

/-- The effect neither writes nor reads registers. -/
def EffectHelper.Blind (f : EffectHelper) : Prop :=
  ∀ s vs addr r s', f s vs addr = .ok (r, s') → s'.regs = s.regs ∧
    ∀ regs, regs.size = s.regs.size → f ⟨regs, s.mem⟩ vs addr = .ok (r, ⟨regs, s'.mem⟩)

/-- Effects do to the registers no more than they declare. -/
def Block.Honest (b : Block) (env : Env) : Prop :=
  ∀ e f, .effect e ∈ b.stmts → env.effect e.callee = some f →
    (e.writesState = false → EffectHelper.KeepsRegs f) ∧
      (e.touchesState = false → EffectHelper.Blind f)

/-- The displacements of indexed accesses lie between `-n` and `n`. -/
def Block.BiasesWithin (b : Block) (n : Int) : Prop :=
  (∀ w ix bias, .getIx w ix bias ∈ b.nodes → -n ≤ bias.toInt ∧ bias.toInt ≤ n) ∧
    ∀ w ix bias data, .putIx w ix bias data ∈ b.stmts → -n ≤ bias.toInt ∧ bias.toInt ≤ n

/-- What the specializer offers for a call of the signature, if it has the type of the call, has a
value on every machine, the one of the call if the call has one. -/
def Specializer.Faithful (sp : Specializer) (calls : Signature) (env : Env) : Prop :=
  ∀ callee args x temps defs ty, sp callee args = some x → (∀ a ∈ args, a.isAtom = true) →
    (Expr.call callee ty args).HasTy (.calling calls) temps defs ty → x.HasTy .any temps defs ty →
    ∀ m : Machine, m.temps = temps → m.env = env → m.Sound defs →
      ∃ v, m.eval x = .ok v ∧ ∀ u, m.eval (.call callee ty args) = .ok u → u = v

/-- The policy of blocks whose chains were collapsed `k` times: windows end early, displacements have
grown by less than the number of indices each time, calls are of the signature, effects are honest,
exit targets fit. -/
def Policy.collapsed (env : Env) (calls : Signature) (k : Nat) : Policy where
  slot _ _ := True
  window w bias := w.stop ≤ 2 ^ 32 ∧ -(2 ^ 61 + 2 ^ 31 * k) ≤ bias.toInt ∧
    bias.toInt ≤ 2 ^ 61 + 2 ^ 31 * k
  helper := calls
  effect callee _ state := ∀ f, env.effect callee = some f →
    (state.any (·.touch.writes) = false → EffectHelper.KeepsRegs f) ∧
      (state = [] → EffectHelper.Blind f)
  exit c := c.fits = true

namespace Policy

variable {env : Env} {calls : Signature} {k : Nat}

theorem collapsed_le (env : Env) (calls : Signature) (k : Nat) :
    (collapsed env calls k).Le (collapsed env calls (k + 1)) := by
  refine ⟨fun _ _ => id, fun w bias h => ?_, fun _ _ _ => id, fun _ _ _ => id, fun _ => id⟩
  obtain ⟨hstop, hlo, hhi⟩ := h
  refine ⟨hstop, ?_, ?_⟩
  · push_cast
    omega
  · push_cast
    omega

theorem collapsed_le_calling : (collapsed env calls k).Le (calling calls) :=
  ⟨fun _ _ => id, fun _ _ _ => trivial, fun _ _ _ => id, fun _ _ _ _ => trivial, fun _ _ => trivial⟩

/-- An index moved into a displacement adds less than the number of indices. -/
theorem collapsed_shifts (hk : k ≤ 1) :
    Chain.Shifts (collapsed env calls k) (collapsed env calls (k + 1)) := by
  intro w bias v h
  obtain ⟨hstop, hlo, hhi⟩ := h
  obtain ⟨hmin, hmax⟩ := Machine.index_bounds v
  have hsum : (bias + Machine.index v).toInt = bias.toInt + (Machine.index v).toInt := by
    apply toInt_add_of_bounds
    · omega
    · omega
  refine ⟨hstop, ?_, ?_⟩
  · rw [hsum]
    push_cast
    omega
  · rw [hsum]
    push_cast
    omega

theorem collapsed_unwrapped : (collapsed env calls k).Unwrapped := by
  intro w bias h
  unfold Window.Unwrapped
  have hstop := h.1
  omega

theorem collapsed_steady (hk : k ≤ 2) : (collapsed env calls k).Steady := by
  intro w bias h
  obtain ⟨-, hlo, hhi⟩ := h
  unfold Straightline.Steady
  omega

/-- Each element has a byte of its own below the end of the window. -/
theorem collapsed_small : Chain.Small (collapsed env calls k) := by
  intro w bias hw h
  have hstop : w.base.toInt + w.count.toInt * w.elem.bytes ≤ 2 ^ 32 := h.1
  have hbase := hw.base_nonneg
  have hcount := hw.count_pos
  have hbytes : (1 : Int) ≤ w.elem.bytes := by exact_mod_cast hw.bytes_pos
  have hle : w.count.toInt ≤ w.count.toInt * w.elem.bytes := le_mul_of_one_le_right hcount.le hbytes
  omega

theorem collapsed_keepsRegs : (collapsed env calls k).KeepsRegs env :=
  fun _ h hwrites f hf => (h f hf).1 hwrites

theorem collapsed_blind : (collapsed env calls k).Blind env := by
  intro e h htouches f hf
  have hstate : e.state = [] := by simpa [Effect.touchesState] using htouches
  exact (h f hf).2 hstate

end Policy

namespace Specializer

variable {sp : Specializer} {env : Env} {calls : Signature} {k : Nat}

/-- A faithful offer has a value without registers, so it reads none. -/
theorem Faithful.wellTyped (h : sp.Faithful calls env) (htyped : sp.WellTyped (.calling calls)) :
    sp.WellTyped (.collapsed env calls k) := by
  intro callee args x temps defs ty hx hargs hcall
  have hcall' := hcall.mono Policy.collapsed_le_calling (fun _ _ => id) (List.Subset.refl _)
  obtain ⟨hnest, T, hT, hkeeps⟩ := htyped callee args x temps defs ty hx hargs hcall'
  refine ⟨hnest, T, hT, fun hty => (hkeeps hty).of_allows fun n hn => ?_⟩
  obtain ⟨U, hU⟩ := (hkeeps hty).node hn
  cases n with
  | getIx w ix bias =>
    -- on a machine without registers the whole offer would have no value
    obtain ⟨v, hv, -⟩ := h callee args x temps defs ty hx hargs hcall' (hty ▸ hT)
      (.bare temps env defs) rfl rfl (Machine.sound_bare temps env defs)
    obtain ⟨u, hu⟩ := Machine.exists_eval_node hv hn
    exact absurd hu (Machine.eval_getIx_bare hU.2.1)
  | call => exact hU.allows
  | _ => trivial

theorem Faithful.agrees (h : sp.Faithful calls env) : sp.Agrees (.collapsed env calls k) env := by
  intro callee args x temps defs ty hx hargs hcall hty m v htemps henv hm hv
  have hcall' := hcall.mono Policy.collapsed_le_calling (fun _ _ => id) (List.Subset.refl _)
  have hty' := hty.mono (.any _) (fun _ _ => id) (List.Subset.refl _)
  obtain ⟨u, hu, hsame⟩ := h callee args x temps defs ty hx hargs hcall' hty' m htemps henv hm
  rw [hu, hsame v hv]

end Specializer

namespace Optimizer

variable {o : Optimizer} {env : Env} {calls : Signature}

theorem admits_collapsed (htyped : o.specializer.WellTyped (.calling calls))
    (h : o.specializer.Faithful calls env) : o.Admits (.collapsed env calls) :=
  ⟨Policy.collapsed_le env calls, fun _ hk => Policy.collapsed_shifts hk, fun _ _ => id,
    fun _ => h.wellTyped htyped⟩

theorem trusts_collapsed (h : o.specializer.Faithful calls env) :
    o.Trusts (.collapsed env calls) env :=
  fun _ hk => ⟨Policy.collapsed_unwrapped, Policy.collapsed_steady hk, Policy.collapsed_small,
    Policy.collapsed_keepsRegs, Policy.collapsed_blind, h.agrees⟩

end Optimizer

/-- Running statements that keep the policy of a register file keeps its size. -/
theorem Machine.Ready.size_finish {m : Machine} {defs : List Temp} {n : Nat} {ss : List Stmt}
    {next : Expr} {kind : JumpKind} {out : Outcome} (hm : m.Ready defs n)
    (hss : Stmt.AllOk (.fits m.env n) m.temps defs ss)
    (hout : Machine.finish next kind ss m = some out) : out.state.regs.size = n := by
  induction ss generalizing m defs with
  | nil =>
    obtain ⟨v, -, rfl⟩ := Machine.finish_nil_eq_some.mp hout
    exact hm.size
  | cons s ss ih =>
    rcases Machine.finish_cons_eq_some.mp hout with ⟨m₁, hstep, hrest⟩ | ⟨k, dst, -, rfl⟩
    · refine ih (hm.step hss.1 hstep) ?_ hrest
      rw [Machine.step_temps hstep, Machine.step_env hstep]
      exact hss.2
    · exact hm.size

namespace Block

variable {b f r : Block} {env : Env} {calls : Signature} {n : Nat} {s : State} {addr : UInt64}

/-- A block that suits a small register file keeps the policy of the pipeline. -/
theorem Typed.collapsed (hb : b.Typed .any) (hnext : b.NextFits) (hexits : b.ExitsFit)
    (hbias : b.BiasesWithin (2 ^ 61)) (hcalls : b.Calls calls) (hhonest : b.Honest env)
    (hsuits : b.Suits env n) (hn : n ≤ 2 ^ 32) : b.Typed (.collapsed env calls 0) := by
  have hwindow : ∀ (w : Window) (bias : Int64), w.stop ≤ n →
      (-2 ^ 61 ≤ bias.toInt ∧ bias.toInt ≤ 2 ^ 61) → (Policy.collapsed env calls 0).window w bias := by
    intro w bias hstop hbound
    refine ⟨?_, ?_, ?_⟩
    · omega
    · simpa using hbound.1
    · simpa using hbound.2
  have hnode : ∀ e ∈ b.nodes, (Policy.collapsed env calls 0).Allows b.temps e := by
    intro e he
    cases e with
    | getIx w ix bias => exact hwindow w bias (hsuits.getIx w ix bias he) (hbias.1 w ix bias he)
    | call => exact hcalls.allows he
    | _ => trivial
  refine hb.of_allows ?_ (fun e he => hnode e (mem_nodes_of_next he)) hnext
  intro s hs
  refine ⟨?_, fun e he => hnode e (mem_nodes_of_stmt hs he)⟩
  cases s with
  | put => exact fun _ _ => trivial
  | putIx w ix bias data =>
    exact hwindow w bias (hsuits.putIx w ix bias data hs) (hbias.2 w ix bias data hs)
  | effect e =>
    intro f hf
    obtain ⟨hkeeps, hblind⟩ := hhonest e f hs hf
    exact ⟨hkeeps, fun hstate => hblind (by simp [Effect.touchesState, hstate])⟩
  | exit guard kind dst => exact hexits guard kind dst hs
  | _ => trivial

theorem Typed.size_ends {out : Outcome} (hb : b.Typed (.fits env n)) (hsize : s.regs.size = n)
    (hn : n < 2 ^ 63) (hout : b.ends s env = some out) : out.state.regs.size = n := by
  rw [ends_eq] at hout
  have hready : (Machine.start b.temps env s).Ready [] n :=
    ⟨Machine.sound_start b.temps env s, hsize, hn⟩
  exact hready.size_finish hb.stmts hout

/-- A block that keeps the policy of a register file can be run again and again. -/
theorem Typed.repeats {j : Nat} (hb : b.Typed (.fits env n)) (hsize : s.regs.size = n)
    (hn : n < 2 ^ 63) : b.Repeats addr env j s := by
  induction j generalizing s with
  | zero => trivial
  | succ j ih =>
    obtain ⟨out, hout⟩ := hb.exists_ends hsize hn
    exact ⟨out, hout, fun _ _ => ih (hb.size_ends hsize hn hout)⟩

/-- Runs of the flat form are runs of the block. -/
theorem Typed.iterates_of_flat {i : Nat} {out : Outcome} (hb : b.Typed (.fits env n))
    (hn : n < 2 ^ 63)
    (hflat : ∀ s out, s.regs.size = n → b.ends s env = some out → f.ends s env = some out)
    (hsize : s.regs.size = n) (h : f.Iterates addr env i s out) : b.Iterates addr env i s out := by
  have hsame : ∀ s out, s.regs.size = n → f.ends s env = some out → b.ends s env = some out := by
    intro s out hsize hout
    obtain ⟨out', hout'⟩ := hb.exists_ends hsize hn
    have heq := (hflat s out' hsize hout').symm.trans hout
    rw [Option.some.injEq] at heq
    exact heq ▸ hout'
  induction h with
  | one hout => exact .one (hsame _ _ hsize hout)
  | more hout _ ih =>
    have hout' := hsame _ _ hsize hout
    exact .more hout' (ih (hb.size_ends hsize hn hout'))

end Block

/-- For every well-formed block that is not nested too deeply, with exit targets and displacements in
range and room for its temporaries, the optimizer returns a well-formed flat block. The specializer
has to offer typed expressions for the calls that can come up, those of the block and of its offers.
The factor that the journal reports is one, or two, four or eight if loops may be unrolled. In every
honest environment in which the specializer is faithful, on every state of at most `2 ^ 32` register
bytes that suits the block, one run of the result is at most so many runs of the block, all but the
last coming back to the address. -/
theorem optimized_block_condenses {o : Optimizer} {b : Block} {addr : UInt64} {calls : Signature}
    (hb : b.check false = .ok ()) (hnest : b.NestsWithin Flat.maxDepth) (hexits : b.ExitsFit)
    (hbias : b.BiasesWithin (2 ^ 61)) (hvalid : o.validate = .ok ()) (hcalls : b.Calls calls)
    (hspec : o.specializer.WellTyped (.calling calls)) (hroom : o.HasRoom b addr) :
    ∃ r, (o.optimize b addr).result = .ok r ∧ r.check true = .ok () ∧
      o.IsFactor (o.optimize b addr).copies ∧
      ∀ (env : Env) (s : State), o.specializer.Faithful calls env → b.Honest env →
        b.Suits env s.regs.size → s.regs.size ≤ 2 ^ 32 →
        ∃ i out, 1 ≤ i ∧ i ≤ (o.optimize b addr).copies ∧ b.Iterates addr env i s out ∧
          r.ends s env = some out := by
  obtain ⟨htyped, hnext, -⟩ := Block.check_eq_ok_iff.mp hb
  obtain ⟨f, r, hf, hr, -, -, hfactor, -⟩ := Optimizer.optimize_returns
    (Optimizer.admits_calling hspec) hvalid (htyped.calling hcalls) hnest hroom
  refine ⟨r, hr, Optimizer.optimize_checked hb hnest hexits hvalid hcalls hspec hroom hr, hfactor,
    ?_⟩
  intro env s hfaithful hhonest hsuits hsize
  have hword : s.regs.size < 2 ^ 63 := by omega
  -- the same flat form and the same result, under the policy of the environment
  obtain ⟨f', r', hf', hr', -, -, -, hruns⟩ :=
    Optimizer.optimize_returns (Optimizer.admits_collapsed hspec hfaithful) hvalid
      (htyped.collapsed hnext hexits hbias hcalls hhonest hsuits hsize) hnest hroom
  rw [hf, Except.ok.injEq] at hf'
  rw [hr, Except.ok.injEq] at hr'
  subst hf' hr'
  -- on states that suit the block, flat form does the same and can be repeated
  have hfits := htyped.of_suits hsuits
  obtain ⟨f', hf', -, -, hkeeps, href⟩ := Block.flatten_spec hfits hnest hroom.1
  rw [hf, Except.ok.injEq] at hf'
  subst hf'
  obtain ⟨i, out, h1, hi, hiter, hout⟩ :=
    hruns env (Optimizer.trusts_collapsed hfaithful) s (hkeeps.typed.repeats rfl hword)
  refine ⟨i, out, h1, hi, hfits.iterates_of_flat hword ?_ rfl hiter, hout⟩
  intro st out hst hout
  exact href env _ (fun _ _ => Flat.carried_ready (.refl _)) st out
    ⟨Machine.sound_start _ _ _, hst, hword⟩ hout

/-! ## A specializer that qualifies -/

/-- Every call of the signature is answered in the environment. -/
def Signature.Answered (calls : Signature) (env : Env) : Prop :=
  ∀ callee ty tys, calls callee ty tys →
    ∃ f, env.helper callee = some f ∧ ∀ vs, vs.length = tys.length → ∃ r, f vs = .ok r

/-- Typed atoms have values. -/
theorem Machine.Sound.eval_atoms {m : Machine} {P : Policy} {defs : List Temp} {es : List Expr}
    {tys : List Ty} (hm : m.Sound defs) (htys : Expr.HaveTys P m.temps defs es tys)
    (hatoms : ∀ e ∈ es, e.isAtom = true) :
    ∃ vs, List.Forall₂ (fun e v => m.eval e = .ok v) es vs ∧ vs.length = tys.length := by
  induction es generalizing tys with
  | nil =>
    cases tys with
    | nil => exact ⟨[], .nil, rfl⟩
    | cons => exact htys.elim
  | cons e es ih =>
    rw [List.forall_mem_cons] at hatoms
    cases tys with
    | nil => exact htys.elim
    | cons T tys =>
      obtain ⟨v, hv⟩ := hm.eval_atom htys.1 hatoms.1
      obtain ⟨vs, hvs, hlen⟩ := ih htys.2 hatoms.2
      exact ⟨v :: vs, .cons hv hvs, congrArg (· + 1) hlen⟩

/-- Where every call is answered, a specializer is faithful if what it offers has the value of the
call. -/
theorem Specializer.Agrees.faithful {sp : Specializer} {calls : Signature} {env : Env}
    (h : sp.Agrees (.calling calls) env) (htyped : sp.WellTyped (.calling calls))
    (hcalls : calls.Answered env) : sp.Faithful calls env := by
  intro callee args x temps defs ty hx hargs hcall hty m htemps henv hm
  subst htemps henv
  obtain ⟨-, T, hT, hkeeps⟩ := htyped callee args x m.temps defs ty hx hargs hcall
  obtain ⟨-, -, -, tys, htys, hcallee⟩ := id hcall
  obtain ⟨vs, hvs, hlen⟩ := hm.eval_atoms htys hargs
  obtain ⟨f, hf, htotal⟩ := hcalls callee ty tys hcallee
  obtain ⟨r, hr⟩ := htotal vs hlen
  have hv : m.eval (.call callee ty args) = .ok (r &&& ty.mask) :=
    Machine.eval_call_eq_ok.mpr ⟨vs, f, r, hvs, hf, hr, rfl⟩
  have hkept := hkeeps (hT.unique hty)
  refine ⟨_, h callee args x m.temps defs ty hx hargs hcall hkept m _ rfl rfl hm hv, fun u hu => ?_⟩
  rw [hv, Except.ok.injEq] at hu
  exact hu.symm

namespace Sample

/-- The calls of generated blocks. -/
def calls : Signature := fun callee ty tys => callee = "mix32" ∧ ty = .i32 ∧ tys = [.i32, .i32]

/-- What is offered, and for which calls. -/
theorem specializer_eq_some {callee : String} {args : List Expr} {x : Expr}
    (h : specializer callee args = some x) :
    callee = "mix32" ∧ ∃ a c, args = [a, .const c] ∧ c.bits = 0 ∧
      x = .binop (.arith .mul .w32) a (.const ⟨.u32, mixFactor.toUInt64⟩) := by
  unfold specializer at h
  split at h
  · rename_i a c
    split at h
    · rename_i hc
      exact ⟨rfl, a, c, rfl, hc, (Option.some.inj h).symm⟩
    · simp at h
  · simp at h

theorem specializer_wellTyped : specializer.WellTyped (.calling calls) := by
  intro callee args x temps defs ty hx hargs hcall
  obtain ⟨rfl, a, c, rfl, -, rfl⟩ := specializer_eq_some hx
  obtain ⟨-, -, -, tys, htys, -, rfl, rfl⟩ := hcall
  have ha : a.HasTy (.calling calls) temps defs .i32 := htys.1
  have hproduct : ∀ P : Policy, a.HasTy P temps defs .i32 →
      (Expr.binop (.arith .mul .w32) a (.const ⟨.u32, mixFactor.toUInt64⟩)).HasTy P temps defs
        .i32 :=
    fun _ ha => ⟨rfl, rfl, ha, rfl, by decide, by decide⟩
  refine ⟨?_, .i32, hproduct _ (ha.mono (.any _) (fun _ _ => id) (List.Subset.refl _)),
    fun _ => hproduct _ ha⟩
  intro e he
  simp only [Expr.children, List.mem_cons, List.not_mem_nil, or_false] at he
  rcases he with rfl | rfl
  · exact Expr.nestsWithin_of_isAtom (hargs _ List.mem_cons_self) _
  · exact Expr.nestsWithin_of_isAtom rfl _

/-- With a zero second argument `mix32` is a product, of which both forms take the low bits. -/
theorem specializer_agrees : specializer.Agrees (.calling calls) env := by
  intro callee args x temps defs ty hx hargs hcall _ m u htemps henv hm hu
  obtain ⟨rfl, a, c, rfl, hc, rfl⟩ := specializer_eq_some hx
  obtain ⟨-, -, -, tys, -, -, rfl, rfl⟩ := hcall
  obtain ⟨vs, f, r, hvs, hf, hr, rfl⟩ := Machine.eval_call_eq_ok.mp hu
  obtain ⟨v, us, hv, hus, rfl⟩ := List.forall₂_cons_left_iff.mp hvs
  obtain ⟨z, zs, hzero, -, rfl⟩ := List.forall₂_cons_left_iff.mp hus
  rw [Machine.eval_const, hc, Except.ok.injEq] at hzero
  rw [henv] at hf
  obtain rfl := Option.some.inj hf
  subst hzero
  obtain rfl := Except.ok.inj hr
  have hlow : (v * mixFactor.toUInt64).toUInt32 = (mix32 v.toUInt32 0).toUInt64.toUInt32 := by
    simp only [mix32, UInt32.toUInt32_toUInt64, UInt64.toUInt32_mul, UInt32.xor_zero]
  exact Machine.eval_binop_eq_ok.mpr ⟨v, mixFactor.toUInt64, _, hv, Machine.eval_const _, rfl,
    and_mask_congr (T := .i32) (congrArg UInt32.toBitVec hlow)⟩

theorem specializer_faithful : specializer.Faithful calls env := by
  refine specializer_agrees.faithful specializer_wellTyped ?_
  rintro callee ty tys ⟨rfl, -, rfl⟩
  refine ⟨mixHelper, rfl, fun vs hvs => ?_⟩
  obtain ⟨x, y, rfl⟩ := List.length_eq_two.mp hvs
  exact ⟨_, rfl⟩

end Sample

/-- Adds up products of elements of a window until the register that is bumped is zero. -/
def Block.mixing : Block where
  temps := #[.i32, .i32]
  stmts := [.assign 0 (.getIx ⟨0, .i32, 4⟩ (.get 16 .i32) 1),
    .assign 1 (.call "mix32" .i32 [.tmp 0, .const ⟨.u32, 0⟩]),
    .putIx ⟨0, .i32, 4⟩ (.get 16 .i32) 0 (.tmp 1),
    .effect ⟨"bump", .const ⟨.u1, 1⟩, [.tmp 1], none, .read, .const ⟨.u64, 0x400⟩, 4,
      [⟨.modify, 60, 4⟩]⟩,
    .exit (.binop (.differ .w32) (.get 60 .i32) (.const ⟨.u32, 0⟩)) .boring ⟨.u32, 16⟩]
  next := .const ⟨.u32, 32⟩
  kind := .boring

namespace Block

theorem mixing_nodes : mixing.nodes = [.getIx ⟨0, .i32, 4⟩ (.get 16 .i32) 1, .get 16 .i32,
    .call "mix32" .i32 [.tmp 0, .const ⟨.u32, 0⟩], .tmp 0, .const ⟨.u32, 0⟩, .get 16 .i32, .tmp 1,
    .const ⟨.u64, 0x400⟩, .const ⟨.u1, 1⟩, .tmp 1,
    .binop (.differ .w32) (.get 60 .i32) (.const ⟨.u32, 0⟩), .get 60 .i32, .const ⟨.u32, 0⟩,
    .const ⟨.u32, 32⟩] := rfl

theorem mixing_suits : mixing.Suits Sample.env 256 := by
  constructor
  · intro off ty h
    simp only [mixing_nodes, List.mem_cons, reduceCtorEq, Expr.get.injEq, List.not_mem_nil, false_or,
      or_false] at h
    rcases h with ⟨rfl, rfl⟩ | ⟨rfl, rfl⟩ | ⟨rfl, rfl⟩ <;> decide
  · intro w ix bias h
    simp [mixing_nodes] at h
    rw [h.1]
    decide
  · simp [mixing]
  · intro w ix bias data h
    simp [mixing] at h
    rw [h.1]
    decide
  · intro callee ty args h
    simp [mixing_nodes] at h
    obtain ⟨rfl, -, rfl⟩ := h
    refine ⟨Sample.mixHelper, rfl, fun vs hvs => ?_⟩
    obtain ⟨x, y, rfl⟩ := List.length_eq_two.mp hvs
    exact ⟨_, rfl⟩
  · intro e h
    simp [mixing] at h
    subst h
    exact ⟨Sample.bumpHelper, rfl, fun s vs addr hs hvs =>
      Sample.exists_bump hs le_rfl (by decide) hvs addr⟩

theorem mixing_biasesWithin : mixing.BiasesWithin (2 ^ 61) := by
  constructor
  · intro w ix bias h
    simp [mixing_nodes] at h
    rw [h.2.2]
    decide
  · intro w ix bias data h
    simp [mixing] at h
    rw [h.2.2.1]
    decide

theorem mixing_calls : mixing.Calls Sample.calls := by
  intro callee ty args tys h htys
  simp [mixing_nodes] at h
  obtain ⟨rfl, rfl, rfl⟩ := h
  obtain _ | ⟨hT, htys⟩ := htys
  obtain _ | ⟨hU, ⟨⟩⟩ := htys
  exact ⟨rfl, rfl, by rw [← Except.ok.inj hT, ← Except.ok.inj hU]; rfl⟩

/-- The one effect declares that it modifies a register. -/
theorem mixing_honest (env : Env) : mixing.Honest env := by
  intro e f h _
  simp [mixing] at h
  subst h
  exact ⟨fun h => absurd h (by decide), fun h => absurd h (by decide)⟩

end Block

/-- Whether the node calls a helper. -/
def Expr.isCall : Expr → Bool
  | call _ _ _ => true
  | _ => false

/-- The optimizer that specializes the calls of generated blocks. -/
def Sample.optimizer : Optimizer := { Optimizer.default with specializer := specializer }

/-- The loop is chained eight times, and no call is left in it. -/
theorem optimized_block_condenses_mixing :
    ∃ r, (Sample.optimizer.optimize .mixing 16).result = .ok r ∧ r.check true = .ok () ∧
      r.nodes.any Expr.isCall = false ∧
      ∃ i out, 1 ≤ i ∧ i ≤ 8 ∧ Block.mixing.Iterates 16 Sample.env i (.zero 256) out ∧
        r.ends (.zero 256) Sample.env = some out := by
  have hroom : Sample.optimizer.HasRoom .mixing 16 := by decide +kernel
  have hcopies : (Sample.optimizer.optimize .mixing 16).copies = 8 := by decide +kernel
  obtain ⟨r, hr, hcall⟩ : ∃ r, (Sample.optimizer.optimize .mixing 16).result = .ok r ∧
      r.nodes.any Expr.isCall = false := by decide +kernel
  obtain ⟨r', hr', hcheck, -, hruns⟩ := optimized_block_condenses rfl (by decide +kernel)
    (by decide) Block.mixing_biasesWithin rfl Block.mixing_calls Sample.specializer_wellTyped hroom
  rw [hr, Except.ok.injEq] at hr'
  subst hr'
  rw [hcopies] at hruns
  refine ⟨r, hr, hcheck, hcall, hruns Sample.env (.zero 256) Sample.specializer_faithful
    (Block.mixing_honest _) ?_ ?_⟩
  · simpa [State.zero] using Block.mixing_suits
  · simp [State.zero]

end Straightline
