import Mathlib
import Straightline.Proofs.Soundness

/-!
# Crashes

A run answers with a result or with the rule that the block breaks, or else it crashes. The register
accesses that a run attempts, in order and up to the first that fails, are `Block.regTrace`. For a
well-formed block, and helpers that do not crash themselves, they decide: the run crashes exactly if
one of them starts at an offset and ends past the last one, `2 ^ 63 - 1`. The sum of its offset and
its size wraps then, and the comparison with the size of the file lets it through.

The argument goes along the evaluator. `CrashesBy x as` says that `x` crashes exactly if an access of
`as` wraps, and `CrashesBy.bind` carries it from two computations to their composition.
-/

namespace Straightline

/-- An attempt to read or write a register value. -/
structure RegAccess where
  off : Int64
  ty : Ty
deriving DecidableEq

/-- The access starts at an offset and its end is none. -/
def RegAccess.Wraps (a : RegAccess) : Prop :=
  0 ≤ a.off.toInt ∧ 2 ^ 63 ≤ a.off.toInt + a.ty.bytes

/-- What follows a computation, which is nothing where it fails. -/
def behind {α β : Type} (x : Except Fault α) (f : α → List β) : List β :=
  match x with
  | .ok a => f a
  | .error _ => []

/-! ## Traces -/

namespace Machine

/-- The access to a window element. -/
def elementAt (w : Window) (ix : UInt64) (bias : Int64) : List RegAccess :=
  behind (element w ix bias) fun off => [⟨off, w.elem⟩]

mutual

/-- The register reads that the evaluation of an expression attempts. -/
def regReads (m : Machine) : Expr → List RegAccess
  | .missing | .tmp _ | .const _ => []
  | .get off ty => [⟨off, ty⟩]
  | .getIx w ix bias => m.regReads ix ++ behind (m.eval ix) fun i => elementAt w i bias
  | .unop _ a | .load _ a => m.regReads a
  | .binop _ a b => m.regReads a ++ behind (m.eval a) fun _ => m.regReads b
  | .call _ _ args => m.regReadsAll args
  | .select c z x =>
    m.regReads c ++ behind (m.eval c) fun _ =>
      m.regReads z ++ behind (m.eval z) fun _ => m.regReads x

def regReadsAll (m : Machine) : List Expr → List RegAccess
  | [] => []
  | e :: es => m.regReads e ++ behind (m.eval e) fun _ => m.regReadsAll es

end

/-- The address that an effect hands to its helper. -/
def effectAddr (m : Machine) (e : Effect) : Except Fault UInt64 :=
  if e.touchesMem = true then m.eval e.memAddr else .ok 0

/-- The register accesses that a statement attempts. Those of a helper are its own. -/
def regAccesses (m : Machine) : Stmt → List RegAccess
  | .missing | .noop | .mark _ _ | .fence => []
  | .assign _ src => m.regReads src
  | .put off data =>
    behind (data.typeIn m.temps) fun T => m.regReads data ++ behind (m.eval data) fun _ => [⟨off, T⟩]
  | .putIx w ix bias data =>
    m.regReads ix ++ behind (m.eval ix) fun i =>
      m.regReads data ++ behind (m.eval data) fun _ => elementAt w i bias
  | .store addr data =>
    m.regReads addr ++ behind (m.eval addr) fun _ =>
      behind (data.typeIn m.temps) fun _ => m.regReads data
  | .effect e =>
    (if e.touchesMem = true then m.regReads e.memAddr else []) ++ behind (m.effectAddr e) fun _ =>
      m.regReads e.guard ++ behind (m.eval e.guard) fun g =>
        if g = 0 then [] else m.regReadsAll e.args
  | .exit guard _ _ => m.regReads guard

/-- The register accesses that statements and a successor attempt. -/
def regTrace (next : Expr) : List Stmt → Machine → List RegAccess
  | [], m => m.regReads next
  | s :: ss, m =>
    let rest := match m.step s with
      | .next m' => regTrace next ss m'
      | .leave _ _ => []
      | .fail _ _ => []
    m.regAccesses s ++ rest

end Machine

/-- The register accesses that a run attempts, up to the first that fails. -/
def Block.regTrace (b : Block) (s : State) (env : Env) : List RegAccess :=
  Machine.regTrace b.next b.stmts (.start b.temps env s)

/-- The register file has a size that fits a word. -/
def State.Sized (s : State) : Prop := s.regs.size < 2 ^ 63

/-- No helper crashes, and the effects leave a register file that fits a word. -/
structure Env.CrashFree (env : Env) : Prop where
  helper : ∀ callee f, env.helper callee = some f → ∀ vs, f vs ≠ .error .crash
  effect : ∀ callee f, env.effect callee = some f → ∀ s vs addr, s.Sized →
    f s vs addr ≠ .error .crash ∧ ∀ r s', f s vs addr = .ok (r, s') → s'.Sized

/-- The run gave a result, or named a broken rule. -/
def Run.Answered (r : Run) : Prop :=
  (∃ res, r.outcome = .ok res) ∨ ∃ e, r.outcome = .error (.illFormed e)

theorem Run.answered_iff {r : Run} : r.Answered ↔ r.outcome ≠ .error .crash := by
  unfold Answered
  cases hr : r.outcome with
  | ok res => simp
  | error f => cases f <;> simp

/-! ## Computations -/

/-- The computation crashes exactly if one of the accesses wraps. -/
def CrashesBy {α : Type} (x : Except Fault α) (as : List RegAccess) : Prop :=
  x = .error .crash ↔ ∃ a ∈ as, a.Wraps

section CrashesBy

variable {α β : Type} {x : Except Fault α} {as : List RegAccess}

theorem forall_mem_behind {f : α → List β} {p : β → Prop} :
    (∀ b ∈ behind x f, p b) ↔ ∀ a, x = .ok a → ∀ b ∈ f a, p b := by
  cases x <;> simp [behind]

theorem crashesBy_nil : CrashesBy x [] ↔ x ≠ .error .crash := by simp [CrashesBy]

/-- What goes before a computation and does not fail holds no access that wraps. -/
theorem CrashesBy.append {a : α} {y : Except Fault β} {bs : List RegAccess}
    (hx : CrashesBy (.ok a) as) (hy : CrashesBy y bs) : CrashesBy y (as ++ bs) := by
  unfold CrashesBy at hx hy ⊢
  have hnone : ¬∃ a ∈ as, a.Wraps := by simpa using hx
  simp only [List.mem_append, or_and_right, exists_or, hnone, false_or]
  exact hy

/-- A composition crashes by the accesses of its parts. -/
theorem CrashesBy.bind {f : α → Except Fault β} {g : α → List RegAccess} (hx : CrashesBy x as)
    (hf : ∀ a, x = .ok a → CrashesBy (f a) (g a)) : CrashesBy (x >>= f) (as ++ behind x g) := by
  cases x with
  | error e => simpa [CrashesBy, behind, Bind.bind, Except.bind] using hx
  | ok a => exact hx.append (hf a rfl)

/-- A second part that never crashes adds no accesses. -/
theorem CrashesBy.bind_safe {f : α → Except Fault β} (hx : CrashesBy x as)
    (hf : ∀ a, x = .ok a → f a ≠ .error .crash) : CrashesBy (x >>= f) as := by
  have h := hx.bind fun a ha => crashesBy_nil.mpr (hf a ha)
  have hnil : behind x (fun _ => ([] : List RegAccess)) = [] := by cases x <;> rfl
  rwa [hnil, List.append_nil] at h

/-- A first part that never crashes adds none either. -/
theorem CrashesBy.safe_bind {f : α → Except Fault β} {g : α → List RegAccess}
    (hx : x ≠ .error .crash) (hf : ∀ a, x = .ok a → CrashesBy (f a) (g a)) :
    CrashesBy (x >>= f) (behind x g) := (crashesBy_nil.mpr hx).bind hf

theorem bind_ne_crash {f : α → Except Fault β} (hx : x ≠ .error .crash)
    (hf : ∀ a, x = .ok a → f a ≠ .error .crash) : (x >>= f) ≠ .error .crash :=
  crashesBy_nil.mp ((crashesBy_nil.mpr hx).bind_safe hf)

end CrashesBy

/-! ## Types and addresses -/

theorem tempTy_ne_crash (temps : Array Ty) (t : Temp) : tempTy temps t ≠ .error .crash := by
  unfold tempTy
  split
  · simp
  · simp [Fault.atExpr]

theorem Expr.typeIn_ne_crash (temps : Array Ty) (e : Expr) :
    e.typeIn temps ≠ .error .crash := by
  induction e with
  | missing => simp [typeIn, Fault.atExpr]
  | tmp t => exact tempTy_ne_crash temps t
  | select c z x _ ihz _ => exact ihz
  | _ => simp [typeIn]

/-- The address of a declared touch is an operand, and typed as one. -/
theorem Effect.Ok.memAddr {P : Policy} {temps : Array Ty} {defs : List Temp} {x : Effect}
    (h : x.Ok P temps defs) (htouch : x.touchesMem = true) :
    ∃ T, x.memAddr.HasTy P temps defs T :=
  Stmt.Ok.operand (s := .effect x) h (by simp [Stmt.operands, Effect.operands, htouch])

/-! ## Registers -/

/-- An access wraps in the file exactly if its end is no offset; the size of the file does not
matter. -/
theorem placement_eq_wrapped {off : Int64} {n len : Nat} (hn : n ≤ 8) (hlen : len < 2 ^ 63) :
    placement off n len = .wrapped ↔ 0 ≤ off.toInt ∧ 2 ^ 63 ≤ off.toInt + n := by
  have hlt := Int64.toInt_lt off
  have hnInt : (Int64.ofNat n).toInt = n := Int64.toInt_ofNat_of_lt (by omega)
  have hlenInt : (Int64.ofNat len).toInt = len := Int64.toInt_ofNat_of_lt hlen
  have hzero : (0 : Int64).toInt = 0 := rfl
  have hstop : 0 ≤ off.toInt → (off + Int64.ofNat n).toInt =
      if 2 ^ 63 ≤ off.toInt + n then off.toInt + n - 2 ^ 64 else off.toInt + n := by
    -- the sum stays below `2 ^ 64`, so it wraps once at most
    intro h0
    rw [Int64.toInt_add, hnInt, Int.bmod]
    norm_num at hlt ⊢
    omega
  unfold placement
  simp only [Int64.lt_iff_toInt_lt, hzero, hlenInt]
  by_cases h0 : 0 ≤ off.toInt
  · rw [hstop h0]
    by_cases hwrap : 2 ^ 63 ≤ off.toInt + n
    · rw [if_pos hwrap, if_neg (by omega), if_pos (by omega)]
      exact ⟨fun _ => ⟨h0, hwrap⟩, fun _ => rfl⟩
    · rw [if_neg hwrap]
      refine ⟨fun h => ?_, fun h => absurd h.2 hwrap⟩
      -- neither of the remaining placements is the wrapped one
      rw [if_neg (show ¬off.toInt + n < 0 by omega)] at h
      split at h <;> simp at h
  · rw [if_pos (.inl (by omega))]
    exact ⟨fun h => by simp at h, fun h => absurd h.1 h0⟩

namespace State

variable {s : State} {off : Int64} {T : Ty}

theorem crashesBy_readReg (hs : s.Sized) : CrashesBy (s.readReg off T) [⟨off, T⟩] := by
  have hw : _ ↔ (⟨off, T⟩ : RegAccess).Wraps := placement_eq_wrapped T.bytes_le hs
  unfold CrashesBy readReg
  simp only [List.mem_singleton, exists_eq_left, ← hw]
  cases placement off T.bytes s.regs.size <;> simp [Fault.atExpr]

theorem crashesBy_writeReg (hs : s.Sized) (v : UInt64) :
    CrashesBy (s.writeReg off T v) [⟨off, T⟩] := by
  have hw : _ ↔ (⟨off, T⟩ : RegAccess).Wraps := placement_eq_wrapped T.bytes_le hs
  unfold CrashesBy writeReg
  simp only [List.mem_singleton, exists_eq_left, ← hw]
  cases placement off T.bytes s.regs.size <;> simp [Fault.atStmt]

end State

namespace Machine

variable {m m' : Machine} {P : Policy} {temps : Array Ty} {defs : List Temp} {e : Expr} {T : Ty}
  {s : Stmt}

/-- A window with elements has one for every index. -/
theorem element_ne_crash {w : Window} (hw : w.Proper) (i : UInt64) (bias : Int64) :
    element w i bias ≠ .error .crash := by
  obtain ⟨k, hk, -⟩ := Window.slot?_eq hw (index i) bias
  simp [element, Window.offset?, hk]

/-! ## Expressions -/

/-- A list of expressions crashes by its reads if each of its members does. -/
theorem crashesBy_evalAll {es : List Expr} (h : ∀ e ∈ es, CrashesBy (m.eval e) (m.regReads e)) :
    CrashesBy (m.evalAll es) (m.regReadsAll es) := by
  induction es with
  | nil => simp [evalAll, regReadsAll, crashesBy_nil]
  | cons e es ih =>
    rw [List.forall_mem_cons] at h
    rw [evalAll, regReadsAll]
    exact h.1.bind fun v _ => (ih h.2).bind_safe (by simp)

/-- A typed expression crashes exactly if one of its reads wraps. -/
theorem crashesBy_eval (henv : m.env.CrashFree) (hs : m.state.Sized)
    (h : e.HasTy P temps defs T) : CrashesBy (m.eval e) (m.regReads e) := by
  induction e generalizing T with
  | missing => exact h.elim
  | tmp t =>
    rw [eval, regReads]
    refine crashesBy_nil.mpr (bind_ne_crash (tempTy_ne_crash m.temps t) fun _ _ => ?_)
    cases m.vals t <;> simp [Fault.atExpr]
  | const c => simp [eval, regReads, crashesBy_nil]
  | get off ty =>
    rw [eval, regReads]
    exact State.crashesBy_readReg hs
  | getIx w ix bias ih =>
    obtain ⟨-, hw, -, hix⟩ := h
    rw [eval, regReads]
    exact (ih hix).bind fun i _ => .safe_bind (element_ne_crash hw i bias) fun off _ =>
      State.crashesBy_readReg hs
  | unop op a ih =>
    rw [eval, regReads]
    refine (ih h.2.2).bind_safe fun v _ => ?_
    cases op.apply1 v <;> simp [Fault.atExpr]
  | binop op a b iha ihb =>
    rw [eval, regReads]
    refine (iha h.2.2.1).bind fun v _ => (ihb h.2.2.2).bind_safe fun u _ => ?_
    cases op.apply2 v u <;> simp [Fault.atExpr]
  | load ty a ih =>
    rw [eval, regReads]
    exact (h.2.2.elim ih ih).bind_safe (by simp)
  | call callee ty args ih =>
    -- the types of the arguments do not matter, only that they have some
    obtain ⟨-, -, -, tys, htys, -⟩ := h
    have hargs : ∀ a ∈ args, CrashesBy (m.eval a) (m.regReads a) := by
      intro a ha
      obtain ⟨U, hU⟩ := htys.exists_of_mem ha
      exact ih a ha hU
    rw [eval, regReads]
    refine (crashesBy_evalAll hargs).bind_safe fun vs _ => ?_
    cases hf : m.env.helper callee with
    | none => simp [Fault.atExpr]
    | some f => exact bind_ne_crash (henv.helper callee f hf vs) (by simp)
  | select c z x ihc ihz ihx =>
    rw [eval, regReads]
    exact (ihc h.1).bind fun _ _ => (ihz h.2.1).bind fun _ _ => (ihx h.2.2).bind_safe (by simp)

/-! ## Statements -/

/-- What is left of a step besides the machine: that it failed, and why. -/
def Step.fault : Step → Except Fault Unit
  | .next _ | .leave _ _ => .ok ()
  | .fail f _ => .error f

theorem crashesBy_attempt {x : Except Fault Machine} {as : List RegAccess} (h : CrashesBy x as) :
    CrashesBy (m.attempt x).fault as := by
  unfold CrashesBy at h ⊢
  rw [← h]
  cases x <;> simp [attempt, Step.fault]

theorem define_ne_crash (t : Temp) (v : UInt64) : m.define t v ≠ .error .crash :=
  bind_ne_crash (tempTy_ne_crash m.temps t) (by simp)

theorem crashesBy_effectAddr (henv : m.env.CrashFree) (hs : m.state.Sized) {x : Effect}
    (h : x.Ok P temps defs) :
    CrashesBy (m.effectAddr x) (if x.touchesMem = true then m.regReads x.memAddr else []) := by
  unfold effectAddr
  split
  · rename_i htouch
    obtain ⟨U, hU⟩ := h.memAddr htouch
    exact crashesBy_eval henv hs hU
  · simp [crashesBy_nil]

theorem crashesBy_fire (henv : m.env.CrashFree) (hs : m.state.Sized) {x : Effect}
    (h : x.Ok P temps defs) : CrashesBy (m.fire x) (m.regAccesses (.effect x)) := by
  rw [fire_eq_bind, regAccesses]
  refine (crashesBy_effectAddr henv hs h).bind fun addr _ => ?_
  refine (crashesBy_eval henv hs h.guard).bind fun g _ => ?_
  by_cases hz : g = 0
  · simp [hz, crashesBy_nil]
  · rw [if_neg hz, if_neg hz]
    have hargs : ∀ a ∈ x.args, CrashesBy (m.eval a) (m.regReads a) := by
      intro a ha
      obtain ⟨U, hU⟩ := h.args a ha
      exact crashesBy_eval henv hs hU
    refine (crashesBy_evalAll hargs).bind_safe fun vs _ => ?_
    cases hf : m.env.effect x.callee with
    | none => simp [Fault.atStmt]
    | some f =>
      exact bind_ne_crash (henv.effect x.callee f hf m.state vs addr hs).1 (by simp)

/-- An effect crashes exactly if it does before its result is kept. -/
theorem crashesBy_step_effect {x : Effect} {as : List RegAccess} (h : CrashesBy (m.fire x) as) :
    CrashesBy (m.step (.effect x)).fault as := by
  unfold CrashesBy at h ⊢
  rw [← h, step]
  cases hfire : m.fire x with
  | error f => simp [Step.fault]
  | ok o =>
    cases o with
    | none => simp [Step.fault]
    | some r =>
      cases hres : x.result with
      | none => simp [Step.fault]
      | some t =>
        have hsafe := crashesBy_attempt (m := m.withState r.2)
          (crashesBy_nil.mpr (define_ne_crash (m := m.withState r.2) t r.1))
        simpa [withState] using crashesBy_nil.mp hsafe

/-- A statement that keeps the rules crashes exactly if one of its accesses wraps. -/
theorem crashesBy_step (henv : m.env.CrashFree) (hs : m.state.Sized) (h : s.Ok P temps defs) :
    CrashesBy (m.step s).fault (m.regAccesses s) := by
  cases s with
  | missing => exact h.elim
  | noop | mark | fence => simp [step, Step.fault, regAccesses, crashesBy_nil]
  | assign dst src =>
    obtain ⟨T, hsrc, -⟩ := h
    exact crashesBy_attempt ((crashesBy_eval henv hs hsrc).bind_safe fun v _ => define_ne_crash dst v)
  | put off data =>
    obtain ⟨-, T, hdata, -⟩ := h
    refine crashesBy_attempt (.safe_bind (data.typeIn_ne_crash m.temps) fun U _ => ?_)
    exact (crashesBy_eval henv hs hdata).bind fun v _ =>
      (State.crashesBy_writeReg hs v).bind_safe (by simp)
  | putIx w ix bias data =>
    obtain ⟨hw, -, hix, hdata⟩ := h
    refine crashesBy_attempt ((crashesBy_eval henv hs hix).bind fun i _ => ?_)
    exact (crashesBy_eval henv hs hdata).bind fun v _ =>
      .safe_bind (element_ne_crash hw i bias) fun off _ =>
        (State.crashesBy_writeReg hs v).bind_safe (by simp)
  | store addr data =>
    obtain ⟨haddr, T, hdata⟩ := h
    have ha : CrashesBy (m.eval addr) (m.regReads addr) :=
      haddr.elim (crashesBy_eval henv hs) (crashesBy_eval henv hs)
    refine crashesBy_attempt (ha.bind fun a _ => ?_)
    exact .safe_bind (data.typeIn_ne_crash m.temps) fun U _ =>
      (crashesBy_eval henv hs hdata).bind_safe (by simp)
  | effect x => exact crashesBy_step_effect (crashesBy_fire henv hs h)
  | exit guard kind dst =>
    have hg := crashesBy_eval henv hs h.1
    unfold CrashesBy at hg ⊢
    rw [regAccesses, ← hg, step]
    cases m.eval guard with
    | error f => simp [Step.fault]
    | ok g => by_cases hz : g = 0 <;> simp [hz, Step.fault]

/-- Going on keeps the register file within a word. -/
theorem sized_of_step (henv : m.env.CrashFree) (hs : m.state.Sized) (hstep : m.step s = .next m') :
    m'.state.Sized := by
  cases s with
  | missing => exact absurd hstep step_missing
  | noop | mark | fence =>
    rw [← Step.next.inj hstep]
    exact hs
  | assign dst src =>
    obtain ⟨v, T, -, -, rfl⟩ := step_assign.mp hstep
    exact hs
  | put off data =>
    obtain ⟨T, v, st, -, -, hst, rfl⟩ := step_put.mp hstep
    exact (State.size_writeReg hst).trans_lt hs
  | putIx w ix bias data =>
    obtain ⟨i, v, off, st, -, -, -, hst, rfl⟩ := step_putIx.mp hstep
    exact (State.size_writeReg hst).trans_lt hs
  | store addr data =>
    obtain ⟨a, T, v, -, -, -, rfl⟩ := step_store.mp hstep
    simpa [State.Sized] using hs
  | effect x =>
    obtain ⟨addr, g, -, -, ⟨-, rfl⟩ | ⟨-, vs, f, r, st, -, hf, hr, hafter⟩⟩ := step_effect.mp hstep
    · exact hs
    · rw [hafter.state]
      exact (henv.effect x.callee f hf m.state vs addr hs).2 r st hr
  | exit guard kind dst =>
    obtain ⟨-, rfl⟩ := step_exit.mp hstep
    exact hs

/-! ## Runs -/

/-- Statements that keep the rules, with a successor that crashes by its reads, crash by their
trace. -/
theorem crashesBy_run {ss : List Stmt} {next : Expr} (kind : JumpKind) (i : Nat)
    (henv : m.env.CrashFree) (hs : m.state.Sized) (h : Stmt.AllOk P temps defs ss)
    (hnext : ∀ m' : Machine, m'.env = m.env → m'.state.Sized →
      CrashesBy (m'.eval next) (m'.regReads next)) :
    CrashesBy (Machine.run next kind i ss m).outcome (regTrace next ss m) := by
  induction ss generalizing m defs i with
  | nil =>
    have hm := hnext m rfl hs
    unfold CrashesBy at hm ⊢
    rw [Machine.run, regTrace, ← hm]
    cases m.eval next <;> simp [Except.map]
  | cons s ss ih =>
    have hfirst := crashesBy_step henv hs h.1
    rw [Machine.run, regTrace]
    cases hstep : m.step s with
    | next m₁ =>
      -- the statement went on, so a wrapping access can only be one of the rest
      rw [hstep] at hfirst
      have henv₁ := step_env hstep
      exact hfirst.append (ih (i + 1) (henv₁ ▸ henv) (sized_of_step henv hs hstep) h.2
        fun m' he hm' => hnext m' (he.trans henv₁) hm')
    | leave k dst => simpa [CrashesBy, hstep, Step.fault] using hfirst
    | fail f st => simpa [CrashesBy, hstep, Step.fault] using hfirst

end Machine

/-- A block that keeps the rules crashes exactly if one of the accesses of the run wraps. -/
theorem Block.Typed.crashesBy_run {P : Policy} {b : Block} {env : Env} {s : State}
    (hb : b.Typed P) (henv : env.CrashFree) (hs : s.Sized) :
    CrashesBy (b.run s env).outcome (b.regTrace s env) := by
  refine Machine.crashesBy_run (m := .start b.temps env s) b.kind 0 henv hs hb.stmts ?_
  intro m he hm
  have henv' : m.env.CrashFree := by rwa [he]
  rcases hb.next with haddr | ⟨c, hc, -⟩
  · exact haddr.elim (Machine.crashesBy_eval henv' hm) (Machine.crashesBy_eval henv' hm)
  · simp [hc, Machine.eval, Machine.regReads, crashesBy_nil]

/-! ## Blocks without wrapping accesses -/

/-- The policy of accesses that end at offsets, wherever they are made. -/
def Policy.inWord : Policy where
  slot off ty := off.toInt + ty.bytes < 2 ^ 63
  window w _ := w.Unwrapped
  helper _ _ _ := True
  effect _ _ _ := True
  exit _ := True

namespace Machine

variable {m : Machine} {temps : Array Ty} {defs : List Temp} {e : Expr} {T : Ty} {s : Stmt}

theorem not_wraps_elementAt {w : Window} (hw : w.Proper) (hun : w.Unwrapped) (i : UInt64)
    (bias : Int64) : ∀ a ∈ elementAt w i bias, ¬a.Wraps := by
  rw [elementAt, forall_mem_behind]
  intro off hoff a ha
  rw [List.mem_singleton.mp ha]
  have hin := Window.offset?_bounds hw hun (element_eq_ok.mp hoff)
  unfold Window.Unwrapped at hun
  unfold RegAccess.Wraps
  simp only
  omega

theorem not_wraps_regReadsAll {es : List Expr} (h : ∀ e ∈ es, ∀ a ∈ m.regReads e, ¬a.Wraps) :
    ∀ a ∈ m.regReadsAll es, ¬a.Wraps := by
  induction es with
  | nil => simp [regReadsAll]
  | cons e es ih =>
    rw [List.forall_mem_cons] at h
    rw [regReadsAll, List.forall_mem_append, forall_mem_behind]
    exact ⟨h.1, fun _ _ => ih h.2⟩

/-- The reads of an expression under the policy do not wrap. -/
theorem not_wraps_regReads (h : e.HasTy .inWord temps defs T) :
    ∀ a ∈ m.regReads e, ¬a.Wraps := by
  induction e generalizing T with
  | missing => exact h.elim
  | tmp | const => simp [regReads]
  | get off ty =>
    rw [regReads, List.forall_mem_singleton]
    exact fun hwraps => absurd hwraps.2 (not_le.mpr h.2.2.2)
  | getIx w ix bias ih =>
    obtain ⟨-, hw, hun, hix⟩ := h
    rw [regReads, List.forall_mem_append, forall_mem_behind]
    exact ⟨ih hix, fun i _ => not_wraps_elementAt hw hun i bias⟩
  | unop op a ih =>
    rw [regReads]
    exact ih h.2.2
  | binop op a b iha ihb =>
    rw [regReads, List.forall_mem_append, forall_mem_behind]
    exact ⟨iha h.2.2.1, fun _ _ => ihb h.2.2.2⟩
  | load ty a ih =>
    rw [regReads]
    exact h.2.2.elim ih ih
  | call callee ty args ih =>
    obtain ⟨-, -, -, tys, htys, -⟩ := h
    rw [regReads]
    refine not_wraps_regReadsAll fun a ha => ?_
    obtain ⟨U, hU⟩ := htys.exists_of_mem ha
    exact ih a ha hU
  | select c z x ihc ihz ihx =>
    rw [regReads, List.forall_mem_append, forall_mem_behind]
    refine ⟨ihc h.1, fun _ _ => ?_⟩
    rw [List.forall_mem_append, forall_mem_behind]
    exact ⟨ihz h.2.1, fun _ _ => ihx h.2.2⟩

theorem not_wraps_effect {x : Effect} (h : x.Ok .inWord temps defs) :
    ∀ a ∈ m.regAccesses (.effect x), ¬a.Wraps := by
  rw [regAccesses, List.forall_mem_append, forall_mem_behind]
  refine ⟨?_, fun _ _ => ?_⟩
  · split
    · rename_i htouch
      obtain ⟨U, hU⟩ := h.memAddr htouch
      exact not_wraps_regReads hU
    · simp
  · rw [List.forall_mem_append, forall_mem_behind]
    refine ⟨not_wraps_regReads h.guard, fun g _ => ?_⟩
    -- under a false guard the arguments are not evaluated
    split
    · simp
    · refine not_wraps_regReadsAll fun a ha => ?_
      obtain ⟨U, hU⟩ := h.args a ha
      exact not_wraps_regReads hU

/-- The accesses of a statement under the policy do not wrap. -/
theorem not_wraps_regAccesses (h : s.Ok .inWord m.temps defs) :
    ∀ a ∈ m.regAccesses s, ¬a.Wraps := by
  cases s with
  | missing => exact h.elim
  | noop | mark | fence => simp [regAccesses]
  | assign dst src =>
    obtain ⟨T, hsrc, -⟩ := h
    exact not_wraps_regReads hsrc
  | put off data =>
    obtain ⟨-, T, hdata, hslot⟩ := h
    rw [regAccesses, forall_mem_behind]
    intro U hU
    -- the type under which the value is written is the one that the rules speak of
    rw [hdata.typeIn, Except.ok.injEq] at hU
    subst hU
    rw [List.forall_mem_append, forall_mem_behind]
    refine ⟨not_wraps_regReads hdata, fun _ _ => ?_⟩
    rw [List.forall_mem_singleton]
    exact fun hwraps => absurd hwraps.2 (not_le.mpr hslot)
  | putIx w ix bias data =>
    obtain ⟨hw, hun, hix, hdata⟩ := h
    rw [regAccesses, List.forall_mem_append, forall_mem_behind]
    refine ⟨not_wraps_regReads hix, fun i _ => ?_⟩
    rw [List.forall_mem_append, forall_mem_behind]
    exact ⟨not_wraps_regReads hdata, fun _ _ => not_wraps_elementAt hw hun i bias⟩
  | store addr data =>
    obtain ⟨haddr, T, hdata⟩ := h
    rw [regAccesses, List.forall_mem_append, forall_mem_behind]
    refine ⟨haddr.elim not_wraps_regReads not_wraps_regReads, fun _ _ => ?_⟩
    rw [forall_mem_behind]
    exact fun _ _ => not_wraps_regReads hdata
  | effect x => exact not_wraps_effect h
  | exit guard kind dst => exact not_wraps_regReads h.1

theorem not_wraps_regTrace {ss : List Stmt} {next : Expr}
    (h : Stmt.AllOk .inWord m.temps defs ss)
    (hnext : ∀ m' : Machine, ∀ a ∈ m'.regReads next, ¬a.Wraps) :
    ∀ a ∈ regTrace next ss m, ¬a.Wraps := by
  induction ss generalizing m defs with
  | nil => exact hnext m
  | cons s ss ih =>
    rw [regTrace, List.forall_mem_append]
    refine ⟨not_wraps_regAccesses h.1, ?_⟩
    cases hstep : m.step s with
    | next m₁ => exact ih (step_temps hstep ▸ h.2)
    | leave | fail => simp

end Machine

namespace Block

/-- Every access that the text of the block admits ends at an offset. -/
structure InWord (b : Block) : Prop where
  get : ∀ (off : Int64) (ty : Ty), .get off ty ∈ b.nodes → off.toInt + ty.bytes < 2 ^ 63
  getIx : ∀ (w : Window) ix bias, .getIx w ix bias ∈ b.nodes → w.Unwrapped
  put : ∀ (off : Int64) (data : Expr) (T : Ty), .put off data ∈ b.stmts →
    data.typeIn b.temps = .ok T → off.toInt + T.bytes < 2 ^ 63
  putIx : ∀ (w : Window) ix bias data, .putIx w ix bias data ∈ b.stmts → w.Unwrapped

variable {b : Block} {s : Stmt} {e : Expr}

theorem InWord.allows (h : b.InWord) (he : e ∈ b.nodes) : Policy.inWord.Allows b.temps e := by
  cases e with
  | get off ty => exact h.get off ty he
  | getIx w ix bias => exact h.getIx w ix bias he
  | call => exact fun _ _ => trivial
  | _ => trivial

theorem InWord.allowsStmt (h : b.InWord) (hs : s ∈ b.stmts) :
    Policy.inWord.AllowsStmt b.temps s := by
  cases s with
  | put off data => exact fun T hT => h.put off data T hs hT
  | putIx w ix bias data => exact h.putIx w ix bias data hs
  | _ => trivial

theorem Typed.inWord (hb : b.Typed .any) (h : b.InWord) : b.Typed .inWord :=
  hb.of_allows (fun _ hs => ⟨h.allowsStmt hs, fun _ he => h.allows (mem_nodes_of_stmt hs he)⟩)
    (fun _ he => h.allows (mem_nodes_of_next he)) fun _ _ => trivial

/-- No run of a block under the policy attempts an access that wraps. -/
theorem Typed.not_wraps_regTrace (hb : b.Typed .inWord) (st : State) (env : Env) :
    ∀ a ∈ b.regTrace st env, ¬a.Wraps := by
  refine Machine.not_wraps_regTrace (m := .start b.temps env st) hb.stmts fun m => ?_
  rcases hb.next with haddr | ⟨c, hc, -⟩
  · exact haddr.elim Machine.not_wraps_regReads Machine.not_wraps_regReads
  · simp [hc, Machine.regReads]

end Block

/-- A well-formed block, run on a register file of any size with any contents and with helpers that
do not crash, crashes if one of the register accesses it attempts wraps; otherwise it gives a result
or names a broken rule. So it always does where all accesses that its text admits end at offsets. -/
theorem checked_run_answers {b : Block} {env : Env} {s : State} (hb : b.check false = .ok ())
    (henv : env.CrashFree) (hs : s.Sized) :
    ((∃ a ∈ b.regTrace s env, a.Wraps) → (b.run s env).outcome = .error .crash) ∧
      ((∀ a ∈ b.regTrace s env, ¬a.Wraps) → (b.run s env).Answered) ∧
      (b.InWord → (b.run s env).Answered) := by
  obtain ⟨htyped, -⟩ := Block.check_eq_ok_iff.mp hb
  have hcrash : CrashesBy (b.run s env).outcome (b.regTrace s env) := htyped.crashesBy_run henv hs
  have hanswer : (∀ a ∈ b.regTrace s env, ¬a.Wraps) → (b.run s env).Answered := by
    intro hnone
    rw [Run.answered_iff]
    intro hc
    obtain ⟨a, ha, hwraps⟩ := hcrash.mp hc
    exact hnone a ha hwraps
  exact ⟨hcrash.mpr, hanswer, fun hin => hanswer ((htyped.inWord hin).not_wraps_regTrace s env)⟩

theorem Env.bump_crashFree : Env.bump.CrashFree := by
  constructor
  · intro callee f hf vs
    rw [← Option.some.inj hf]
    simp
  · intro callee f hf s vs addr hs
    rw [← Option.some.inj hf]
    refine ⟨by simp, fun r s' h => ?_⟩
    rw [← (Prod.mk.inj (Except.ok.inj h)).2]
    exact hs

/-- The accesses of a block that suits a file end where the file does, or before. -/
theorem Block.Suits.inWord {b : Block} {env : Env} {n : Nat} (h : b.Suits env n)
    (hn : n < 2 ^ 63) : b.InWord where
  get off ty he := (h.get off ty he).trans_lt (by exact_mod_cast hn)
  getIx w ix bias he := (h.getIx w ix bias he).trans_lt (by exact_mod_cast hn)
  put off data T hs hT := (h.put off data T hs hT).trans_lt (by exact_mod_cast hn)
  putIx w ix bias data hs := (h.putIx w ix bias data hs).trans_lt (by exact_mod_cast hn)

/-- A file too small for the block is reported, not run into. -/
theorem checked_run_answers_bump :
    Block.bump.check false = .ok () ∧ Env.bump.CrashFree ∧ Block.bump.InWord ∧
      (Block.bump.run (.zero 4) .bump).Answered :=
  have hin : Block.bump.InWord := Block.bump_suits.inWord (by decide)
  have hs : (State.zero 4).regs.size < 2 ^ 63 := by decide
  ⟨rfl, Env.bump_crashFree, hin,
    (checked_run_answers rfl Env.bump_crashFree hs).2.2 hin⟩

/-- Writes a byte at the last offset there is. -/
def Block.lastByte : Block where
  temps := #[]
  stmts := [.put 9223372036854775807 (.const ⟨.u8, 1⟩)]
  next := .const ⟨.u64, 0⟩
  kind := .boring

/-- The write is admitted, and it crashes the run: the file is not compared with where it ends. -/
theorem checked_run_crashes_lastByte :
    Block.lastByte.check false = .ok () ∧
      (Block.lastByte.run (.zero 16) .bump).outcome = .error .crash :=
  ⟨rfl, rfl⟩

end Straightline
