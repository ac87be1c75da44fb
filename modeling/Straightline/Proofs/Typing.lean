import Mathlib
import Straightline.WellFormed

/-!
# Typing rules

The rules that a well-formed block keeps, stated without reference to the order in which a checker
visits it: `Expr.HasTy`, `Stmt.Ok` and `Block.Typed`. A rule may ask more than the data model does.
What it asks is a `Policy`: which register slots, windows, helper signatures, effects and exit
targets are acceptable. The data model is the policy `Policy.any`, and
`Block.check_eq_ok_iff` says that the checker accepts exactly the blocks that keep its rules, in
flat mode the flat ones among them.

Rewriting a block keeps its rules under every policy, so that what a policy says of the original
(its accesses lie in the register file, its helpers are known) is known of the result as well.
-/

namespace Straightline

/-! ## Sequences that may fail -/

theorem bind_eq_ok {ε α β : Type} {x : Except ε α} {f : α → Except ε β} {b : β} :
    (x >>= f) = .ok b ↔ ∃ a, x = .ok a ∧ f a = .ok b := by
  cases x with
  | error e => simp [bind, Except.bind]
  | ok a => simp [bind, Except.bind]

@[simp] theorem require_eq_ok {p : Prop} [Decidable p] {f : Fault} {u : Unit} :
    require p f = .ok u ↔ p := by
  unfold require
  split <;> simp_all

theorem forM_eq_ok {α : Type} {f : α → Except Fault Unit} {l : List α} {u : Unit} :
    forM l f = .ok u ↔ ∀ a ∈ l, f a = .ok () := by
  induction l with
  | nil => simp [pure, Except.pure]
  | cons a l ih =>
    rw [List.forM_cons, bind_eq_ok, List.forall_mem_cons, ih]
    exact ⟨fun ⟨_, ha, hl⟩ => ⟨ha, hl⟩, fun ⟨ha, hl⟩ => ⟨(), ha, hl⟩⟩

/-! ## Policies -/

/-- What a block may touch, call and jump to, beyond the rules of the data model. -/
structure Policy where
  /-- Reads and writes of a value of the given type at a fixed offset. -/
  slot : Int64 → Ty → Prop
  /-- Accesses through a window with the given displacement. -/
  window : Window → Int64 → Prop
  /-- Calls of a pure helper with the given result and argument types. -/
  helper : String → Ty → List Ty → Prop
  /-- Effects with the given number of arguments and declared register touches. -/
  effect : String → Nat → List RegTouch → Prop
  /-- Exit targets. -/
  exit : Const → Prop

namespace Policy

/-- The policy of the data model, which asks nothing. -/
def any : Policy :=
  ⟨fun _ _ => True, fun _ _ => True, fun _ _ _ => True, fun _ _ _ => True, fun _ => True⟩

@[simp] theorem any_slot (off : Int64) (ty : Ty) : Policy.any.slot off ty := trivial

@[simp] theorem any_window (w : Window) (bias : Int64) : Policy.any.window w bias := trivial

@[simp] theorem any_helper (callee : String) (ty : Ty) (tys : List Ty) :
    Policy.any.helper callee ty tys := trivial

@[simp] theorem any_effect (callee : String) (n : Nat) (state : List RegTouch) :
    Policy.any.effect callee n state := trivial

@[simp] theorem any_exit (c : Const) : Policy.any.exit c := trivial

/-- `Q` asks no more than `P` does. -/
structure Le (P Q : Policy) : Prop where
  slot : ∀ off ty, P.slot off ty → Q.slot off ty
  window : ∀ w bias, P.window w bias → Q.window w bias
  helper : ∀ callee ty tys, P.helper callee ty tys → Q.helper callee ty tys
  effect : ∀ callee n state, P.effect callee n state → Q.effect callee n state
  exit : ∀ c, P.exit c → Q.exit c

theorem Le.refl (P : Policy) : P.Le P :=
  ⟨fun _ _ => id, fun _ _ => id, fun _ _ _ => id, fun _ _ _ => id, fun _ => id⟩

theorem Le.trans {P Q R : Policy} (h : P.Le Q) (h' : Q.Le R) : P.Le R :=
  ⟨fun _ _ hp => h'.slot _ _ (h.slot _ _ hp), fun _ _ hp => h'.window _ _ (h.window _ _ hp),
    fun _ _ _ hp => h'.helper _ _ _ (h.helper _ _ _ hp),
    fun _ _ _ hp => h'.effect _ _ _ (h.effect _ _ _ hp), fun _ hp => h'.exit _ (h.exit _ hp)⟩

theorem Le.any (P : Policy) : P.Le Policy.any :=
  ⟨fun _ _ _ => trivial, fun _ _ _ => trivial, fun _ _ _ _ => trivial, fun _ _ _ _ => trivial,
    fun _ _ => trivial⟩

end Policy

/-! ## Rules -/

/-- A window that has elements and lies at an offset. -/
def Window.Proper (w : Window) : Prop := 0 < w.count ∧ w.elem.bytes ≠ 0 ∧ 0 ≤ w.base

namespace Expr

mutual

/-- The expression has type `T`, given the defined temporaries. -/
def HasTy (P : Policy) (temps : Array Ty) (defs : List Temp) : Expr → Ty → Prop
  | missing, _ => False
  | tmp t, T => tempTy temps t = .ok T ∧ t ∈ defs
  | const c, T => c.ty = T ∧ T ≠ .invalid ∧ c.fits = true
  | get off ty, T => ty = T ∧ 0 ≤ off ∧ ty.bytes ≠ 0 ∧ P.slot off ty
  | getIx w ix bias, T =>
    w.elem = T ∧ w.Proper ∧ P.window w bias ∧ HasTy P temps defs ix .i32
  | unop op a, T => op.result = T ∧ op.arity = 1 ∧ HasTy P temps defs a op.arg1
  | binop op a b, T =>
    op.result = T ∧ op.arity = 2 ∧ HasTy P temps defs a op.arg1 ∧ HasTy P temps defs b op.arg2
  | load ty a, T =>
    ty = T ∧ ty.bytes ≠ 0 ∧ (HasTy P temps defs a .i32 ∨ HasTy P temps defs a .i64)
  | call callee ty args, T =>
    ty = T ∧ callee ≠ "" ∧ ty.bytes ≠ 0 ∧
      ∃ tys, HaveTys P temps defs args tys ∧ P.helper callee ty tys
  | select c z x, T => HasTy P temps defs c .i8 ∧ HasTy P temps defs z T ∧ HasTy P temps defs x T

/-- The expressions have the given types, one by one. -/
def HaveTys (P : Policy) (temps : Array Ty) (defs : List Temp) : List Expr → List Ty → Prop
  | [], [] => True
  | e :: es, t :: ts => HasTy P temps defs e t ∧ HaveTys P temps defs es ts
  | _, _ => False

end

/-- The expression has one of the types of addresses. -/
def IsAddress (P : Policy) (temps : Array Ty) (defs : List Temp) (e : Expr) : Prop :=
  e.HasTy P temps defs .i32 ∨ e.HasTy P temps defs .i64

end Expr

/-- A declared touch of registers that says what it does and where. -/
def RegTouch.Ok (t : RegTouch) : Prop :=
  (t.touch ≠ .none ∧ t.touch.isValid = true) ∧ 0 ≤ t.off ∧ 0 < t.size

namespace Effect

/-- The declared touch of memory: none at all, or a named one with an address and a size. -/
def MemOk (P : Policy) (temps : Array Ty) (defs : List Temp) (e : Effect) : Prop :=
  match e.memTouch with
  | .none => e.memAddr = .missing ∧ e.memSize = 0
  | .read | .write | .modify => e.memAddr.IsAddress P temps defs ∧ 0 < e.memSize
  | .other _ => False

/-- The rules of an effect, given the defined temporaries. -/
structure Ok (P : Policy) (temps : Array Ty) (defs : List Temp) (e : Effect) : Prop where
  callee : e.callee ≠ ""
  guard : e.guard.HasTy P temps defs .i1
  args : ∀ a ∈ e.args, ∃ T, a.HasTy P temps defs T
  mem : e.MemOk P temps defs
  state : ∀ t ∈ e.state, t.Ok
  policy : P.effect e.callee e.args.length e.state
  /-- A result is defined only by an effect that is sure to happen. -/
  result : ∀ t, e.result = some t →
    WellFormed.isTrueConst e.guard = true ∧ (∃ T, tempTy temps t = .ok T) ∧ t ∉ defs

end Effect

namespace Stmt

/-- The rules of a statement, given the temporaries defined before it. -/
def Ok (P : Policy) (temps : Array Ty) (defs : List Temp) : Stmt → Prop
  | missing => False
  | noop | fence => True
  | mark _ len => 0 ≤ len
  | assign dst src =>
    ∃ T, src.HasTy P temps defs T ∧ tempTy temps dst = .ok T ∧ dst ∉ defs
  | put off data => 0 ≤ off ∧ ∃ T, data.HasTy P temps defs T ∧ P.slot off T
  | putIx w ix bias data =>
    w.Proper ∧ P.window w bias ∧ ix.HasTy P temps defs .i32 ∧ data.HasTy P temps defs w.elem
  | store addr data => addr.IsAddress P temps defs ∧ ∃ T, data.HasTy P temps defs T
  | effect e => e.Ok P temps defs
  | exit guard kind dst =>
    guard.HasTy P temps defs .i1 ∧ (dst.tag = .u32 ∨ dst.tag = .u64) ∧ kind.isValid = true ∧
      P.exit dst

/-- The temporaries defined after the statement. -/
def defsAfter (s : Stmt) (defs : List Temp) : List Temp := s.def?.toList ++ defs

/-- The temporaries defined after several statements. -/
def defsAfterAll : List Stmt → List Temp → List Temp
  | [], defs => defs
  | s :: ss, defs => defsAfterAll ss (s.defsAfter defs)

/-- The rules of statements in order. -/
def AllOk (P : Policy) (temps : Array Ty) : List Temp → List Stmt → Prop
  | _, [] => True
  | defs, s :: ss => s.Ok P temps defs ∧ AllOk P temps (s.defsAfter defs) ss

/-- The form of flat code: operands are atoms, and so are those of the right side of an
assignment. -/
def Flat : Stmt → Prop
  | assign _ src => ∀ e ∈ src.children, e.isAtom = true
  | s => ∀ e ∈ s.operands, e.isAtom = true

end Stmt

namespace Block

/-- The successor: an address, or a constant that would do as the target of an exit. -/
def NextOk (P : Policy) (b : Block) : Prop :=
  b.next.IsAddress P b.temps (Stmt.defsAfterAll b.stmts []) ∨
    ∃ c : Const, b.next = .const c ∧ (c.tag = .u32 ∨ c.tag = .u64) ∧ P.exit c

/-- The rules of a block. -/
structure Typed (P : Policy) (b : Block) : Prop where
  temps : ∀ t ∈ b.temps, t.bytes ≠ 0
  stmts : Stmt.AllOk P b.temps [] b.stmts
  next : b.NextOk P
  kind : b.kind.isValid = true

/-- Flat form. -/
def Flat (b : Block) : Prop := (∀ s ∈ b.stmts, s.Flat) ∧ b.next.isAtom = true

/-- The successor is an address of its own right, its constant within the width of its tag. -/
def NextFits (b : Block) : Prop := ∀ c, b.next = .const c → c.fits = true

end Block

/-! ## Argument lists -/

namespace Expr

theorem exists_haveTys_iff {P : Policy} {temps : Array Ty} {defs : List Temp} {es : List Expr} :
    (∃ tys, HaveTys P temps defs es tys) ↔ ∀ e ∈ es, ∃ T, HasTy P temps defs e T := by
  induction es with
  | nil => simpa using ⟨[], by simp [HaveTys]⟩
  | cons e es ih =>
    rw [List.forall_mem_cons, ← ih]
    constructor
    · rintro ⟨tys, h⟩
      cases tys with
      | nil => simp [HaveTys] at h
      | cons T tys => exact ⟨⟨T, h.1⟩, ⟨tys, h.2⟩⟩
    · rintro ⟨⟨T, hT⟩, ⟨tys, htys⟩⟩
      exact ⟨T :: tys, hT, htys⟩

end Expr

/-! ## What the checker decides -/

namespace WellFormed

theorem checkExprs_eq_ok {temps : Array Ty} {defs : List Temp} {es : List Expr} {u : Unit} :
    checkExprs temps defs es = .ok u ↔ ∀ e ∈ es, ∃ T, checkExpr temps defs e = .ok T := by
  induction es with
  | nil => simp [checkExprs]
  | cons e es ih =>
    simp only [checkExprs, bind_eq_ok, ih, List.forall_mem_cons]
    exact ⟨fun ⟨T, hT, hes⟩ => ⟨⟨T, hT⟩, hes⟩, fun ⟨⟨T, hT⟩, hes⟩ => ⟨T, hT, hes⟩⟩

/-- The checker finds the type that the rules give. -/
theorem checkExpr_eq_ok {temps : Array Ty} {defs : List Temp} {e : Expr} {T : Ty} :
    checkExpr temps defs e = .ok T ↔ e.HasTy .any temps defs T := by
  induction e generalizing T with
  | missing => simp [checkExpr, Expr.HasTy]
  | tmp t => simp [checkExpr, Expr.HasTy, bind_eq_ok]
  | const c =>
    simp only [checkExpr, Expr.HasTy, bind_eq_ok, require_eq_ok, exists_const, Except.ok.injEq]
    grind
  | get off ty =>
    simp only [checkExpr, Expr.HasTy, bind_eq_ok, require_eq_ok, exists_const, Except.ok.injEq,
      Policy.any_slot]
    tauto
  | getIx w ix bias ih =>
    simp only [checkExpr, Expr.HasTy, bind_eq_ok, require_eq_ok, exists_const, Except.ok.injEq,
      checkWindow, ih, Policy.any_window, Window.Proper]
    grind
  | unop op a ih =>
    simp only [checkExpr, Expr.HasTy, bind_eq_ok, require_eq_ok, exists_const, Except.ok.injEq, ih]
    grind
  | binop op a b iha ihb =>
    simp only [checkExpr, Expr.HasTy, bind_eq_ok, require_eq_ok, exists_const, Except.ok.injEq,
      iha, ihb]
    grind
  | load ty a ih =>
    simp only [checkExpr, Expr.HasTy, bind_eq_ok, require_eq_ok, exists_const, Except.ok.injEq,
      checkAddressTy, ih]
    grind
  | call callee ty args ih =>
    have hargs : (∀ e ∈ args, ∃ T, checkExpr temps defs e = .ok T) ↔
        ∃ tys, Expr.HaveTys .any temps defs args tys := by
      rw [Expr.exists_haveTys_iff]
      exact forall₂_congr fun e he => exists_congr fun T => ih e he
    simp only [checkExpr, Expr.HasTy, bind_eq_ok, require_eq_ok, exists_const, Except.ok.injEq,
      checkExprs_eq_ok, hargs, Policy.any_helper, and_true]
    tauto
  | select c z x ihc ihz ihx =>
    simp only [checkExpr, Expr.HasTy, bind_eq_ok, require_eq_ok, exists_const, Except.ok.injEq,
      ihc, ihz, ihx]
    grind

/-- An address is what the checker takes for one. -/
theorem checkAddress_eq_ok {temps : Array Ty} {defs : List Temp} {use : AddressUse} {e : Expr}
    {u : Unit} :
    checkAddress temps defs use e = .ok u ↔ e.IsAddress .any temps defs := by
  simp only [checkAddress, bind_eq_ok, checkAddressTy, require_eq_ok, checkExpr_eq_ok,
    Expr.IsAddress]
  grind

theorem checkAtom_eq_ok {flat : Bool} {e : Expr} {u : Unit} :
    checkAtom flat e = .ok u ↔ (flat = true → e.isAtom = true) := by
  simp [checkAtom]

theorem define_eq_ok {temps : Array Ty} {defs defs' : List Temp} {t : Temp} {s : Stmt} :
    define temps defs t s = .ok defs' ↔
      (∃ T, tempTy temps t = .ok T) ∧ t ∉ defs ∧ t :: defs = defs' := by
  simp only [define, bind_eq_ok, require_eq_ok, exists_const, Except.ok.injEq]
  grind

theorem checkShallow_eq_ok {flat : Bool} {e : Expr} {u : Unit} (h : e ≠ .missing) :
    checkShallow flat e = .ok u ↔ (flat = true → ∀ c ∈ e.children, c.isAtom = true) := by
  have hd : e.demand = .ok () := by
    cases e <;> first | rfl | exact absurd rfl h
  cases flat with
  | false => simp [checkShallow]
  | true =>
    simp only [checkShallow, if_true, bind_eq_ok, hd, List.forM_eq_forM, forM_eq_ok, checkAtom_eq_ok]
    simp

theorem checkMemTouch_eq_ok {temps : Array Ty} {flat : Bool} {defs : List Temp} {e : Effect}
    {u : Unit} :
    checkMemTouch temps flat defs e = .ok u ↔
      e.MemOk .any temps defs ∧ (flat = true → e.touchesMem = true → e.memAddr.isAtom = true) := by
  have hmissing : e.memAddr.isMissing = true ↔ e.memAddr = .missing := by
    cases e.memAddr <;> simp [Expr.isMissing]
  have haddr : e.memAddr.IsAddress .any temps defs → e.memAddr.isMissing = false := by
    intro h
    by_contra hm
    rw [Bool.not_eq_false, hmissing] at hm
    rw [hm] at h
    simp [Expr.IsAddress, Expr.HasTy] at h
  unfold checkMemTouch Effect.MemOk Effect.touchesMem
  cases e.memTouch with
  | none => simp [hmissing]
  | other i => simp
  | _ =>
    simp only [bind_eq_ok, require_eq_ok, checkAtom_eq_ok, checkAddress_eq_ok, exists_const]
    grind

theorem checkRegTouch_eq_ok {e : Effect} {t : RegTouch} {u : Unit} :
    checkRegTouch e t = .ok u ↔ t.Ok := by
  simp only [checkRegTouch, bind_eq_ok, require_eq_ok, exists_const, RegTouch.Ok]

/-- What the checker asks of the result of an effect. -/
theorem checkResult_eq_ok {temps : Array Ty} {defs defs' : List Temp} {e : Effect} :
    (match e.result with
      | none => Except.ok defs
      | some t => do
        require (isTrueConst e.guard = true) (.atStmt .guardedResult (.effect e))
        define temps defs t (.effect e)) = .ok defs' ↔
      (∀ t, e.result = some t →
        isTrueConst e.guard = true ∧ (∃ T, tempTy temps t = .ok T) ∧ t ∉ defs) ∧
        e.result.toList ++ defs = defs' := by
  cases e.result with
  | none => simp
  | some t =>
    simp only [bind_eq_ok, require_eq_ok, exists_const, define_eq_ok, Option.some.injEq,
      forall_eq', Option.toList_some, List.singleton_append]
    tauto

/-- An effect keeps the rules, and is flat if it has to be, when the checker passes it. -/
theorem checkEffect_eq_ok {temps : Array Ty} {flat : Bool} {defs defs' : List Temp} {e : Effect} :
    checkEffect temps flat defs e = .ok defs' ↔
      e.Ok .any temps defs ∧ (flat = true → ∀ a ∈ e.operands, a.isAtom = true) ∧
        e.result.toList ++ defs = defs' := by
  have hops : (∀ a ∈ e.operands, a.isAtom = true) ↔
      (e.touchesMem = true → e.memAddr.isAtom = true) ∧ e.guard.isAtom = true ∧
        ∀ a ∈ e.args, a.isAtom = true := by
    unfold Effect.operands
    cases e.touchesMem <;> simp
  unfold checkEffect
  simp only [bind_eq_ok, require_eq_ok, exists_const, checkAtom_eq_ok, checkExpr_eq_ok,
    List.forM_eq_forM, forM_eq_ok, checkMemTouch_eq_ok, checkRegTouch_eq_ok, hops]
  constructor
  · rintro ⟨hcallee, hguardAtom, T, hguard, rfl, hargs, hmem, hstate, hrest⟩
    obtain ⟨hres, hdefs⟩ := checkResult_eq_ok.mp hrest
    refine ⟨⟨hcallee, hguard, fun a ha => ?_, hmem.1, hstate, trivial, hres⟩, fun hf => ?_, hdefs⟩
    · obtain ⟨-, T, hT, -⟩ := hargs a ha
      exact ⟨T, hT⟩
    · refine ⟨hmem.2 hf, hguardAtom hf, fun a ha => ?_⟩
      obtain ⟨hatom, -⟩ := hargs a ha
      exact hatom hf
  · rintro ⟨⟨hcallee, hguard, hargs, hmem, hstate, -, hres⟩, hflat, hdefs⟩
    refine ⟨hcallee, fun hf => (hflat hf).2.1, .i1, hguard, rfl, fun a ha => ?_,
      ⟨hmem, fun hf => (hflat hf).1⟩, hstate, checkResult_eq_ok.mpr ⟨hres, hdefs⟩⟩
    obtain ⟨T, hT⟩ := hargs a ha
    exact ⟨fun hf => (hflat hf).2.2 a ha, T, hT, rfl⟩

/-- A statement keeps the rules, and is flat if it has to be, when the checker passes it. -/
theorem checkStmt_eq_ok {temps : Array Ty} {flat : Bool} {defs defs' : List Temp} {s : Stmt} :
    checkStmt temps flat defs s = .ok defs' ↔
      s.Ok .any temps defs ∧ (flat = true → s.Flat) ∧ s.defsAfter defs = defs' := by
  cases s with
  | missing => simp [checkStmt, Stmt.Ok]
  | noop => simp [checkStmt, Stmt.Ok, Stmt.Flat, Stmt.operands, Stmt.defsAfter, Stmt.def?]
  | fence => simp [checkStmt, Stmt.Ok, Stmt.Flat, Stmt.operands, Stmt.defsAfter, Stmt.def?]
  | mark addr len =>
    simp [checkStmt, Stmt.Ok, Stmt.Flat, Stmt.operands, Stmt.defsAfter, Stmt.def?, bind_eq_ok]
  | assign dst src =>
    by_cases hm : src = .missing
    · simp [checkStmt, hm, Stmt.Ok, bind_eq_ok, checkExpr_eq_ok, Expr.HasTy]
    · simp only [checkStmt, bind_eq_ok, checkShallow_eq_ok hm, checkExpr_eq_ok, require_eq_ok,
        exists_const, define_eq_ok, Stmt.Ok, Stmt.Flat, Stmt.defsAfter, Stmt.def?,
        Option.toList_some, List.singleton_append]
      grind
  | put off data =>
    simp only [checkStmt, bind_eq_ok, checkAtom_eq_ok, checkExpr_eq_ok, require_eq_ok,
      exists_const, Except.ok.injEq, Stmt.Ok, Policy.any_slot, Stmt.Flat, Stmt.operands,
      Stmt.defsAfter, Stmt.def?, Option.toList_none, List.nil_append, List.mem_singleton,
      forall_eq]
    grind
  | putIx w ix bias data =>
    simp only [checkStmt, bind_eq_ok, checkAtom_eq_ok, checkExpr_eq_ok, require_eq_ok,
      exists_const, Except.ok.injEq, Stmt.Ok, Policy.any_window, Stmt.Flat, Stmt.operands,
      Stmt.defsAfter, Stmt.def?, Option.toList_none, List.nil_append, checkWindow, Window.Proper]
    grind
  | store addr data =>
    simp only [checkStmt, bind_eq_ok, checkAtom_eq_ok, checkExpr_eq_ok, checkAddress_eq_ok,
      exists_const, Except.ok.injEq, Stmt.Ok, Stmt.Flat, Stmt.operands,
      Stmt.defsAfter, Stmt.def?, Option.toList_none, List.nil_append]
    grind
  | effect e =>
    simp only [checkStmt, checkEffect_eq_ok, Stmt.Ok, Stmt.Flat, Stmt.operands, Stmt.defsAfter,
      Stmt.def?]
  | exit guard kind dst =>
    simp only [checkStmt, bind_eq_ok, checkAtom_eq_ok, checkExpr_eq_ok, require_eq_ok,
      exists_const, Except.ok.injEq, Stmt.Ok, Policy.any_exit, Stmt.Flat, Stmt.operands,
      Stmt.defsAfter, Stmt.def?, Option.toList_none, List.nil_append, List.mem_singleton,
      forall_eq]
    grind

theorem checkStmts_eq_ok {temps : Array Ty} {flat : Bool} {defs defs' : List Temp}
    {ss : List Stmt} :
    checkStmts temps flat defs ss = .ok defs' ↔
      Stmt.AllOk .any temps defs ss ∧ (flat = true → ∀ s ∈ ss, s.Flat) ∧
        Stmt.defsAfterAll ss defs = defs' := by
  induction ss generalizing defs with
  | nil => simp [checkStmts, Stmt.AllOk, Stmt.defsAfterAll]
  | cons s ss ih =>
    simp only [checkStmts, bind_eq_ok, checkStmt_eq_ok, ih, Stmt.AllOk, Stmt.defsAfterAll,
      List.forall_mem_cons]
    constructor
    · rintro ⟨_, ⟨hs, hsf, rfl⟩, hss, hssf, hdefs⟩
      exact ⟨⟨hs, hss⟩, fun hf => ⟨hsf hf, hssf hf⟩, hdefs⟩
    · rintro ⟨⟨hs, hss⟩, hf, hdefs⟩
      exact ⟨_, ⟨hs, fun h => (hf h).1, rfl⟩, hss, fun h => (hf h).2, hdefs⟩

theorem checkTemps_eq_ok {i : Nat} {ts : List Ty} {u : Unit} :
    checkTemps i ts = .ok u ↔ ∀ t ∈ ts, t.bytes ≠ 0 := by
  induction ts generalizing i with
  | nil => simp [checkTemps]
  | cons t ts ih =>
    simp only [checkTemps, bind_eq_ok, require_eq_ok, exists_const, ih, List.forall_mem_cons]

end WellFormed

/-- A successor that would do as an exit target is an address if its constant fits. -/
theorem Block.NextOk.isAddress {P : Policy} {b : Block} (h : b.NextOk P) (hfits : b.NextFits) :
    b.next.IsAddress P b.temps (Stmt.defsAfterAll b.stmts []) := by
  rcases h with haddr | ⟨c, hc, htag, -⟩
  · exact haddr
  · have hf := hfits c hc
    rw [hc]
    rcases htag with htag | htag
    · exact .inl ⟨by simp [Const.ty, htag, Tag.ty], by simp, hf⟩
    · exact .inr ⟨by simp [Const.ty, htag, Tag.ty], by simp, hf⟩

/-- The checker accepts the blocks that keep the rules of the data model and whose successor, where
it is a constant, lies within the width of its tag; in flat mode, those of them in flat form. -/
theorem Block.check_eq_ok_iff {b : Block} {flat : Bool} {u : Unit} :
    b.check flat = .ok u ↔
      b.Typed .any ∧ b.NextFits ∧ (flat = true → b.Flat) := by
  have hmissing : b.next.isMissing = false ↔ b.next ≠ .missing := by
    cases b.next <;> simp [Expr.isMissing]
  unfold Block.check
  simp only [bind_eq_ok, require_eq_ok, exists_const, WellFormed.checkTemps_eq_ok,
    WellFormed.checkStmts_eq_ok, WellFormed.checkAtom_eq_ok, WellFormed.checkAddress_eq_ok,
    hmissing, Array.mem_toList_iff]
  constructor
  · rintro ⟨htemps, _, ⟨hss, hflat, rfl⟩, -, hatom, haddr, hkind⟩
    refine ⟨⟨htemps, hss, .inl haddr, hkind⟩, fun c hc => ?_, fun hf => ⟨hflat hf, hatom hf⟩⟩
    rw [hc] at haddr
    rcases haddr with h | h
    · exact h.2.2
    · exact h.2.2
  · rintro ⟨⟨htemps, hss, hnext, hkind⟩, hfits, hflat⟩
    have haddr := hnext.isAddress hfits
    refine ⟨htemps, _, ⟨hss, fun hf => (hflat hf).1, rfl⟩, ?_, fun hf => (hflat hf).2, haddr, hkind⟩
    intro hm
    rw [hm] at haddr
    simp [Expr.IsAddress, Expr.HasTy] at haddr

end Straightline
