import Mathlib
import Straightline.Proofs.Substitution

/-!
# The data model

What a well-formed block is, said without a checker. Types are assigned by the inference rules
`Expr.Derives` and `Stmt.Derives`, which know the declared temporaries but nothing of definitions.
That every temporary is defined once and before its uses is a property of positions in the block:
`Block.defines? i` is the temporary that statement number `i` defines.

The checker decides the data model. It goes through the block once, with the set of temporaries
defined so far; a temporary is in that set at statement `i` exactly if some statement with a smaller
number defines it.
-/

namespace Straightline

/-! ## Inference rules -/

/-- A type of values. -/
def Ty.Sized (T : Ty) : Prop := T ≠ .invalid

/-- A type of addresses. -/
def Ty.IsWord (T : Ty) : Prop := T = .i32 ∨ T = .i64

/-- The temporary is declared with the type `T`. -/
def Declared (temps : Array Ty) (t : Temp) (T : Ty) : Prop :=
  0 ≤ t.toInt ∧ temps[t.toInt.toNat]? = some T

/-- The expression has the type `T`. -/
inductive Expr.Derives (temps : Array Ty) : Expr → Ty → Prop where
  | tmp {t : Temp} {T : Ty} : Declared temps t T → Derives temps (.tmp t) T
  | const {c : Const} : c.tag ≠ .invalid → c.fits = true → Derives temps (.const c) c.ty
  | get {off : Int64} {T : Ty} : 0 ≤ off → T.Sized → Derives temps (.get off T) T
  | getIx {w : Window} {ix : Expr} {bias : Int64} :
    0 < w.count → w.elem.Sized → 0 ≤ w.base → Derives temps ix .i32 →
    Derives temps (.getIx w ix bias) w.elem
  | unop {op : Op} {a : Expr} :
    op.arity = 1 → Derives temps a op.arg1 → Derives temps (.unop op a) op.result
  | binop {op : Op} {a b : Expr} :
    op.arity = 2 → Derives temps a op.arg1 → Derives temps b op.arg2 →
    Derives temps (.binop op a b) op.result
  | load {T W : Ty} {a : Expr} :
    T.Sized → W.IsWord → Derives temps a W → Derives temps (.load T a) T
  | call {callee : String} {T : Ty} {args : List Expr} (types : Expr → Ty) :
    callee ≠ "" → T.Sized → (∀ a ∈ args, Derives temps a (types a)) →
    Derives temps (.call callee T args) T
  | select {c z x : Expr} {T : Ty} :
    Derives temps c .i8 → Derives temps z T → Derives temps x T →
    Derives temps (.select c z x) T

/-- The expression is typed as an address. -/
def Expr.DerivesWord (temps : Array Ty) (e : Expr) : Prop := ∃ W, Ty.IsWord W ∧ e.Derives temps W

/-- A declared touch of registers that says what it does and where. -/
def RegTouch.Proper (t : RegTouch) : Prop :=
  (t.touch = .read ∨ t.touch = .write ∨ t.touch = .modify) ∧ 0 ≤ t.off ∧ 0 < t.size

/-- The rules of an effect: an address and a size are given exactly if memory is touched, and a
result is received only under the literal guard true. -/
structure Effect.Derives (temps : Array Ty) (e : Effect) : Prop where
  callee : e.callee ≠ ""
  guard : e.guard.Derives temps .i1
  args : ∀ a ∈ e.args, ∃ T, a.Derives temps T
  mem : (e.memTouch = .none ∧ e.memAddr = .missing ∧ e.memSize = 0) ∨
    ((e.memTouch = .read ∨ e.memTouch = .write ∨ e.memTouch = .modify) ∧
      e.memAddr.DerivesWord temps ∧ 0 < e.memSize)
  state : ∀ t ∈ e.state, t.Proper
  result : ∀ t, e.result = some t → e.guard = .const ⟨.u1, 1⟩ ∧ ∃ T, Declared temps t T

/-- The statement is typed. -/
inductive Stmt.Derives (temps : Array Ty) : Stmt → Prop where
  | noop : Derives temps .noop
  | fence : Derives temps .fence
  | mark {addr : UInt64} {len : Int64} : 0 ≤ len → Derives temps (.mark addr len)
  | assign {dst : Temp} {src : Expr} {T : Ty} :
    src.Derives temps T → Declared temps dst T → Derives temps (.assign dst src)
  | put {off : Int64} {data : Expr} {T : Ty} :
    0 ≤ off → data.Derives temps T → Derives temps (.put off data)
  | putIx {w : Window} {ix data : Expr} {bias : Int64} :
    0 < w.count → w.elem.Sized → 0 ≤ w.base → ix.Derives temps .i32 → data.Derives temps w.elem →
    Derives temps (.putIx w ix bias data)
  | store {addr data : Expr} {T : Ty} :
    addr.DerivesWord temps → data.Derives temps T → Derives temps (.store addr data)
  | effect {e : Effect} : e.Derives temps → Derives temps (.effect e)
  | exit {guard : Expr} {kind : JumpKind} {dst : Const} :
    guard.Derives temps .i1 → dst.tag = .u32 ∨ dst.tag = .u64 → kind.isValid = true →
    Derives temps (.exit guard kind dst)

namespace Block

/-- The temporary that statement number `i` defines. -/
def defines? (b : Block) (i : Nat) : Option Temp := b.stmts[i]?.bind Stmt.def?

/-- The data model. In flat mode all operands are atoms, but for the right sides of assignments,
whose operands are. -/
structure WellFormed (flat : Bool) (b : Block) : Prop where
  temps : ∀ T ∈ b.temps, T.Sized
  stmts : ∀ s ∈ b.stmts, s.Derives b.temps
  /-- Every temporary is defined at most once. -/
  once : ∀ i j t, b.defines? i = some t → b.defines? j = some t → i = j
  /-- Every temporary that a statement reads is defined by an earlier one. -/
  before : ∀ i s t, b.stmts[i]? = some s → t ∈ s.uses → ∃ j < i, b.defines? j = some t
  next : b.next.DerivesWord b.temps
  nextDefined : ∀ t ∈ b.next.uses, ∃ j, b.defines? j = some t
  kind : b.kind.isValid = true
  flat : flat = true → b.Flat

end Block

/-! ## Types and definitions apart -/

theorem Ty.sized_iff {T : Ty} : T.Sized ↔ T.bytes ≠ 0 := by
  cases T <;> simp [Ty.Sized, Ty.bytes]

theorem Ty.isWord_i32 : Ty.i32.IsWord := .inl rfl

theorem Ty.isWord_i64 : Ty.i64.IsWord := .inr rfl

theorem Const.ty_eq_invalid {c : Const} : c.ty = .invalid ↔ c.tag = .invalid := by
  cases c with
  | mk tag bits => cases tag <;> simp [Const.ty, Tag.ty]

namespace Expr

variable {temps : Array Ty} {defs : List Temp} {e : Expr} {T : Ty}

/-- What the checker finds is derivable. -/
theorem HasTy.derives (h : e.HasTy .any temps defs T) : e.Derives temps T := by
  induction e generalizing T with
  | missing => exact h.elim
  | tmp t => exact .tmp (tempTy_eq_ok.mp h.1)
  | const c =>
    obtain ⟨rfl, hty, hfits⟩ := h
    exact .const (fun htag => hty (Const.ty_eq_invalid.mpr htag)) hfits
  | get off ty =>
    obtain ⟨rfl, hoff, hbytes, -⟩ := h
    exact .get hoff (Ty.sized_iff.mpr hbytes)
  | getIx w ix bias ih =>
    obtain ⟨rfl, ⟨hcount, hbytes, hbase⟩, -, hix⟩ := h
    exact .getIx hcount (Ty.sized_iff.mpr hbytes) hbase (ih hix)
  | unop op a ih =>
    obtain ⟨rfl, harity, ha⟩ := h
    exact .unop harity (ih ha)
  | binop op a b iha ihb =>
    obtain ⟨rfl, harity, ha, hb⟩ := h
    exact .binop harity (iha ha) (ihb hb)
  | load ty a ih =>
    obtain ⟨rfl, hbytes, ha | ha⟩ := h
    · exact .load (Ty.sized_iff.mpr hbytes) Ty.isWord_i32 (ih ha)
    · exact .load (Ty.sized_iff.mpr hbytes) Ty.isWord_i64 (ih ha)
  | call callee ty args ih =>
    obtain ⟨rfl, hcallee, hbytes, tys, htys, -⟩ := h
    have hargs : ∀ a : Expr, ∃ U, a ∈ args → a.Derives temps U := by
      intro a
      by_cases ha : a ∈ args
      · obtain ⟨U, hU⟩ := htys.exists_of_mem ha
        exact ⟨U, fun _ => ih a ha hU⟩
      · exact ⟨.invalid, fun h => absurd h ha⟩
    choose types htypes using hargs
    exact .call types hcallee (Ty.sized_iff.mpr hbytes) htypes
  | select c z x ihc ihz ihx => exact .select (ihc h.1) (ihz h.2.1) (ihx h.2.2)

/-- The temporaries of an expression that the checker passes are defined. -/
theorem HasTy.defined {t : Temp} (h : e.HasTy .any temps defs T) (ht : t ∈ e.uses) : t ∈ defs := by
  obtain ⟨U, hU⟩ := h.node (mem_uses.mp ht)
  exact hU.2

/-- A derivable expression over defined temporaries passes the checker. -/
theorem Derives.hasTy (h : e.Derives temps T) (hdefs : ∀ t ∈ e.uses, t ∈ defs) :
    e.HasTy .any temps defs T := by
  -- the temporaries of an operand are temporaries of the expression
  have hsub : ∀ {e c : Expr}, e.isAtom = false → c ∈ e.children → (∀ t ∈ e.uses, t ∈ defs) →
      ∀ t ∈ c.uses, t ∈ defs := by
    intro e c hatom hc h t ht
    rw [uses_of_isAtom_eq_false hatom] at h
    exact h t (List.mem_flatMap.mpr ⟨c, hc, ht⟩)
  induction h with
  | tmp hT => exact ⟨tempTy_eq_ok.mpr hT, hdefs _ (by simp)⟩
  | const htag hfits => exact ⟨rfl, fun hty => htag (Const.ty_eq_invalid.mp hty), hfits⟩
  | get hoff hsized => exact ⟨rfl, hoff, Ty.sized_iff.mp hsized, trivial⟩
  | getIx hcount hsized hbase _ ih =>
    exact ⟨rfl, ⟨hcount, Ty.sized_iff.mp hsized, hbase⟩, trivial,
      ih (hsub rfl (by simp [children]) hdefs)⟩
  | unop harity _ ih => exact ⟨rfl, harity, ih (hsub rfl (by simp [children]) hdefs)⟩
  | binop harity _ _ iha ihb =>
    exact ⟨rfl, harity, iha (hsub rfl (by simp [children]) hdefs),
      ihb (hsub rfl (by simp [children]) hdefs)⟩
  | load hsized hword _ ih =>
    have ha := ih (hsub rfl (by simp [children]) hdefs)
    refine ⟨rfl, Ty.sized_iff.mp hsized, ?_⟩
    rcases hword with rfl | rfl
    · exact .inl ha
    · exact .inr ha
  | call types hcallee hsized _ ih =>
    obtain ⟨tys, htys⟩ := exists_haveTys_iff.mpr fun a ha =>
      ⟨types a, ih a ha (hsub rfl (by simpa [children] using ha) hdefs)⟩
    exact ⟨rfl, hcallee, Ty.sized_iff.mp hsized, tys, htys, trivial⟩
  | select _ _ _ ihc ihz ihx =>
    exact ⟨ihc (hsub rfl (by simp [children]) hdefs), ihz (hsub rfl (by simp [children]) hdefs),
      ihx (hsub rfl (by simp [children]) hdefs)⟩

/-- The checker asks of an expression that it is derivable and that its temporaries are defined. -/
theorem hasTy_any_iff :
    e.HasTy .any temps defs T ↔ e.Derives temps T ∧ ∀ t ∈ e.uses, t ∈ defs :=
  ⟨fun h => ⟨h.derives, fun _ ht => h.defined ht⟩, fun h => h.1.hasTy h.2⟩

theorem isAddress_any_iff :
    e.IsAddress .any temps defs ↔ e.DerivesWord temps ∧ ∀ t ∈ e.uses, t ∈ defs := by
  rw [IsAddress, hasTy_any_iff, hasTy_any_iff, ← or_and_right]
  refine and_congr_left fun _ => ?_
  constructor
  · rintro (h | h)
    · exact ⟨_, Ty.isWord_i32, h⟩
    · exact ⟨_, Ty.isWord_i64, h⟩
  · rintro ⟨W, rfl | rfl, h⟩
    · exact .inl h
    · exact .inr h

end Expr

section

variable {temps : Array Ty} {defs : List Temp}

theorem RegTouch.ok_iff_proper {t : RegTouch} : t.Ok ↔ t.Proper := by
  have htouch : (t.touch ≠ .none ∧ t.touch.isValid = true) ↔
      t.touch = .read ∨ t.touch = .write ∨ t.touch = .modify := by
    cases t.touch <;> simp [Touch.isValid]
  rw [RegTouch.Ok, RegTouch.Proper, htouch]

theorem WellFormed.isTrueConst_iff_eq {e : Expr} :
    isTrueConst e = true ↔ e = .const ⟨.u1, 1⟩ := by
  rw [isTrueConst_iff]
  constructor
  · rintro ⟨⟨tag, bits⟩, rfl, hc⟩
    simp only [Const.isTrue, Bool.and_eq_true, beq_iff_eq] at hc
    rw [hc.1, hc.2]
  · rintro rfl
    exact ⟨_, rfl, rfl⟩

namespace Effect

variable {e : Effect}

/-- The touch of memory that the checker asks for, types and definitions apart. -/
theorem memOk_any_iff :
    e.MemOk .any temps defs ↔
      ((e.memTouch = .none ∧ e.memAddr = .missing ∧ e.memSize = 0) ∨
        ((e.memTouch = .read ∨ e.memTouch = .write ∨ e.memTouch = .modify) ∧
          e.memAddr.DerivesWord temps ∧ 0 < e.memSize)) ∧
      (e.touchesMem = true → ∀ t ∈ e.memAddr.uses, t ∈ defs) := by
  unfold MemOk touchesMem
  cases e.memTouch with
  | none => simp
  | other i => simp
  | read | write | modify => simp [Expr.isAddress_any_iff, and_right_comm]

theorem forall_mem_uses {p : Temp → Prop} :
    (∀ t ∈ (Stmt.effect e).uses, p t) ↔
      (e.touchesMem = true → ∀ t ∈ e.memAddr.uses, p t) ∧ (∀ t ∈ e.guard.uses, p t) ∧
        ∀ a ∈ e.args, ∀ t ∈ a.uses, p t := by
  simp only [Stmt.uses, Stmt.operands, operands]
  cases e.touchesMem with
  | true =>
    simp only [if_true, List.singleton_append, List.flatMap_cons, List.forall_mem_append,
      List.mem_flatMap, forall_const]
    grind
  | false =>
    simp only [Bool.false_eq_true, if_false, List.nil_append, List.flatMap_cons,
      List.forall_mem_append, List.mem_flatMap, false_imp_iff, true_and]
    grind

theorem ok_any_iff :
    e.Ok .any temps defs ↔
      e.Derives temps ∧ (∀ t ∈ (Stmt.effect e).uses, t ∈ defs) ∧
        ∀ t, e.result = some t → t ∉ defs := by
  rw [forall_mem_uses]
  constructor
  · rintro ⟨hcallee, hguard, hargs, hmem, hstate, -, hresult⟩
    obtain ⟨hguard, hguardUses⟩ := Expr.hasTy_any_iff.mp hguard
    obtain ⟨hmem, hmemUses⟩ := memOk_any_iff.mp hmem
    refine ⟨⟨hcallee, hguard, ?_, hmem, ?_, ?_⟩, ⟨hmemUses, hguardUses, ?_⟩, ?_⟩
    · intro a ha
      obtain ⟨T, hT⟩ := hargs a ha
      exact ⟨T, hT.derives⟩
    · exact fun t ht => RegTouch.ok_iff_proper.mp (hstate t ht)
    · intro t ht
      obtain ⟨htrue, ⟨T, hT⟩, -⟩ := hresult t ht
      exact ⟨WellFormed.isTrueConst_iff_eq.mp htrue, T, tempTy_eq_ok.mp hT⟩
    · intro a ha t ht
      obtain ⟨T, hT⟩ := hargs a ha
      exact hT.defined ht
    · exact fun t ht => (hresult t ht).2.2
  · rintro ⟨⟨hcallee, hguard, hargs, hmem, hstate, hresult⟩, ⟨hmemUses, hguardUses, hargUses⟩, hnew⟩
    refine ⟨hcallee, hguard.hasTy hguardUses, ?_, memOk_any_iff.mpr ⟨hmem, hmemUses⟩, ?_, trivial,
      ?_⟩
    · intro a ha
      obtain ⟨T, hT⟩ := hargs a ha
      exact ⟨T, hT.hasTy (hargUses a ha)⟩
    · exact fun t ht => RegTouch.ok_iff_proper.mpr (hstate t ht)
    · intro t ht
      obtain ⟨htrue, T, hT⟩ := hresult t ht
      exact ⟨WellFormed.isTrueConst_iff_eq.mpr htrue, ⟨T, tempTy_eq_ok.mpr hT⟩, hnew t ht⟩

end Effect

namespace Stmt

variable {s : Stmt}

theorem derives_mark {addr : UInt64} {len : Int64} :
    Derives temps (.mark addr len) ↔ 0 ≤ len :=
  ⟨fun | .mark h => h, .mark⟩

theorem derives_assign {dst : Temp} {src : Expr} :
    Derives temps (.assign dst src) ↔ ∃ T, src.Derives temps T ∧ Declared temps dst T :=
  ⟨fun | .assign h h' => ⟨_, h, h'⟩, fun ⟨_, h, h'⟩ => .assign h h'⟩

theorem derives_put {off : Int64} {data : Expr} :
    Derives temps (.put off data) ↔ 0 ≤ off ∧ ∃ T, data.Derives temps T :=
  ⟨fun | .put h h' => ⟨h, _, h'⟩, fun ⟨h, _, h'⟩ => .put h h'⟩

theorem derives_putIx {w : Window} {ix : Expr} {bias : Int64} {data : Expr} :
    Derives temps (.putIx w ix bias data) ↔
      w.Proper ∧ ix.Derives temps .i32 ∧ data.Derives temps w.elem :=
  ⟨fun | .putIx hc hs hb hix hd => ⟨⟨hc, Ty.sized_iff.mp hs, hb⟩, hix, hd⟩,
    fun ⟨⟨hc, hs, hb⟩, hix, hd⟩ => .putIx hc (Ty.sized_iff.mpr hs) hb hix hd⟩

theorem derives_store {addr data : Expr} :
    Derives temps (.store addr data) ↔ addr.DerivesWord temps ∧ ∃ T, data.Derives temps T :=
  ⟨fun | .store h h' => ⟨h, _, h'⟩, fun ⟨h, _, h'⟩ => .store h h'⟩

theorem derives_effect {e : Effect} : Derives temps (.effect e) ↔ e.Derives temps :=
  ⟨fun | .effect h => h, .effect⟩

theorem derives_exit {guard : Expr} {kind : JumpKind} {dst : Const} :
    Derives temps (.exit guard kind dst) ↔
      guard.Derives temps .i1 ∧ (dst.tag = .u32 ∨ dst.tag = .u64) ∧ kind.isValid = true :=
  ⟨fun | .exit h h' h'' => ⟨h, h', h''⟩, fun ⟨h, h', h''⟩ => .exit h h' h''⟩

/-- The checker asks of a statement that it is derivable, that the temporaries it reads are defined
and that the one it defines is not. -/
theorem ok_any_iff :
    s.Ok .any temps defs ↔
      s.Derives temps ∧ (∀ t ∈ s.uses, t ∈ defs) ∧ ∀ t, s.def? = some t → t ∉ defs := by
  cases s with
  | missing => exact ⟨fun h => h.elim, fun h => nomatch h.1⟩
  | noop => simp [Ok, Derives.noop, uses, operands, def?]
  | fence => simp [Ok, Derives.fence, uses, operands, def?]
  | mark addr len =>
    simp [Ok, derives_mark, uses, operands, def?]
  | assign dst src =>
    simp only [Ok, derives_assign, uses, operands, def?, Expr.hasTy_any_iff, tempTy_eq_ok, Declared,
      List.flatMap_singleton, Option.some.injEq, forall_eq']
    grind
  | put off data =>
    simp only [Ok, derives_put, uses, operands, def?, Expr.hasTy_any_iff, Policy.any_slot,
      List.flatMap_singleton]
    grind
  | putIx w ix bias data =>
    simp only [Ok, derives_putIx, uses, operands, def?, Expr.hasTy_any_iff, Policy.any_window,
      List.flatMap_cons, List.flatMap_nil, List.append_nil, List.forall_mem_append]
    grind
  | store addr data =>
    simp only [Ok, derives_store, uses, operands, def?, Expr.hasTy_any_iff, Expr.isAddress_any_iff,
      List.flatMap_cons, List.flatMap_nil, List.append_nil, List.forall_mem_append]
    grind
  | effect e =>
    rw [derives_effect]
    exact Effect.ok_any_iff
  | exit guard kind dst =>
    simp only [Ok, derives_exit, uses, operands, def?, Expr.hasTy_any_iff, Policy.any_exit,
      List.flatMap_singleton]
    grind

/-! ## Positions -/

/-- The statements keep the rules in order if each does after those before it. -/
theorem allOk_iff_getElem? {P : Policy} {ss : List Stmt} :
    AllOk P temps defs ss ↔
      ∀ (i : Nat) (s : Stmt), ss[i]? = some s → s.Ok P temps (defsAfterAll (ss.take i) defs) := by
  induction ss generalizing defs with
  | nil => simp [AllOk]
  | cons s ss ih =>
    rw [AllOk, ih]
    constructor
    · rintro ⟨hs, hss⟩ (_ | i) s' hi
      · rw [List.getElem?_cons_zero, Option.some.injEq] at hi
        exact hi ▸ hs
      · exact hss i s' (by simpa using hi)
    · intro h
      exact ⟨h 0 s rfl, fun i s' hi => h (i + 1) s' (by simpa using hi)⟩

end Stmt

end

namespace Block

variable {b : Block}

theorem defines?_eq_some {i : Nat} {t : Temp} :
    b.defines? i = some t ↔ ∃ s, b.stmts[i]? = some s ∧ s.def? = some t :=
  Option.bind_eq_some_iff

/-- A temporary is defined when the run reaches statement `i` if one before it defines it. -/
theorem mem_defsAfterAll_take {i : Nat} {t : Temp} :
    t ∈ Stmt.defsAfterAll (b.stmts.take i) [] ↔ ∃ j < i, b.defines? j = some t := by
  simp only [Stmt.mem_defsAfterAll, List.not_mem_nil, or_false, defines?_eq_some]
  constructor
  · rintro ⟨s, hs, ht⟩
    obtain ⟨j, hj⟩ := List.mem_iff_getElem?.mp hs
    rw [List.getElem?_take] at hj
    split at hj
    · exact ⟨j, ‹_›, s, hj, ht⟩
    · simp at hj
  · rintro ⟨j, hj, s, hs, ht⟩
    refine ⟨s, List.mem_iff_getElem?.mpr ⟨j, ?_⟩, ht⟩
    rw [List.getElem?_take_of_lt hj, hs]

theorem mem_defsAfterAll_stmts {t : Temp} :
    t ∈ Stmt.defsAfterAll b.stmts [] ↔ ∃ j, b.defines? j = some t := by
  have h := mem_defsAfterAll_take (b := b) (i := b.stmts.length) (t := t)
  rw [List.take_length] at h
  rw [h]
  constructor
  · rintro ⟨j, -, hj⟩
    exact ⟨j, hj⟩
  · rintro ⟨j, hj⟩
    obtain ⟨s, hs, -⟩ := defines?_eq_some.mp hj
    exact ⟨j, (List.getElem?_eq_some_iff.mp hs).1, hj⟩

/-- That no statement defines what an earlier one does is that no two statements define the same. -/
theorem once_iff :
    (∀ i t, b.defines? i = some t → ¬∃ j < i, b.defines? j = some t) ↔
      ∀ i j t, b.defines? i = some t → b.defines? j = some t → i = j := by
  constructor
  · intro h i j t hi hj
    rcases Nat.lt_trichotomy i j with hlt | heq | hgt
    · exact absurd ⟨i, hlt, hi⟩ (h j t hj)
    · exact heq
    · exact absurd ⟨j, hgt, hj⟩ (h i t hi)
  · rintro h i t hi ⟨j, hlt, hj⟩
    exact absurd (h i j t hi hj) (Nat.ne_of_gt hlt)

/-- The statements of a block keep the checker's rules if they are derivable, and define their
temporaries once and before use. -/
theorem allOk_any_iff :
    Stmt.AllOk .any b.temps [] b.stmts ↔
      (∀ s ∈ b.stmts, s.Derives b.temps) ∧
      (∀ i s t, b.stmts[i]? = some s → t ∈ s.uses → ∃ j < i, b.defines? j = some t) ∧
      ∀ i j t, b.defines? i = some t → b.defines? j = some t → i = j := by
  simp only [Stmt.allOk_iff_getElem?, Stmt.ok_any_iff, mem_defsAfterAll_take]
  rw [← once_iff]
  constructor
  · intro h
    refine ⟨fun s hs => ?_, fun i s t hi ht => (h i s hi).2.1 t ht, fun i t hi => ?_⟩
    · obtain ⟨i, hi⟩ := List.mem_iff_getElem?.mp hs
      exact (h i s hi).1
    · obtain ⟨s, hs, ht⟩ := defines?_eq_some.mp hi
      exact (h i s hs).2.2 t ht
  · rintro ⟨hrules, hbefore, honce⟩ i s hi
    exact ⟨hrules s (List.mem_of_getElem? hi), fun t ht => hbefore i s t hi ht,
      fun t ht => honce i t (defines?_eq_some.mpr ⟨s, hi, ht⟩)⟩

/-- The successor of a block that the checker passes is an address, defined by the statements. -/
theorem nextOk_any_iff :
    b.NextOk .any ∧ b.NextFits ↔
      b.next.DerivesWord b.temps ∧ ∀ t ∈ b.next.uses, ∃ j, b.defines? j = some t := by
  simp only [← mem_defsAfterAll_stmts]
  rw [← Expr.isAddress_any_iff]
  constructor
  · rintro ⟨hok, hfits⟩
    exact hok.isAddress hfits
  · intro h
    refine ⟨.inl h, fun c hc => ?_⟩
    rw [hc] at h
    rcases h with h | h
    · exact h.2.2
    · exact h.2.2

end Block

/-- The checker decides the data model: for every block, holes and unknown operators, tags and kinds
included, it answers without complaint exactly if the block is well-formed. -/
theorem check_decides_data_model (b : Block) (flat : Bool) :
    b.check flat = .ok () ↔ b.WellFormed flat := by
  rw [Block.check_eq_ok_iff]
  constructor
  · rintro ⟨⟨htemps, hstmts, hnext, hkind⟩, hfits, hflat⟩
    obtain ⟨hrules, hbefore, honce⟩ := Block.allOk_any_iff.mp hstmts
    obtain ⟨hword, hdefined⟩ := Block.nextOk_any_iff.mp ⟨hnext, hfits⟩
    exact ⟨fun T hT => Ty.sized_iff.mpr (htemps T hT), hrules, honce, hbefore, hword, hdefined,
      hkind, hflat⟩
  · rintro ⟨htemps, hrules, honce, hbefore, hword, hdefined, hkind, hflat⟩
    obtain ⟨hnext, hfits⟩ := Block.nextOk_any_iff.mpr ⟨hword, hdefined⟩
    exact ⟨⟨fun T hT => Ty.sized_iff.mp (htemps T hT),
      Block.allOk_any_iff.mpr ⟨hrules, hbefore, honce⟩, hnext, hkind⟩, hfits, hflat⟩

end Straightline
