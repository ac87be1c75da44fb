import Mathlib
import Straightline.Pass.Flat
import Straightline.Proofs.Lockstep
import Straightline.Proofs.Soundness

/-!
# Flattened blocks have the same meaning

Flattening gives every inner value a fresh temporary. `Ctx` describes the point that emission has
reached, `Emitted` the code that was emitted from there, and `Operands` ties a list of expressions
to the atoms that hold their values behind that code. The number of fresh temporaries is exact
(`Expr.fresh`), so that what must fit the numbers of temporaries is known beforehand
(`Block.flatSize`). So is the number of statements (`Stmt.flatLength`), which says where in the flat
block an exit of the original stands (`Block.flatten_exit`).

The flat block evaluates the arguments of an effect even if its guard is false. The original has
outcomes where they have no value, and these are lost: `Block.Eager` says that there are none on the
way, and without it the flat block fails (`Block.flatten_stuck`). `Carried` is what keeps it true.
-/

namespace Straightline

/-! ## Nesting and fresh temporaries -/

namespace Expr

/-- No node lies more than `n` levels below the root. -/
def NestsWithin : Nat → Expr → Prop
  | 0, e => e.children = []
  | n + 1, e => ∀ c ∈ e.children, c.NestsWithin n

instance decidableNestsWithin : (n : Nat) → (e : Expr) → Decidable (e.NestsWithin n)
  | 0, e => inferInstanceAs (Decidable (e.children = []))
  | n + 1, e =>
    have := decidableNestsWithin n
    inferInstanceAs (Decidable (∀ c ∈ e.children, c.NestsWithin n))

theorem nestsWithin_of_isAtom {e : Expr} (h : e.isAtom = true) (n : Nat) : e.NestsWithin n := by
  cases n <;> simp [NestsWithin, children_of_isAtom h]

/-- Whether flat code holds the value in a temporary of its own. -/
def needsTemp : Expr → Bool
  | tmp _ => false
  | const c => c.tag == .f64i
  | _ => true

/-- The number of temporaries that flat code needs for the expression as an operand. -/
def fresh (e : Expr) : Nat := e.nodes.countP needsTemp

theorem fresh_eq (e : Expr) :
    e.fresh = (e.children.map fresh).sum + if e.needsTemp then 1 else 0 := by
  rw [fresh, nodes_eq, List.countP_cons, List.countP_flatMap]
  rfl

end Expr

/-- Flat statements are not nested deeply. -/
theorem Stmt.Flat.nestsWithin {s : Stmt} (h : s.Flat) {n : Nat} :
    ∀ e ∈ s.operands, e.NestsWithin (n + 1) := by
  intro e he
  cases s with
  | assign dst src =>
    -- the right side of an assignment is over atoms
    rw [Stmt.operands, List.mem_singleton] at he
    subst he
    exact fun c hc => Expr.nestsWithin_of_isAtom (h c hc) _
  | _ => exact Expr.nestsWithin_of_isAtom (h e he) _

/-- The number of temporaries that flat code needs for the operands of a statement. -/
def Stmt.fresh : Stmt → Nat
  | assign _ src => (src.children.map Expr.fresh).sum
  | s => (s.operands.map Expr.fresh).sum

/-- The number of statements in the flat form of a statement: code for the operands, one a temporary,
and the statement itself unless it does nothing. -/
def Stmt.flatLength (s : Stmt) : Nat := s.fresh + if s.isNoop then 0 else 1

/-- The number of temporaries of the flat block. -/
def Block.flatSize (b : Block) : Nat :=
  b.temps.size + (b.stmts.map Stmt.fresh).sum + b.next.fresh

/-- Temporaries keep their types when more are declared. -/
theorem tempTy_mono {temps temps' : Array Ty} (h : temps.toList <+: temps'.toList) (t : Temp)
    (T : Ty) (hT : tempTy temps t = .ok T) : tempTy temps' t = .ok T := by
  rw [tempTy_eq_ok] at hT ⊢
  refine ⟨hT.1, ?_⟩
  obtain ⟨hlt, -⟩ := Array.getElem?_eq_some_iff.mp hT.2
  obtain ⟨more, hmore⟩ := h
  rw [← Array.getElem?_toList, ← hmore, List.getElem?_append_left (by simpa using hlt),
    Array.getElem?_toList]
  exact hT.2

theorem toInt_lt_of_tempTy {temps : Array Ty} {t : Temp} {T : Ty} (h : tempTy temps t = .ok T) :
    t.toInt < temps.size := by
  obtain ⟨h0, hget⟩ := tempTy_eq_ok.mp h
  obtain ⟨hlt, -⟩ := Array.getElem?_eq_some_iff.mp hget
  omega

theorem size_le_of_extends {temps temps' : Array Ty} (h : temps.toList <+: temps'.toList) :
    temps.size ≤ temps'.size := by
  simpa using h.length_le

/-- A constant successor is a number. -/
theorem Block.Typed.next_tag_ne {P : Policy} {b : Block} {c : Const} (hb : b.Typed P)
    (hc : b.next = .const c) : c.tag ≠ .f64i := by
  intro htag
  have hty : c.ty = .f64 := by rw [Const.ty, htag]; rfl
  rcases hb.next with (h | h) | ⟨c', hc', htag', -⟩
  · rw [hc] at h
    exact absurd (hty.symm.trans h.1) (by simp)
  · rw [hc] at h
    exact absurd (hty.symm.trans h.1) (by simp)
  · rw [hc, Expr.const.injEq] at hc'
    rw [← hc', htag] at htag'
    simp at htag'

theorem Block.Typed.fresh_next {P : Policy} {b : Block} {c : Const} (hb : b.Typed P)
    (hc : b.next = .const c) : b.next.fresh = 0 := by
  simp [hc, Expr.fresh_eq, Expr.children, Expr.needsTemp, hb.next_tag_ne hc]

/-! ## Effects that are skipped -/

namespace Machine

variable {m : Machine} {s : Stmt} {ss : List Stmt}

/-- If the statement is an effect that is skipped, its arguments have values nevertheless. -/
def EagerAt (m : Machine) (s : Stmt) : Prop :=
  ∀ e, s = .effect e → m.eval e.guard = .ok 0 → ∀ a ∈ e.args, ∃ v, m.eval a = .ok v

/-- Where the run of the statements comes to an effect and skips it, its arguments have values. -/
def Eager (ss : List Stmt) (m : Machine) : Prop :=
  ∀ before s after m', ss = before ++ s :: after → exec before m = some m' → m'.EagerAt s

theorem eager_nil : Eager [] m := by
  intro before s after m' h
  simp at h

theorem eager_cons :
    Eager (s :: ss) m ↔ m.EagerAt s ∧ ∀ m₁, m.step s = .next m₁ → Eager ss m₁ := by
  constructor
  · intro h
    refine ⟨h [] s ss m rfl rfl, fun m₁ hstep before s' after m' hsplit hexec => ?_⟩
    exact h (s :: before) s' after m' (congrArg _ hsplit) (exec_cons_eq_some.mpr ⟨m₁, hstep, hexec⟩)
  · intro h before s' after m' hsplit hexec
    cases before with
    | nil =>
      obtain ⟨rfl, -⟩ := List.cons.inj hsplit
      rw [exec, Option.some.injEq] at hexec
      exact hexec ▸ h.1
    | cons x before =>
      obtain ⟨rfl, hrest⟩ := List.cons.inj hsplit
      obtain ⟨m₁, hstep, hexec'⟩ := exec_cons_eq_some.mp hexec
      exact h.2 m₁ hstep before s' after m' hrest hexec'

instance decidableEagerAt (m : Machine) (s : Stmt) : Decidable (m.EagerAt s) :=
  match s with
  | .effect e =>
    decidable_of_iff ((m.eval e.guard).toOption = some 0 →
        ∀ a ∈ e.args, (m.eval a).toOption.isSome) <| by
      have hok : ∀ e v, (m.eval e).toOption = some v ↔ m.eval e = .ok v := by
        intro e v
        cases m.eval e <;> simp [Except.toOption]
      simp [EagerAt, Option.isSome_iff_exists, hok]
  | .missing | .noop | .mark .. | .fence | .assign .. | .put .. | .putIx .. | .store ..
  | .exit .. =>
    isTrue fun _ h => by simp at h

instance decidableEager (ss : List Stmt) (m : Machine) : Decidable (Eager ss m) :=
  match ss with
  | [] => isTrue eager_nil
  | s :: ss =>
    match h : m.step s with
    | .next m₁ =>
      have := decidableEager ss m₁
      decidable_of_iff (m.EagerAt s ∧ Eager ss m₁) <| by simp [eager_cons, h]
    | .leave .. | .fail .. => decidable_of_iff (m.EagerAt s) <| by simp [eager_cons, h]

end Machine

/-- What holds at the effects that are skipped holds at the statement and in what follows. -/
theorem Stmt.Expands.eager {R R' : Machine → Machine → Prop} {s : Stmt} {r ss : List Stmt}
    (h : s.Expands (fun m m' => R m m' ∧ m.EagerAt s) R' r) :
    s.Expands (fun m m' => R m m' ∧ Machine.Eager (s :: ss) m)
      (fun m m' => R' m m' ∧ Machine.Eager ss m) r := by
  constructor
  · rintro m m' m₁ ⟨hrel, heager⟩ hstep
    obtain ⟨hs, hss⟩ := Machine.eager_cons.mp heager
    obtain ⟨m₁', hexec, hrel'⟩ := h.step m m' m₁ ⟨hrel, hs⟩ hstep
    exact ⟨m₁', hexec, hrel', hss m₁ hstep⟩
  · rintro m m' k dst ⟨hrel, heager⟩ hleave
    exact h.leave m m' k dst ⟨hrel, (Machine.eager_cons.mp heager).1⟩ hleave

/-- Where the run of the block from the state comes to an effect and skips it, the arguments of the
effect have values. -/
def Block.Eager (b : Block) (st : State) (env : Env) : Prop :=
  Machine.Eager b.stmts (.start b.temps env st)

instance (b : Block) (st : State) (env : Env) : Decidable (b.Eager st env) :=
  inferInstanceAs (Decidable (Machine.Eager ..))

namespace Flat

variable {P : Policy} {temps₀ temps temps' temps'' : Array Ty} {defs defs' : List Temp}
  {code code' : List Stmt} {T : Ty} {e a : Expr} {es as : List Expr} {m m' m'' : Machine}

/-! ## Emitted code -/

/-- A point of emission: the original declares `temps₀` and has defined `defs`, the flat block
declares `temps` and has defined `defs'` so far. -/
structure Ctx (temps₀ : Array Ty) (defs : List Temp) (temps : Array Ty) (defs' : List Temp) :
    Prop where
  ext : temps₀.toList <+: temps.toList
  sub : defs ⊆ defs'
  bound : ∀ t ∈ defs', t.toInt < temps.size
  own : ∀ t ∈ defs', t ∈ defs ∨ temps₀.size ≤ t.toInt
  bytes : ∀ T ∈ temps, T.bytes ≠ 0

/-- Flat assignments to fresh temporaries. -/
structure Emitted (P : Policy) (temps : Array Ty) (defs' : List Temp) (code : List Stmt)
    (temps' : Array Ty) : Prop where
  ok : Stmt.AllOk P temps' defs' code
  flat : ∀ s ∈ code, s.Flat
  fresh : ∀ s ∈ code, ∃ t e, s = .assign t e ∧ temps.size ≤ t.toInt ∧ t.toInt < temps'.size
  ext : temps.toList <+: temps'.toList
  bytes : ∀ T ∈ temps', T.bytes ≠ 0
  length : temps'.size = temps.size + code.length

theorem Ctx.emitted_nil (h : Ctx temps₀ defs temps defs') : Emitted P temps defs' [] temps :=
  ⟨trivial, by simp, by simp, List.prefix_rfl, h.bytes, rfl⟩

theorem Emitted.append (h : Emitted P temps defs' code temps')
    (h' : Emitted P temps' (Stmt.defsAfterAll code defs') code' temps'') :
    Emitted P temps defs' (code ++ code') temps'' := by
  have hsize := size_le_of_extends h.ext
  have hsize' := size_le_of_extends h'.ext
  refine ⟨Stmt.allOk_append.mpr ⟨h.ok.mono (.refl P) (tempTy_mono h'.ext), h'.ok⟩, ?_, ?_,
    h.ext.trans h'.ext, h'.bytes, ?_⟩
  · exact List.forall_mem_append.mpr ⟨h.flat, h'.flat⟩
  · refine List.forall_mem_append.mpr ⟨?_, ?_⟩
    · intro s hs
      obtain ⟨t, e, rfl, hlo, hhi⟩ := h.fresh s hs
      exact ⟨t, e, rfl, hlo, by omega⟩
    · intro s hs
      obtain ⟨t, e, rfl, hlo, hhi⟩ := h'.fresh s hs
      exact ⟨t, e, rfl, by omega, hhi⟩
  · rw [h'.length, h.length, List.length_append, Nat.add_assoc]

/-- Emission goes on behind the emitted code. -/
theorem Ctx.emit (h : Ctx temps₀ defs temps defs') (hcode : Emitted P temps defs' code temps') :
    Ctx temps₀ defs temps' (Stmt.defsAfterAll code defs') := by
  have hsize := size_le_of_extends h.ext
  have hsize' := size_le_of_extends hcode.ext
  refine ⟨h.ext.trans hcode.ext, ?_, ?_, ?_, hcode.bytes⟩
  · intro t ht
    exact Stmt.mem_defsAfterAll.mpr (.inr (h.sub ht))
  · intro t ht
    rcases Stmt.mem_defsAfterAll.mp ht with ⟨s, hs, hdef⟩ | ht
    · obtain ⟨u, e, rfl, -, hhi⟩ := hcode.fresh s hs
      rw [Stmt.def?, Option.some.injEq] at hdef
      exact hdef ▸ hhi
    · have hlt := h.bound t ht
      omega
  · intro t ht
    rcases Stmt.mem_defsAfterAll.mp ht with ⟨s, hs, hdef⟩ | ht
    · obtain ⟨u, e, rfl, hlo, -⟩ := hcode.fresh s hs
      rw [Stmt.def?, Option.some.injEq] at hdef
      exact .inr (hdef ▸ by omega)
    · exact h.own t ht

/-! ## Machines -/

/-- The machine of the flat block, with all of its temporaries declared, has the state and the
values of the original one. -/
structure Rel (final : Array Ty) (defs' : List Temp) (m m' : Machine) : Prop where
  temps : m'.temps = final
  env : m'.env = m.env
  state : m'.state = m.state
  sound : m'.Sound defs'
  vals : ∀ t v, m.eval (.tmp t) = .ok v → m'.eval (.tmp t) = .ok v

variable {final : Array Ty}

theorem exec_state_of_assign (h : ∀ s ∈ code, ∃ t e, s = Stmt.assign t e)
    (hexec : Machine.exec code m = some m') : m'.state = m.state := by
  induction code generalizing m with
  | nil =>
    rw [Machine.exec, Option.some.injEq] at hexec
    rw [hexec]
  | cons s code ih =>
    rw [List.forall_mem_cons] at h
    obtain ⟨m₁, hstep, hrest⟩ := Machine.exec_cons_eq_some.mp hexec
    obtain ⟨⟨t, e, rfl⟩, h⟩ := h
    obtain ⟨v, T, -, -, rfl⟩ := Machine.step_assign.mp hstep
    have hstate := ih h hrest
    exact hstate

/-- Emitted code has no exits. -/
theorem Emitted.left?_eq_none (h : Emitted P temps defs' code temps') (m : Machine) :
    Machine.left? code m = none := by
  have hassign : ∀ s ∈ code, ∃ t e, s = Stmt.assign t e := fun s hs => by
    obtain ⟨t, e, rfl, -⟩ := h.fresh s hs
    exact ⟨t, e, rfl⟩
  clear h
  induction code generalizing m with
  | nil => rfl
  | cons s code ih =>
    rw [List.forall_mem_cons] at hassign
    obtain ⟨⟨t, e, rfl⟩, hassign⟩ := hassign
    rw [Machine.left?]
    cases hstep : m.step (.assign t e) with
    | next m₁ => exact ih m₁ hassign
    | leave k dst => simp [Machine.step, Machine.attempt_ne_leave] at hstep
    | fail f st => rfl

/-- Behind emitted code the machines are still related, and atoms have kept their values. -/
theorem Rel.exec (h : Rel final defs' m m') (hcode : Emitted P temps defs' code temps')
    (hfinal : temps'.toList <+: final.toList) (hexec : Machine.exec code m' = some m'') :
    Rel final (Stmt.defsAfterAll code defs') m m'' ∧
      ∀ e v, e.isAtom = true → m'.eval e = .ok v → m''.eval e = .ok v := by
  have hok : Stmt.AllOk P m'.temps defs' code :=
    h.temps ▸ hcode.ok.mono (.refl P) (tempTy_mono hfinal)
  obtain ⟨hsound, hatom⟩ := h.sound.exec hok hexec
  obtain ⟨htemps, henv⟩ := Machine.exec_temps hexec
  have hstate : m''.state = m'.state := by
    refine exec_state_of_assign (fun s hs => ?_) hexec
    obtain ⟨t, e, rfl, -⟩ := hcode.fresh s hs
    exact ⟨t, e, rfl⟩
  exact ⟨⟨htemps.trans h.temps, henv.trans h.env, hstate.trans h.state, hsound,
    fun t v hv => hatom _ v rfl (h.vals t v hv)⟩, hatom⟩

/-! ## Operands -/

/-- The atom `a` stands for `e` in flat code. -/
structure Operand (P : Policy) (temps₀ : Array Ty) (defs : List Temp) (temps : Array Ty)
    (defs' : List Temp) (e a : Expr) : Prop where
  isAtom : a.isAtom = true
  hasTy : ∀ T, e.HasTy P temps₀ defs T → a.HasTy P temps defs' T
  const : ∀ c, e = .const c → c.tag ≠ .f64i → a = .const c

theorem Operand.emit (h : Operand P temps₀ defs temps defs' e a)
    (hcode : Emitted P temps defs' code temps') :
    Operand P temps₀ defs temps' (Stmt.defsAfterAll code defs') e a := by
  refine ⟨h.isAtom, fun T hT => ?_, h.const⟩
  exact (h.hasTy T hT).mono (.refl P) (tempTy_mono hcode.ext)
    fun t ht => Stmt.mem_defsAfterAll.mpr (.inr ht)

/-- Emitted code behind which the atoms `as` hold the values of `es`. It goes on only if they have
values. -/
structure Operands (P : Policy) (temps₀ : Array Ty) (defs : List Temp) (temps : Array Ty)
    (defs' : List Temp) (es as : List Expr) (code : List Stmt) (temps' : Array Ty) : Prop where
  emitted : Emitted P temps defs' code temps'
  operands : List.Forall₂ (Operand P temps₀ defs temps' (Stmt.defsAfterAll code defs')) es as
  computes : ∀ final, temps'.toList <+: final.toList → ∀ m m' vs, m.temps = temps₀ →
    Rel final defs' m m' → List.Forall₂ (fun e v => m.eval e = .ok v) es vs →
    ∃ m'', Machine.exec code m' = some m'' ∧ List.Forall₂ (fun a v => m''.eval a = .ok v) as vs
  evaluates : ∀ final, temps'.toList <+: final.toList → ∀ m m' m'', m.temps = temps₀ →
    m.Sound defs → Rel final defs' m m' → Machine.exec code m' = some m'' →
    ∀ e ∈ es, ∃ v, m.eval e = .ok v

/-- From every point with room for it, `x` emits code for the operand `e`. -/
def Yields (P : Policy) (temps₀ : Array Ty) (defs : List Temp) (e : Expr) (x : Emit Expr) : Prop :=
  ∀ temps defs', Ctx temps₀ defs temps defs' → temps.size + e.fresh ≤ 2 ^ 31 →
    ∃ a code temps', x temps = .ok (a, code, temps') ∧ temps'.size = temps.size + e.fresh ∧
      Operands P temps₀ defs temps defs' [e] [a] code temps'

theorem Emit.bind_ok {α β : Type} {x : Emit α} {f : α → Emit β} {u : α} {v : β}
    (hx : x temps = .ok (u, code, temps')) (hf : f u temps' = .ok (v, code', temps'')) :
    (x >>= f) temps = .ok (v, code ++ code', temps'') := by
  show Emit.andThen x f temps = _
  unfold Emit.andThen
  rw [hx]
  show (f u temps' >>= fun r => Except.ok (r.1, code ++ r.2.1, r.2.2)) = _
  rw [hf]
  rfl

/-- Code for more operands leaves the one before it as it is. -/
theorem Operands.cons (h : Operands P temps₀ defs temps defs' [e] [a] code temps')
    (h' : Operands P temps₀ defs temps' (Stmt.defsAfterAll code defs') es as code' temps'') :
    Operands P temps₀ defs temps defs' (e :: es) (a :: as) (code ++ code') temps'' := by
  refine ⟨h.emitted.append h'.emitted, ?_, ?_, ?_⟩
  · obtain _ | ⟨hea, -⟩ := h.operands
    rw [Stmt.defsAfterAll_append]
    exact .cons (hea.emit h'.emitted) h'.operands
  · intro final hfinal m m' vs htemps hrel hvs
    obtain _ | ⟨hv, hvs⟩ := hvs
    have hfinal' := h'.emitted.ext.trans hfinal
    obtain ⟨m₁, hexec, ha⟩ := h.computes final hfinal' m m' _ htemps hrel (.cons hv .nil)
    obtain ⟨hrel₁, -⟩ := hrel.exec h.emitted hfinal' hexec
    obtain ⟨m₂, hexec', has⟩ := h'.computes final hfinal m m₁ _ htemps hrel₁ hvs
    obtain ⟨-, hatom⟩ := hrel₁.exec h'.emitted hfinal hexec'
    obtain _ | ⟨ha, -⟩ := ha
    obtain _ | ⟨hea, -⟩ := h.operands
    exact ⟨m₂, Machine.exec_append_eq_some.mpr ⟨m₁, hexec, hexec'⟩,
      .cons (hatom a _ hea.isAtom ha) has⟩
  · intro final hfinal m m' m'' htemps hsound hrel hexec
    -- the code of the first operand defines fresh temporaries only, so `m` and `m₁` are related too
    obtain ⟨m₁, hexec₁, hexec₂⟩ := Machine.exec_append_eq_some.mp hexec
    have hfinal' := h'.emitted.ext.trans hfinal
    obtain ⟨hrel₁, -⟩ := hrel.exec h.emitted hfinal' hexec₁
    have hval := h.evaluates final hfinal' m m' m₁ htemps hsound hrel hexec₁
    exact List.forall_mem_cons.mpr ⟨hval e List.mem_cons_self,
      h'.evaluates final hfinal m m₁ m'' htemps hsound hrel₁ hexec₂⟩

/-- Operands one after the other. -/
theorem yields_mapM {f : Expr → Emit Expr} (hf : ∀ e ∈ es, Yields P temps₀ defs e (f e))
    (hctx : Ctx temps₀ defs temps defs')
    (hroom : temps.size + (es.map Expr.fresh).sum ≤ 2 ^ 31) :
    ∃ as code temps', es.mapM f temps = .ok (as, code, temps') ∧
      temps'.size = temps.size + (es.map Expr.fresh).sum ∧
      Operands P temps₀ defs temps defs' es as code temps' := by
  induction es generalizing temps defs' with
  | nil =>
    refine ⟨[], [], temps, rfl, by simp, hctx.emitted_nil, .nil, ?_, ?_⟩
    · intro final _ m m' vs _ _ hvs
      cases hvs
      exact ⟨m', rfl, .nil⟩
    · exact fun _ _ _ _ _ _ _ _ _ => List.forall_mem_nil _
  | cons e es ih =>
    rw [List.forall_mem_cons] at hf
    rw [List.map_cons, List.sum_cons] at hroom ⊢
    obtain ⟨a, code, temps₁, ha, hsize, hop⟩ := hf.1 temps defs' hctx (by omega)
    obtain ⟨as, code', temps₂, has, hsize', hops⟩ := ih hf.2 (hctx.emit hop.emitted) (by omega)
    refine ⟨a :: as, code ++ code', temps₂, ?_, by omega, hop.cons hops⟩
    rw [List.mapM_cons]
    refine Emit.bind_ok ha ?_
    rw [← List.append_nil code']
    exact Emit.bind_ok has rfl

/-! ## Expressions -/

/-- The node over atoms that `operands` leaves. -/
theorem operands_spec {f : Expr → Emit Expr}
    (hf : ∀ c ∈ e.children, Yields P temps₀ defs c (f c)) (hT : e.HasTy P temps₀ defs T)
    (hctx : Ctx temps₀ defs temps defs')
    (hroom : temps.size + (e.children.map Expr.fresh).sum ≤ 2 ^ 31) :
    ∃ cs code temps', operands f e temps = .ok (e.withChildren cs, code, temps') ∧
      temps'.size = temps.size + (e.children.map Expr.fresh).sum ∧
      Operands P temps₀ defs temps defs' e.children cs code temps' := by
  obtain ⟨cs, code, temps', hcs, hsize, hops⟩ := yields_mapM hf hctx hroom
  refine ⟨cs, code, temps', ?_, hsize, hops⟩
  have hcheck : Emit.check e.demand temps = .ok ((), [], temps) := by
    rw [Emit.check, Expr.demand_eq_ok hT.ne_missing]
    rfl
  rw [operands, Expr.mapChildrenM_eq, ← List.nil_append code, ← List.append_nil code]
  exact Emit.bind_ok hcheck (Emit.bind_ok hcs rfl)

/-- The node over atoms has the type of the original node. -/
theorem Operands.hasTy (h : Operands P temps₀ defs temps defs' e.children as code temps')
    (hatom : e.isAtom = false) (hT : e.HasTy P temps₀ defs T) :
    (e.withChildren as).HasTy P temps' (Stmt.defsAfterAll code defs') T :=
  hT.similar (Expr.similar_withChildren h.operands) hatom fun _ _ _ hca => hca.hasTy

theorem Operands.isAtom_children
    (h : Operands P temps₀ defs temps defs' e.children as code temps') :
    ∀ c ∈ (e.withChildren as).children, c.isAtom = true :=
  forall_of_forall₂ (Expr.similar_withChildren h.operands).children fun _ _ _ hca => hca.isAtom

/-- Operands that have values, and the atoms that have them on the other machine. -/
theorem carries_of_values {vs : List UInt64}
    (h : List.Forall₂ (fun e v => m.eval e = .ok v) es vs)
    (h' : List.Forall₂ (fun a v => m'.eval a = .ok v) as vs) :
    List.Forall₂ (fun e a => ∀ v, m.eval e = .ok v → m'.eval a = .ok v) es as := by
  induction h generalizing as with
  | nil =>
    cases h'
    exact .nil
  | cons hv _ ih =>
    obtain _ | ⟨ha, has⟩ := h'
    refine .cons ?_ (ih has)
    intro v hv'
    rw [hv, Except.ok.injEq] at hv'
    rw [← hv']
    exact ha

/-- The node over atoms has the value of the original node. -/
theorem Operands.exec_node (h : Operands P temps₀ defs temps defs' e.children as code temps')
    (hatom : e.isAtom = false) (hfinal : temps'.toList <+: final.toList) (htemps : m.temps = temps₀)
    (hrel : Rel final defs' m m') {v : UInt64} (hv : m.eval e = .ok v) :
    ∃ m'', Machine.exec code m' = some m'' ∧
      Rel final (Stmt.defsAfterAll code defs') m m'' ∧ m''.eval (e.withChildren as) = .ok v := by
  obtain ⟨vs, hvs⟩ := Machine.exists_values_children hv
  obtain ⟨m'', hexec, has⟩ := h.computes final hfinal m m' vs htemps hrel hvs
  obtain ⟨hrel', -⟩ := hrel.exec h.emitted hfinal hexec
  refine ⟨m'', hexec, hrel', ?_⟩
  exact Machine.eval_similar (Expr.similar_withChildren (carries_of_values hvs has)) hatom
    (Machine.headAgrees_of_eq hrel'.state hrel'.env e) (fun _ _ _ hca => hca) hv

/-- If the node over atoms has a value, so has the original node. -/
theorem Operands.eval_node (h : Operands P temps₀ defs temps defs' e.children as code temps')
    (hatom : e.isAtom = false) (hfinal : temps'.toList <+: final.toList) (htemps : m.temps = temps₀)
    (hsound : m.Sound defs) (hrel : Rel final defs' m m') (hexec : Machine.exec code m' = some m'')
    {v : UInt64} (hv : m''.eval (e.withChildren as) = .ok v) : m.eval e = .ok v := by
  obtain ⟨vs, hvs⟩ :=
    Machine.exists_values (h.evaluates final hfinal m m' m'' htemps hsound hrel hexec)
  -- the operands have values, so what the atoms hold is known, and the heads can be compared
  obtain ⟨m₁, hexec₁, has⟩ := h.computes final hfinal m m' vs htemps hrel hvs
  rw [hexec, Option.some.injEq] at hexec₁
  subst hexec₁
  obtain ⟨hrel', -⟩ := hrel.exec h.emitted hfinal hexec
  have hsim := Expr.similar_withChildren (carries_of_values has hvs).flip
  exact Machine.eval_similar hsim.symm (hsim.isAtom.trans hatom)
    (Machine.headAgrees_of_eq hrel'.state.symm hrel'.env.symm _) (fun _ _ _ hca => hca) hv

/-- Assigning a node over atoms to a fresh temporary. -/
theorem bindTemp_spec (hctx : Ctx temps₀ defs temps defs') (hroom : temps.size < 2 ^ 31)
    (hT : e.HasTy P temps defs' T) (hflat : ∀ c ∈ e.children, c.isAtom = true) :
    ∃ t, Emit.bindTemp e temps = .ok (.tmp t, [.assign t e], temps.push T) ∧
      Emitted P temps defs' [.assign t e] (temps.push T) ∧
      tempTy (temps.push T) t = .ok T := by
  have ht : (Int32.ofNat temps.size).toInt = temps.size := Int32.toInt_ofNat_of_lt hroom
  have hext : temps.toList <+: (temps.push T).toList := by simp
  have htemp : tempTy (temps.push T) (.ofNat temps.size) = .ok T := by
    rw [tempTy_eq_ok, ht]
    simp
  refine ⟨.ofNat temps.size, ?_, ⟨⟨⟨T, hT.mono (.refl P) (tempTy_mono hext) (List.Subset.refl _),
    htemp, ?_⟩, trivial⟩, by simpa [Stmt.Flat] using hflat, ?_, hext, ?_, by simp⟩, htemp⟩
  · rw [Emit.bindTemp, hT.typeIn]
    rfl
  · intro hmem
    have hlt := hctx.bound _ hmem
    omega
  · intro s hs
    rw [List.mem_singleton] at hs
    exact ⟨_, _, hs, by omega, by rw [ht, Array.size_push]; omega⟩
  · intro U hU
    rcases Array.mem_push.mp hU with hU | rfl
    · exact hctx.bytes U hU
    · exact hT.bytes_ne_zero hctx.bytes

/-- An atom of the original stands for itself. -/
theorem operands_atom (hctx : Ctx temps₀ defs temps defs') (hatom : e.isAtom = true)
    (htyped : ∀ t, e = .tmp t → ∃ T, e.HasTy P temps₀ defs T) :
    Operands P temps₀ defs temps defs' [e] [e] [] temps := by
  refine ⟨hctx.emitted_nil, .cons ⟨hatom, ?_, fun c h _ => h⟩ .nil, ?_, ?_⟩
  · intro T hT
    exact hT.mono (.refl P) (tempTy_mono hctx.ext) hctx.sub
  · intro final _ m m' vs _ hrel hvs
    obtain _ | ⟨hv, ⟨⟩⟩ := hvs
    refine ⟨m', rfl, .cons ?_ .nil⟩
    cases e with
    | tmp t => exact hrel.vals t _ hv
    | const c => exact hv
    | _ => simp [Expr.isAtom] at hatom
  · intro final _ m m' m'' htemps hsound _ _
    rw [List.forall_mem_singleton]
    cases e with
    | tmp t =>
      obtain ⟨T, hT⟩ := htyped t rfl
      exact hsound.eval_tmp (htemps.symm ▸ hT)
    | const c => exact ⟨c.bits, rfl⟩
    | _ => simp [Expr.isAtom] at hatom

/-- Code for an expression `e'` that stands for `e`, and a fresh temporary that holds its value. -/
theorem bind_spec (e' : Expr) (hctx : Ctx temps₀ defs temps defs')
    (hcode : Emitted P temps defs' code temps') (hroom : temps'.size < 2 ^ 31)
    (hneeds : e.needsTemp = true) (hT : e.HasTy P temps₀ defs T)
    (hT' : e'.HasTy P temps' (Stmt.defsAfterAll code defs') T)
    (hflat : ∀ c ∈ e'.children, c.isAtom = true)
    (heval : ∀ final, temps'.toList <+: final.toList → ∀ m m' v, m.temps = temps₀ →
      Rel final defs' m m' → m.eval e = .ok v → ∃ m'', Machine.exec code m' = some m'' ∧
        Rel final (Stmt.defsAfterAll code defs') m m'' ∧ m''.eval e' = .ok v)
    (hback : ∀ final, temps'.toList <+: final.toList → ∀ m m' m'' v, m.temps = temps₀ →
      m.Sound defs → Rel final defs' m m' → Machine.exec code m' = some m'' →
      m''.eval e' = .ok v → m.eval e = .ok v) :
    ∃ t, Emit.bindTemp e' temps' = .ok (.tmp t, [.assign t e'], temps'.push T) ∧
      Operands P temps₀ defs temps defs' [e] [.tmp t] (code ++ [.assign t e']) (temps'.push T) := by
  obtain ⟨t, hbind, hemit, htemp⟩ := bindTemp_spec (hctx.emit hcode) hroom hT' hflat
  refine ⟨t, hbind, hcode.append hemit, .cons ⟨rfl, ?_, ?_⟩ .nil, ?_, ?_⟩
  · intro U hU
    rw [← hT.unique hU, Stmt.defsAfterAll_append]
    exact ⟨htemp, List.mem_cons_self⟩
  · intro c hc htag
    simp [hc, Expr.needsTemp, htag] at hneeds
  · intro final hfinal m m' vs htemps hrel hvs
    obtain _ | ⟨hv, ⟨⟩⟩ := hvs
    obtain ⟨m'', hexec, hrel', hv'⟩ :=
      heval final (hemit.ext.trans hfinal) m m' _ htemps hrel hv
    have htemp' : tempTy m''.temps t = .ok T := hrel'.temps ▸ tempTy_mono hfinal t T htemp
    have hT'' : e'.HasTy P m''.temps (Stmt.defsAfterAll code defs') T :=
      hrel'.temps ▸ hT'.mono (.refl P) (tempTy_mono (hemit.ext.trans hfinal)) (List.Subset.refl _)
    -- assigning masks the value, which changes nothing as it fits its type
    have hfit := Machine.eval_fits hrel'.sound.fit hT'' hv'
    have hstep := Machine.step_assign.mpr ⟨_, T, hv', htemp', rfl⟩
    exact ⟨_, Machine.exec_append_eq_some.mpr ⟨m'', hexec,
      Machine.exec_cons_eq_some.mpr ⟨_, hstep, rfl⟩⟩, .cons (Machine.eval_set_self htemp' hfit) .nil⟩
  · intro final hfinal m m' m'' htemps hsound hrel hexec
    obtain ⟨m₁, hexec₁, hlast⟩ := Machine.exec_append_eq_some.mp hexec
    obtain ⟨m₂, hstep, -⟩ := Machine.exec_cons_eq_some.mp hlast
    obtain ⟨v, U, hv, -⟩ := Machine.step_assign.mp hstep
    have hfinal' := hemit.ext.trans hfinal
    rw [List.forall_mem_singleton]
    exact ⟨v, hback final hfinal' m m' m₁ v htemps hsound hrel hexec₁ hv⟩

/-- A node is computed into a fresh temporary behind the code for its operands. -/
theorem yields_node {f : Expr → Emit Expr} (hatom : e.isAtom = false)
    (hT : e.HasTy P temps₀ defs T) (hf : ∀ c ∈ e.children, Yields P temps₀ defs c (f c)) :
    Yields P temps₀ defs e (operands f e >>= Emit.bindTemp) := by
  intro temps defs' hctx hroom
  have hneeds : e.needsTemp = true := by
    cases e <;> simp_all [Expr.isAtom, Expr.needsTemp]
  have hfresh : e.fresh = (e.children.map Expr.fresh).sum + 1 := by
    rw [Expr.fresh_eq, if_pos hneeds]
  obtain ⟨cs, code, temps', hcs, hsize, hops⟩ := operands_spec hf hT hctx (by omega)
  obtain ⟨t, hbind, hop⟩ := bind_spec _ hctx hops.emitted (by omega) hneeds hT
    (hops.hasTy hatom hT) hops.isAtom_children
    (fun final hfinal m m' v htemps hrel hv => hops.exec_node hatom hfinal htemps hrel hv)
    fun final hfinal m m' m'' v htemps hsound hrel hexec hv =>
      hops.eval_node hatom hfinal htemps hsound hrel hexec hv
  exact ⟨_, _, _, Emit.bind_ok hcs hbind, by rw [Array.size_push]; omega, hop⟩

/-- An operand, given its own operands one level below. -/
theorem atomUpTo_succ {n : Nat} (hT : e.HasTy P temps₀ defs T)
    (hf : ∀ c ∈ e.children, Yields P temps₀ defs c (atomUpTo n c)) :
    Yields P temps₀ defs e (atomUpTo (n + 1) e) := by
  -- atoms need no code, but for the constants that are kept in a temporary
  have hself : e.isAtom = true → e.needsTemp = false → Yields P temps₀ defs e (pure e) := by
    intro hatom hneeds temps defs' hctx _
    have hfresh : e.fresh = 0 := by
      simp [Expr.fresh_eq, Expr.children_of_isAtom hatom, hneeds]
    exact ⟨e, [], temps, rfl, by omega, operands_atom hctx hatom fun _ _ => ⟨T, hT⟩⟩
  cases e with
  | tmp t => exact hself rfl rfl
  | const c =>
    by_cases hc : c.tag = .f64i
    · intro temps defs' hctx hroom
      have hneeds : (Expr.const c).needsTemp = true := by simp [Expr.needsTemp, hc]
      have hfresh : (Expr.const c).fresh = 1 := by
        simp [Expr.fresh_eq, Expr.children, hneeds]
      obtain ⟨t, hbind, hop⟩ := bind_spec (.const c) hctx hctx.emitted_nil (by omega) hneeds
        hT hT (by simp [Expr.children]) (fun final _ m m' v _ hrel hv => ⟨m', rfl, hrel, hv⟩)
        fun final _ m m' m'' v _ _ _ _ hv => hv
      refine ⟨_, _, _, ?_, by rw [Array.size_push]; omega, hop⟩
      rw [atomUpTo, if_pos hc, hbind]
      rfl
    · rw [show atomUpTo (n + 1) (.const c) = pure (.const c) by rw [atomUpTo, if_neg hc]]
      exact hself rfl (by simp [Expr.needsTemp, hc])
  | _ => exact yields_node rfl hT hf

/-- An operand that is not nested too deeply. -/
theorem atomUpTo_yields (n : Nat) (hnest : e.NestsWithin n) (hT : e.HasTy P temps₀ defs T) :
    Yields P temps₀ defs e (atomUpTo (n + 1) e) := by
  induction n generalizing e T with
  | zero =>
    refine atomUpTo_succ hT ?_
    rw [show e.children = [] from hnest]
    simp
  | succ n ih =>
    refine atomUpTo_succ hT fun c hc => ?_
    obtain ⟨U, hU⟩ := hT.child hc
    exact ih (hnest c hc) hU

/-! ## Statements -/

/-- What relates the machines between statements. -/
structure Linked (temps₀ : Array Ty) (env : Env) (final : Array Ty) (defs defs' : List Temp)
    (m m' : Machine) : Prop where
  temps : m.temps = temps₀
  env : m.env = env
  sound : m.Sound defs
  rel : Rel final defs' m m'

variable {s : Stmt} {env : Env}

/-- The operands of a statement that goes on have values, those of an effect that is skipped if its
arguments do. -/
theorem exists_values_of_step {m₁ : Machine} (heager : m.EagerAt s) (hstep : m.step s = .next m₁) :
    ∃ vs, List.Forall₂ (fun e v => m.eval e = .ok v) s.operands vs := by
  cases s with
  | missing | noop | mark | fence => exact ⟨[], .nil⟩
  | assign dst src =>
    obtain ⟨v, T, hv, -⟩ := Machine.step_assign.mp hstep
    exact ⟨[v], .cons hv .nil⟩
  | put off data =>
    obtain ⟨T, v, st, -, hv, -⟩ := Machine.step_put.mp hstep
    exact ⟨[v], .cons hv .nil⟩
  | putIx w ix bias data =>
    obtain ⟨i, v, off, st, hi, hv, -⟩ := Machine.step_putIx.mp hstep
    exact ⟨[i, v], .cons hi (.cons hv .nil)⟩
  | store addr data =>
    obtain ⟨x, T, v, hx, -, hv, -⟩ := Machine.step_store.mp hstep
    exact ⟨[x, v], .cons hx (.cons hv .nil)⟩
  | effect x =>
    obtain ⟨addr, g, haddr, hg, hrest⟩ := Machine.step_effect.mp hstep
    -- the only operands that a statement may leave alone
    have hargs : ∃ vs, List.Forall₂ (fun e v => m.eval e = .ok v) x.args vs := by
      rcases hrest with ⟨rfl, -⟩ | ⟨-, vs, f, r, st, hvs, -⟩
      · exact Machine.exists_values (heager x rfl hg)
      · exact ⟨vs, Machine.evalAll_eq_ok.mp hvs⟩
    obtain ⟨vs, hvs⟩ := hargs
    rw [Stmt.operands, Effect.operands]
    unfold Machine.EffectAddr at haddr
    cases ht : x.touchesMem with
    | true =>
      rw [if_pos ht] at haddr
      exact ⟨addr :: g :: vs, .cons haddr (.cons hg hvs)⟩
    | false => exact ⟨g :: vs, .cons hg hvs⟩
  | exit guard kind dst =>
    obtain ⟨hg, -⟩ := Machine.step_exit.mp hstep
    exact ⟨[0], .cons hg .nil⟩

/-- The point of emission behind a statement and its flat form. -/
theorem Ctx.define {s' : Stmt} (hctx : Ctx temps₀ defs temps defs') (hs : s.Ok P temps₀ defs)
    (hdef : s'.def? = s.def?) : Ctx temps₀ (s.defsAfter defs) temps (s'.defsAfter defs') := by
  have hsize := size_le_of_extends hctx.ext
  refine ⟨hctx.ext, ?_, ?_, ?_, hctx.bytes⟩
  · intro t ht
    rw [Stmt.mem_defsAfter] at ht ⊢
    rw [hdef]
    exact ht.imp id (hctx.sub ·)
  · intro t ht
    rw [Stmt.mem_defsAfter, hdef] at ht
    rcases ht with ht | ht
    · obtain ⟨⟨T, hT⟩, -⟩ := hs.of_def? ht
      have hlt := toInt_lt_of_tempTy hT
      omega
    · exact hctx.bound t ht
  · intro t ht
    rw [Stmt.mem_defsAfter, hdef] at ht
    rw [Stmt.mem_defsAfter]
    rcases ht with ht | ht
    · exact .inl (.inl ht)
    · exact (hctx.own t ht).imp .inr id

theorem Ctx.not_mem_of_def? {t : Temp} (hctx : Ctx temps₀ defs temps defs')
    (hs : s.Ok P temps₀ defs) (ht : s.def? = some t) : t ∉ defs' := by
  obtain ⟨⟨T, hT⟩, hmem⟩ := hs.of_def? ht
  have hlt := toInt_lt_of_tempTy hT
  intro h
  rcases hctx.own t h with h | h
  · exact hmem h
  · omega

/-- A statement of the same form behind the code for its operands does what the original does. -/
theorem expands_code {s' : Stmt} (hs : s.Ok P temps₀ defs)
    (hext : temps₀.toList <+: temps'.toList)
    (hs' : s'.Ok P temps' (Stmt.defsAfterAll code defs'))
    (hfinal : temps'.toList <+: final.toList)
    (hsim : ∀ m m', Linked temps₀ env final defs defs' m m' →
      (∃ vs, List.Forall₂ (fun e v => m.eval e = .ok v) s.operands vs) →
      ∃ m'', Machine.exec code m' = some m'' ∧ Rel final (Stmt.defsAfterAll code defs') m m'' ∧
        s.Similar (m.Carries m'') id s') :
    s.Expands (fun m m' => Linked temps₀ env final defs defs' m m' ∧ m.EagerAt s)
      (Linked temps₀ env final (s.defsAfter defs) (Stmt.defsAfterAll (code ++ [s']) defs'))
      (code ++ [s']) := by
  rw [Stmt.defsAfterAll_append]
  constructor
  · rintro m m' m₁ ⟨hlink, heager⟩ hstep
    obtain ⟨htemps, henv, hsound, hrel⟩ := id hlink
    -- the code computes all operands, so all of them need values, also those of a skipped effect
    have hvals := exists_values_of_step heager hstep
    obtain ⟨m'', hexec, hrel', hsim'⟩ := hsim m m' hlink hvals
    have hdef : ∀ t T, s.def? = some t → tempTy m.temps t = .ok T → tempTy m''.temps t = .ok T := by
      intro t T _ hT
      rw [hrel'.temps]
      exact tempTy_mono (hext.trans hfinal) t T (htemps ▸ hT)
    obtain ⟨st, h⟩ :=
      Machine.step_similar hsim' hrel'.state hrel'.env (fun _ _ _ h => h) hdef hstep
    have hok : s'.Ok P m''.temps (Stmt.defsAfterAll code defs') := by
      rw [hrel'.temps]
      exact hs'.mono (.refl P) (tempTy_mono hfinal) (List.Subset.refl _)
        fun t ht => (hs'.of_def? ht).2
    have hlink' : ∀ m₁'', m''.step s' = .next m₁'' → m₁''.state = m₁.state →
        (∀ t v, m₁.eval (.tmp t) = .ok v → m₁''.eval (.tmp t) = .ok v) →
        ∃ m₁', Machine.exec (code ++ [s']) m' = some m₁' ∧
          Linked temps₀ env final (s.defsAfter defs)
            (Stmt.defsAfterAll [s'] (Stmt.defsAfterAll code defs')) m₁ m₁' := by
      intro m₁'' hstep' hstate hvals'
      refine ⟨m₁'', Machine.exec_append_eq_some.mpr ⟨m'', hexec,
        Machine.exec_cons_eq_some.mpr ⟨m₁'', hstep', rfl⟩⟩, ?_⟩
      refine ⟨(Machine.step_temps hstep).trans htemps, (Machine.step_env hstep).trans henv,
        hsound.step hstep (htemps.symm ▸ hs), (Machine.step_temps hstep').trans hrel'.temps,
        ?_, hstate, hrel'.sound.step hstep' hok, hvals'⟩
      rw [Machine.step_env hstep', Machine.step_env hstep, hrel'.env]
    rcases h with ⟨rfl, hstep'⟩ | ⟨t, x, ht, rfl, hstep'⟩
    · exact hlink' _ hstep' rfl hrel'.vals
    · refine hlink' _ hstep' rfl ?_
      intro u v hv
      obtain ⟨⟨T, hT⟩, hv⟩ := Machine.eval_tmp_eq_ok.mp hv
      -- the defined temporary has the same new value on both machines, any other its old one
      by_cases hut : u = t
      · rw [hut, Machine.set_vals_self, Option.some.injEq] at hv
        rw [Machine.eval_tmp_eq_ok, hut, ← hv]
        exact ⟨⟨T, hdef t T ht (hut ▸ hT)⟩, Machine.set_vals_self _ _⟩
      · rw [Machine.set_vals_of_ne hut] at hv
        have hold := hrel'.vals u v (Machine.eval_tmp_eq_ok.mpr ⟨⟨T, hT⟩, hv⟩)
        obtain ⟨hT', hv'⟩ := Machine.eval_tmp_eq_ok.mp hold
        exact Machine.eval_tmp_eq_ok.mpr ⟨hT', (Machine.set_vals_of_ne hut x).trans hv'⟩
  · rintro m m' k dst ⟨hlink, -⟩ hleave next kind ss
    obtain ⟨guard, g, rfl, hg, hne⟩ := Machine.step_eq_leave.mp hleave
    obtain ⟨m'', hexec, hrel', hsim'⟩ := hsim m m' hlink ⟨[g], .cons hg .nil⟩
    have hleave' := Machine.leave_similar hsim' (fun _ _ _ h => h.1) hleave
    rw [List.append_assoc, Machine.finish_append hexec, ← hrel'.state]
    exact Machine.finish_cons_eq_some.mpr (.inr ⟨k, dst, hleave', rfl⟩)

/-- Operands and the atoms that stand for them agree in value and type. -/
theorem forall₂_carries {vs : List UInt64}
    (h : List.Forall₂ (Operand P temps₀ defs temps defs') es as)
    (hes : ∀ e ∈ es, ∃ T, e.HasTy P temps₀ defs T)
    (htemps : m.temps = temps₀) (hfinal : temps.toList <+: m'.temps.toList)
    (hvs : List.Forall₂ (fun e v => m.eval e = .ok v) es vs)
    (hvs' : List.Forall₂ (fun a v => m'.eval a = .ok v) as vs) :
    List.Forall₂ (m.Carries m') es as := by
  induction h generalizing vs with
  | nil => exact .nil
  | cons hea _ ih =>
    rw [List.forall_mem_cons] at hes
    obtain _ | ⟨hv, hvs⟩ := hvs
    obtain _ | ⟨hv', hvs'⟩ := hvs'
    refine .cons ⟨?_, ?_⟩ (ih hes.2 hvs hvs')
    · intro u hu
      rw [hv, Except.ok.injEq] at hu
      exact hu ▸ hv'
    · intro T hT
      obtain ⟨U, hU⟩ := hes.1
      rw [htemps, hU.typeIn, Except.ok.injEq] at hT
      rw [← hT]
      exact ((hea.hasTy U hU).mono (.refl P) (tempTy_mono hfinal) (List.Subset.refl _)).typeIn

/-- The flat form `r` of the statement `s`, emitted from a point that declares `temps`. It does what
`s` does, but fails if `s` is skipped and its arguments have no values. -/
structure FlatForm (P : Policy) (temps₀ : Array Ty) (defs : List Temp) (temps : Array Ty)
    (defs' : List Temp) (s : Stmt) (r : List Stmt) (temps' : Array Ty) : Prop where
  ok : Stmt.AllOk P temps' defs' r
  flat : ∀ s' ∈ r, s'.Flat
  ext : temps.toList <+: temps'.toList
  ctx : Ctx temps₀ (s.defsAfter defs) temps' (Stmt.defsAfterAll r defs')
  expands : ∀ env final, temps'.toList <+: final.toList →
    s.Expands (fun m m' => Linked temps₀ env final defs defs' m m' ∧ m.EagerAt s)
      (Linked temps₀ env final (s.defsAfter defs) (Stmt.defsAfterAll r defs')) r
  stuck : ∀ env final, temps'.toList <+: final.toList → ∀ m m',
    Linked temps₀ env final defs defs' m m' → ¬m.EagerAt s → ∀ next kind ss,
    Machine.finish next kind (r ++ ss) m' = none

/-- A statement of the same form, behind emitted code. -/
theorem FlatForm.of_code {s' : Stmt} (hctx : Ctx temps₀ defs temps defs')
    (hs : s.Ok P temps₀ defs) (hcode : Emitted P temps defs' code temps')
    (hs' : s'.Ok P temps' (Stmt.defsAfterAll code defs')) (hdef : s'.def? = s.def?)
    (hflat : s'.Flat)
    (hsim : ∀ final, temps'.toList <+: final.toList → ∀ m m', m.temps = temps₀ →
      Rel final defs' m m' →
      (∃ vs, List.Forall₂ (fun e v => m.eval e = .ok v) s.operands vs) →
      ∃ m'', Machine.exec code m' = some m'' ∧ Rel final (Stmt.defsAfterAll code defs') m m'' ∧
        s.Similar (m.Carries m'') id s')
    (heager : ∀ final, temps'.toList <+: final.toList → ∀ m m' m'', m.temps = temps₀ →
      m.Sound defs → Rel final defs' m m' → Machine.exec code m' = some m'' → m.EagerAt s) :
    FlatForm P temps₀ defs temps defs' s (code ++ [s']) temps' := by
  have hctx' := hctx.emit hcode
  refine ⟨Stmt.allOk_append.mpr ⟨hcode.ok, hs', trivial⟩, ?_, hcode.ext, ?_, ?_, ?_⟩
  · exact List.forall_mem_append.mpr ⟨hcode.flat, by simpa using hflat⟩
  · rw [Stmt.defsAfterAll_append]
    exact hctx'.define hs hdef
  · intro env final hfinal
    refine expands_code hs hctx'.ext hs' hfinal fun m m' hlink hvals => ?_
    exact hsim final hfinal m m' hlink.temps hlink.rel hvals
  · intro env final hfinal m m' hlink hnot next kind ss
    -- a run that ends has passed the code, and then the arguments have values
    rw [Option.eq_none_iff_forall_ne_some, List.append_assoc]
    intro out hout
    rcases Machine.finish_append_eq_some.mp hout with h | ⟨m'', hexec, -⟩
    · simp [hcode.left?_eq_none] at h
    · exact hnot (heager final hfinal m m' m'' hlink.temps hlink.sound hlink.rel hexec)

theorem flat_of_atoms (h : ∀ e ∈ s.operands, e.isAtom = true) : s.Flat := by
  cases s with
  | assign dst src =>
    have hatom : src.isAtom = true := h src (by simp [Stmt.operands])
    simp [Stmt.Flat, Expr.children_of_isAtom hatom]
  | _ => exact h

/-- A statement whose operands are replaced by atoms. -/
theorem FlatForm.of_operands (hctx : Ctx temps₀ defs temps defs') (hs : s.Ok P temps₀ defs)
    (hops : Operands P temps₀ defs temps defs' s.operands as code temps') :
    FlatForm P temps₀ defs temps defs' s (code ++ [s.withOperands as]) temps' := by
  have hsim := Stmt.similar_withOperands hops.operands
  have hdef : (s.withOperands as).def? = s.def? := by simpa using hsim.def?
  have hctx' := hctx.emit hops.emitted
  refine .of_code hctx hs hops.emitted ?_ hdef ?_ ?_ ?_
  · refine hs.similar hsim (hs.allowsStmt (.refl P)) (fun _ _ _ hea => hea.hasTy) ?_ ?_
    · intro c a htrue hca
      refine hca.const c rfl ?_
      simp only [Const.isTrue, Bool.and_eq_true, beq_iff_eq] at htrue
      simp [htrue.1]
    · intro t ht
      exact ⟨tempTy_mono hctx'.ext t, hctx'.not_mem_of_def? hs ht⟩
  · exact flat_of_atoms (forall_of_forall₂ hsim.operands fun _ _ _ hea => hea.isAtom)
  · intro final hfinal m m' htemps hrel hvals
    obtain ⟨vs, hvs⟩ := hvals
    obtain ⟨m'', hexec, has⟩ := hops.computes final hfinal m m' vs htemps hrel hvs
    obtain ⟨hrel', -⟩ := hrel.exec hops.emitted hfinal hexec
    refine ⟨m'', hexec, hrel', Stmt.similar_withOperands ?_⟩
    exact forall₂_carries hops.operands (fun e he => hs.operand he) htemps
      (hrel'.temps.symm ▸ hfinal) hvs has
  · intro final hfinal m m' m'' htemps hsound hrel hexec x hx _ a ha
    -- the guard does not matter: all operands were computed
    refine hops.evaluates final hfinal m m' m'' htemps hsound hrel hexec a ?_
    rw [hx]
    exact List.mem_append_right _ (List.mem_cons_of_mem _ ha)

/-- An assignment whose right side is put over atoms. -/
theorem FlatForm.of_source {dst : Temp} (hctx : Ctx temps₀ defs temps defs')
    (hs : (Stmt.assign dst e).Ok P temps₀ defs) (hatom : e.isAtom = false)
    (hops : Operands P temps₀ defs temps defs' e.children as code temps') :
    FlatForm P temps₀ defs temps defs' (.assign dst e)
      (code ++ [.assign dst (e.withChildren as)]) temps' := by
  obtain ⟨T, hT, hdst, hfresh⟩ := id hs
  have hctx' := hctx.emit hops.emitted
  have hT' := hops.hasTy hatom hT
  refine .of_code hctx hs hops.emitted ?_ rfl hops.isAtom_children ?_
    fun _ _ _ _ _ _ _ _ _ x hx => by simp at hx
  · exact ⟨T, hT', tempTy_mono hctx'.ext dst T hdst, hctx'.not_mem_of_def? hs rfl⟩
  · intro final hfinal m m' htemps hrel hvals
    obtain ⟨vs, hvs⟩ := hvals
    obtain _ | ⟨hv, ⟨⟩⟩ := hvs
    obtain ⟨m'', hexec, hrel', hv'⟩ := hops.exec_node hatom hfinal htemps hrel hv
    refine ⟨m'', hexec, hrel', _, rfl, ?_, ?_⟩
    · intro u hu
      rw [hv, Except.ok.injEq] at hu
      exact hu ▸ hv'
    · intro U hU
      rw [htemps, hT.typeIn, Except.ok.injEq] at hU
      rw [hrel'.temps, ← hU]
      exact (hT'.mono (.refl P) (tempTy_mono hfinal) (List.Subset.refl _)).typeIn

/-- The operands of a statement that are not nested too deeply, one after the other. -/
theorem operands_yield (hctx : Ctx temps₀ defs temps defs') (hs : s.Ok P temps₀ defs)
    (hnest : ∀ e ∈ s.operands, e.NestsWithin maxDepth)
    (hroom : temps.size + (s.operands.map Expr.fresh).sum ≤ 2 ^ 31) :
    ∃ as code temps', s.operands.mapM atom temps = .ok (as, code, temps') ∧
      temps'.size = temps.size + (s.operands.map Expr.fresh).sum ∧
      Operands P temps₀ defs temps defs' s.operands as code temps' := by
  refine yields_mapM (fun e he => ?_) hctx hroom
  obtain ⟨T, hT⟩ := hs.operand he
  exact atomUpTo_yields maxDepth (hnest e he) hT

/-- A statement other than an assignment, or the assignment of an atom. -/
theorem stmt_spec_of_operands (hctx : Ctx temps₀ defs temps defs') (hs : s.Ok P temps₀ defs)
    (hnest : ∀ e ∈ s.operands, e.NestsWithin maxDepth)
    (hroom : temps.size + (s.operands.map Expr.fresh).sum ≤ 2 ^ 31) :
    ∃ r temps', (do
        Emit.check s.demand
        let s ← s.mapOperandsM atom
        Emit.stmt s : Emit Unit) temps = .ok ((), r, temps') ∧
      temps'.size = temps.size + (s.operands.map Expr.fresh).sum ∧
      r.length = (s.operands.map Expr.fresh).sum + 1 ∧ FlatForm P temps₀ defs temps defs' s r temps' := by
  obtain ⟨as, code, temps', has, hsize, hops⟩ := operands_yield hctx hs hnest hroom
  have hlength := hops.emitted.length
  refine ⟨code ++ [s.withOperands as], temps', ?_, hsize, by simp; omega, .of_operands hctx hs hops⟩
  have hcheck : Emit.check s.demand temps = .ok ((), [], temps) := by
    rw [Emit.check, Stmt.demand_eq_ok hs.ne_missing]
    rfl
  have hmap : s.mapOperandsM atom temps = .ok (s.withOperands as, code, temps') := by
    rw [Stmt.mapOperandsM_eq, ← List.append_nil code]
    exact Emit.bind_ok has rfl
  rw [← List.nil_append (code ++ _)]
  exact Emit.bind_ok hcheck (Emit.bind_ok hmap rfl)

/-- A statement whose operands are not nested too deeply has a flat form. -/
theorem stmt_spec (hctx : Ctx temps₀ defs temps defs') (hs : s.Ok P temps₀ defs)
    (hnest : ∀ e ∈ s.operands, e.NestsWithin maxDepth) (hroom : temps.size + s.fresh ≤ 2 ^ 31) :
    ∃ r temps', stmt s temps = .ok ((), r, temps') ∧ temps'.size = temps.size + s.fresh ∧
      r.length = s.flatLength ∧ FlatForm P temps₀ defs temps defs' s r temps' := by
  cases s with
  | missing => exact hs.elim
  | noop =>
    refine ⟨[], temps, rfl, rfl, rfl, trivial, by simp, List.prefix_rfl, hctx, ?_, ?_⟩
    · intro env final _
      constructor
      · rintro m m' m₁ ⟨hlink, -⟩ hstep
        have hm : m = m₁ := Machine.Step.next.inj hstep
        exact ⟨m', rfl, hm ▸ hlink⟩
      · intro m m' k dst _ hleave
        obtain ⟨guard, g, h, -⟩ := Machine.step_eq_leave.mp hleave
        simp at h
    · intro env final _ m m' _ hnot
      exact absurd (fun x hx => by simp at hx) hnot
  | assign dst src =>
    obtain ⟨T, hT, -⟩ := id hs
    cases hatom : src.isAtom with
    | true =>
      have hfresh : (Stmt.assign dst src).fresh = 0 := by
        simp [Stmt.fresh, Expr.children_of_isAtom hatom]
      refine ⟨[.assign dst src], temps, ?_, by omega, by rw [Stmt.flatLength, hfresh]; rfl,
        .of_operands hctx hs (operands_atom hctx hatom fun _ _ => ⟨T, hT⟩)⟩
      rw [stmt, source, if_pos hatom]
      rfl
    | false =>
      have hf : ∀ c ∈ src.children, Yields P temps₀ defs c (atomUpTo maxDepth c) := by
        intro c hc
        obtain ⟨U, hU⟩ := hT.child hc
        exact atomUpTo_yields (maxDepth - 1) (hnest src (by simp [Stmt.operands]) c hc) hU
      obtain ⟨cs, code, temps', hcs, hsize, hops⟩ := operands_spec hf hT hctx hroom
      have hlength : code.length = (Stmt.assign dst src).fresh := by
        have hcode := hops.emitted.length
        rw [Stmt.fresh]
        omega
      refine ⟨_, temps', ?_, hsize, ?_, .of_source hctx hs hatom hops⟩
      swap
      · rw [List.length_append, hlength]
        rfl
      rw [stmt, source, if_neg (by simp [hatom])]
      exact Emit.bind_ok hcs rfl
  | _ => exact stmt_spec_of_operands hctx hs hnest hroom

/-! ## Bodies -/

/-- The flat form of statements: it keeps the rules, and does what they do, or fails at an effect
that they skip. -/
structure FlatForms (P : Policy) (temps₀ : Array Ty) (defs : List Temp) (temps : Array Ty)
    (defs' : List Temp) (ss r : List Stmt) (temps' : Array Ty) : Prop where
  ok : Stmt.AllOk P temps' defs' r
  flat : ∀ s' ∈ r, s'.Flat
  ext : temps.toList <+: temps'.toList
  ctx : Ctx temps₀ (Stmt.defsAfterAll ss defs) temps' (Stmt.defsAfterAll r defs')
  expanded : ∀ env final, temps'.toList <+: final.toList → ∀ rest,
    Expanded (fun m m' => Linked temps₀ env final defs defs' m m' ∧ Machine.Eager (ss ++ rest) m)
      (fun m m' =>
        Linked temps₀ env final (Stmt.defsAfterAll ss defs) (Stmt.defsAfterAll r defs') m m' ∧
          Machine.Eager rest m) ss r
  stuck : ∀ env final, temps'.toList <+: final.toList → ∀ m m',
    Linked temps₀ env final defs defs' m m' → ¬Machine.Eager ss m → ∀ next kind tail,
    Machine.finish next kind (r ++ tail) m' = none

theorem FlatForms.cons {ss r r' : List Stmt} (h : FlatForm P temps₀ defs temps defs' s r temps')
    (h' : FlatForms P temps₀ (s.defsAfter defs) temps' (Stmt.defsAfterAll r defs') ss r' temps'') :
    FlatForms P temps₀ defs temps defs' (s :: ss) (r ++ r') temps'' := by
  refine ⟨?_, List.forall_mem_append.mpr ⟨h.flat, h'.flat⟩, h.ext.trans h'.ext, ?_, ?_, ?_⟩
  · exact Stmt.allOk_append.mpr ⟨h.ok.mono (.refl P) (tempTy_mono h'.ext), h'.ok⟩
  · rw [Stmt.defsAfterAll_append]
    exact h'.ctx
  · intro env final hfinal rest
    rw [Stmt.defsAfterAll_append]
    have hs := h.expands env final (h'.ext.trans hfinal)
    exact .cons hs.eager (h'.expanded env final hfinal rest)
  · intro env final hfinal m m' hlink hnot next kind tail
    have hfinal' := h'.ext.trans hfinal
    rw [List.append_assoc]
    by_cases heager : m.EagerAt s
    · -- the flat form of `s` goes on, and one of the statements behind it gets stuck
      rw [Machine.eager_cons, not_and, not_forall] at hnot
      obtain ⟨m₁, hnot⟩ := hnot heager
      rw [Classical.not_imp] at hnot
      obtain ⟨m₁', hexec, hlink'⟩ :=
        (h.expands env final hfinal').step m m' m₁ ⟨hlink, heager⟩ hnot.1
      rw [Machine.finish_append hexec]
      exact h'.stuck env final hfinal m₁ m₁' hlink' hnot.2 next kind tail
    · exact h.stuck env final hfinal' m m' hlink heager next kind _

/-- Statements that are not nested too deeply have a flat form, which stands in front of that of
whatever follows. -/
theorem stmts_spec {ss : List Stmt} (hctx : Ctx temps₀ defs temps defs')
    (hss : Stmt.AllOk P temps₀ defs ss) (hnest : ∀ s ∈ ss, ∀ e ∈ s.operands, e.NestsWithin maxDepth)
    (hroom : temps.size + (ss.map Stmt.fresh).sum ≤ 2 ^ 31) :
    ∃ r temps', temps'.size = temps.size + (ss.map Stmt.fresh).sum ∧
      r.length = (ss.map Stmt.flatLength).sum ∧ FlatForms P temps₀ defs temps defs' ss r temps' ∧
      ∀ next rest a code temps'', body next rest temps' = .ok (a, code, temps'') →
        body next (ss ++ rest) temps = .ok (a, r ++ code, temps'') := by
  induction ss generalizing defs temps defs' with
  | nil =>
    refine ⟨[], temps, rfl, rfl, ?_, fun _ _ _ _ _ h => h⟩
    exact ⟨trivial, by simp, List.prefix_rfl, hctx, fun _ _ _ _ => .nil,
      fun _ _ _ _ _ _ hnot => absurd Machine.eager_nil hnot⟩
  | cons s ss ih =>
    rw [List.forall_mem_cons] at hnest
    rw [List.map_cons, List.sum_cons] at hroom
    obtain ⟨r, temps₁, hr, hsize, hlength, hform⟩ := stmt_spec hctx hss.1 hnest.1 (by omega)
    obtain ⟨r', temps', hsize', hlength', hforms, hbody⟩ := ih hform.ctx hss.2 hnest.2 (by omega)
    refine ⟨r ++ r', temps', ?_, ?_, .cons hform hforms, fun next rest a code temps'' h => ?_⟩
    · rw [List.map_cons, List.sum_cons]
      omega
    · rw [List.map_cons, List.sum_cons, List.length_append, hlength, hlength']
    · rw [List.cons_append, body, List.append_assoc]
      exact Emit.bind_ok hr (hbody next rest a code temps'' h)

/-- Statements and a successor that are not nested too deeply have a flat form. -/
theorem body_spec {ss : List Stmt} {next : Expr} (hctx : Ctx temps₀ defs temps defs')
    (hss : Stmt.AllOk P temps₀ defs ss) (hnest : ∀ s ∈ ss, ∀ e ∈ s.operands, e.NestsWithin maxDepth)
    (hnext : Yields P temps₀ (Stmt.defsAfterAll ss defs) next (atom next))
    (hroom : temps.size + (ss.map Stmt.fresh).sum + next.fresh ≤ 2 ^ 31) :
    ∃ a r code temps₁ temps', body next ss temps = .ok (a, r ++ code, temps') ∧
      temps'.size = temps.size + (ss.map Stmt.fresh).sum + next.fresh ∧
      (r ++ code).length = (ss.map Stmt.flatLength).sum + next.fresh ∧
      FlatForms P temps₀ defs temps defs' ss r temps₁ ∧
      Operands P temps₀ (Stmt.defsAfterAll ss defs) temps₁ (Stmt.defsAfterAll r defs') [next] [a]
        code temps' := by
  obtain ⟨r, temps₁, hsize, hlength, hforms, hbody⟩ := stmts_spec hctx hss hnest (by omega)
  obtain ⟨a, code, temps', ha, hsize', hop⟩ := hnext temps₁ _ hforms.ctx (by omega)
  refine ⟨a, r, code, temps₁, temps', ?_, by omega, ?_, hforms, hop⟩
  · rw [← List.append_nil ss]
    exact hbody next [] a code temps' ha
  · have hcode := hop.emitted.length
    rw [List.length_append]
    omega

/-- Emission starts with the temporaries of the block. -/
theorem Ctx.start {b : Block} (hb : b.Typed P) : Ctx b.temps [] b.temps [] :=
  ⟨List.prefix_rfl, List.Subset.refl _, by simp, by simp, hb.temps⟩

/-- The machines at the start of a block and of its flat form. -/
theorem Linked.start (b : Block) (env : Env) (final : Array Ty) (st : State) :
    Linked b.temps env final [] [] (.start b.temps env st) (.start final env st) := by
  refine ⟨rfl, rfl, Machine.sound_start _ _ _, rfl, rfl, rfl, Machine.sound_start _ _ _,
    fun t v hv => ?_⟩
  obtain ⟨-, hval⟩ := Machine.eval_tmp_eq_ok.mp hv
  simp [Machine.start] at hval

/-- The successor of a typed block is an address, or a constant that stays as it is. -/
theorem next_yields {b : Block} (hb : b.Typed P) (hnest : b.next.NestsWithin maxDepth) :
    Yields P b.temps (Stmt.defsAfterAll b.stmts []) b.next (atom b.next) := by
  rcases hb.next with (h | h) | ⟨c, hc, -⟩
  · exact atomUpTo_yields maxDepth hnest h
  · exact atomUpTo_yields maxDepth hnest h
  · intro temps defs' hctx _
    have hfresh := hb.fresh_next hc
    refine ⟨b.next, [], temps, ?_, by omega,
      operands_atom hctx (by rw [hc]; rfl) fun t ht => by simp [hc] at ht⟩
    rw [hc, atom, atomUpTo, if_neg (hb.next_tag_ne hc)]
    rfl

/-! ## What machines carry -/

/-- A property of the machines of the original that its steps keep and under which the arguments of
its effects have values. -/
structure Carried (P : Policy) (temps₀ : Array Ty) (env : Env) (Inv : List Temp → Machine → Prop)
    (s : Stmt) : Prop where
  step : ∀ defs m m₁, m.temps = temps₀ → m.env = env → Inv defs m → s.Ok P temps₀ defs →
    m.step s = .next m₁ → Inv (s.defsAfter defs) m₁
  args : ∀ defs m x, m.temps = temps₀ → m.env = env → Inv defs m → s.Ok P temps₀ defs →
    s = .effect x → ∀ a ∈ x.args, ∃ v, m.eval a = .ok v

variable {Inv : List Temp → Machine → Prop}

theorem Carried.eager {ss : List Stmt} (hcar : ∀ s ∈ ss, Carried P temps₀ env Inv s)
    (hok : Stmt.AllOk P temps₀ defs ss) (htemps : m.temps = temps₀) (henv : m.env = env)
    (hinv : Inv defs m) : Machine.Eager ss m := by
  induction ss generalizing defs m with
  | nil => exact Machine.eager_nil
  | cons s ss ih =>
    rw [List.forall_mem_cons] at hcar
    refine Machine.eager_cons.mpr ⟨fun x hx _ a ha => ?_, fun m₁ hstep => ?_⟩
    · exact hcar.1.args defs m x htemps henv hinv hok.1 hx a ha
    · exact ih hcar.2 hok.2 ((Machine.step_temps hstep).trans htemps)
        ((Machine.step_env hstep).trans henv) (hcar.1.step defs m m₁ htemps henv hinv hok.1 hstep)

/-- Sound machines give atoms their values. -/
theorem carried_sound (h : ∀ x, s = .effect x → ∀ a ∈ x.args, a.isAtom = true) :
    Carried P temps₀ env (fun defs m => m.Sound defs) s := by
  constructor
  · intro defs m m₁ htemps _ hm hs hstep
    exact hm.step hstep (htemps.symm ▸ hs)
  · intro defs m x htemps _ hm hs hx a ha
    obtain ⟨T, hT⟩ := (hx ▸ hs : (Stmt.effect x).Ok P temps₀ defs).args a ha
    exact hm.eval_atom (htemps.symm ▸ hT) (h x hx a ha)

/-- Machines that are ready give every typed expression a value. -/
theorem carried_ready {n : Nat} (hP : P.Le (.fits env n)) :
    Carried P temps₀ env (fun defs m => m.Ready defs n) s := by
  have hok : ∀ defs, s.Ok P temps₀ defs → s.Ok (.fits env n) temps₀ defs := fun defs hs =>
    hs.mono hP (fun _ _ => id) (List.Subset.refl _) fun t ht => (hs.of_def? ht).2
  constructor
  · intro defs m m₁ htemps henv hm hs hstep
    exact hm.step (henv.symm ▸ htemps.symm ▸ hok defs hs) hstep
  · intro defs m x htemps henv hm hs hx a ha
    obtain ⟨T, hT⟩ := (hx ▸ hok defs hs : (Stmt.effect x).Ok _ temps₀ defs).args a ha
    exact hm.progress (henv.symm ▸ htemps.symm ▸ hT)

end Flat

/-- No tree of the block has a node more than `n` levels below its root. -/
def Block.NestsWithin (n : Nat) (b : Block) : Prop :=
  (∀ s ∈ b.stmts, ∀ e ∈ s.operands, e.NestsWithin n) ∧ b.next.NestsWithin n

instance (n : Nat) (b : Block) : Decidable (b.NestsWithin n) :=
  inferInstanceAs (Decidable (_ ∧ _))

theorem Block.flatten_of_body {b : Block} {a : Expr} {code : List Stmt} {temps : Array Ty}
    (h : Flat.body b.next b.stmts b.temps = .ok (a, code, temps)) :
    b.flatten = .ok { b with temps, stmts := code, next := a } := by
  rw [Block.flatten, h]
  rfl

open Flat in
/-- A typed block that is not nested too deeply is made flat without a failure if there is room for
its temporaries. Its flat form does the same, as long as the effects that are skipped have values
for their arguments. -/
theorem Block.flatten_eager {P : Policy} {b : Block} (hb : b.Typed P)
    (hnest : b.NestsWithin Flat.maxDepth) (hroom : b.flatSize ≤ 2 ^ 31) :
    ∃ r, b.flatten = .ok r ∧ r.temps.size = b.flatSize ∧ r.Flat ∧ b.Keeps P r ∧
      ∀ env st out, b.Eager st env → b.ends st env = some out → r.ends st env = some out := by
  obtain ⟨a, r, code, temps₁, temps', hbody, hsize, -, hforms, hop⟩ :=
    body_spec (Ctx.start hb) hb.stmts hnest.1 (next_yields hb hnest.2) hroom
  obtain _ | ⟨ha, -⟩ := hop.operands
  have hext := hop.emitted.ext
  have hflat : Block.Flat { b with temps := temps', stmts := r ++ code, next := a } :=
    ⟨List.forall_mem_append.mpr ⟨hforms.flat, hop.emitted.flat⟩, ha.isAtom⟩
  refine ⟨{ b with temps := temps', stmts := r ++ code, next := a }, ?_, hsize, hflat,
    ⟨⟨hop.emitted.bytes, ?_, ?_, hb.kind⟩, fun _ => hflat, ?_⟩, ?_⟩
  · exact Block.flatten_of_body hbody
  · exact Stmt.allOk_append.mpr ⟨hforms.ok.mono (.refl P) (tempTy_mono hext), hop.emitted.ok⟩
  · unfold Block.NextOk
    simp only [Stmt.defsAfterAll_append]
    rcases hb.next with (h | h) | ⟨c, hc, htag, hexit⟩
    · exact .inl (.inl (ha.hasTy _ h))
    · exact .inl (.inr (ha.hasTy _ h))
    · exact .inr ⟨c, ha.const c hc (hb.next_tag_ne hc), htag, hexit⟩
  · -- a constant successor stays, and any other atom is typed
    unfold Block.NextFits
    simp only
    by_cases hconst : ∃ c, b.next = .const c
    · obtain ⟨c, hc⟩ := hconst
      rw [ha.const c hc (hb.next_tag_ne hc), hc]
    · refine iff_of_true ?_ fun c hc => absurd ⟨c, hc⟩ hconst
      intro c hc
      rcases hb.next with (h | h) | ⟨c', hc', -⟩
      · exact (hc ▸ ha.hasTy _ h : (Expr.const c).HasTy P _ _ _).2.2
      · exact (hc ▸ ha.hasTy _ h : (Expr.const c).HasTy P _ _ _).2.2
      · exact absurd ⟨c', hc'⟩ hconst
  · intro env st out heager hout
    -- no statement is left to be skipped behind the last one
    rw [Block.Eager, ← List.append_nil b.stmts] at heager
    rw [Block.ends_eq] at hout ⊢
    refine (hforms.expanded env temps' hext []).finish ?_ ⟨.start b env temps' st, heager⟩ hout
    rintro m m' v ⟨hlink, -⟩ hv
    obtain ⟨m'', hexec, hvs⟩ := hop.computes temps' List.prefix_rfl m m' [v] hlink.temps hlink.rel
      (.cons hv .nil)
    obtain ⟨hrel, -⟩ := hlink.rel.exec hop.emitted List.prefix_rfl hexec
    obtain _ | ⟨hv', -⟩ := hvs
    rw [← List.append_nil code, Machine.finish_append hexec, ← hrel.state]
    exact Machine.finish_nil_eq_some.mpr ⟨v, hv', rfl⟩

open Flat in
/-- The flat block does the same as the block if the machines carry what gives the arguments of
effects their values. -/
theorem Block.flatten_spec {P : Policy} {b : Block} (hb : b.Typed P)
    (hnest : b.NestsWithin Flat.maxDepth) (hroom : b.flatSize ≤ 2 ^ 31) :
    ∃ r, b.flatten = .ok r ∧ r.temps.size = b.flatSize ∧ r.Flat ∧ b.Keeps P r ∧
      ∀ env Inv, (∀ s ∈ b.stmts, Carried P b.temps env Inv s) → ∀ st out,
        Inv [] (.start b.temps env st) → b.ends st env = some out → r.ends st env = some out := by
  obtain ⟨r, hr, hsize, hflat, hkeeps, hends⟩ := Block.flatten_eager hb hnest hroom
  refine ⟨r, hr, hsize, hflat, hkeeps, fun env Inv hcar st out hinv hout => ?_⟩
  exact hends env st out (Carried.eager hcar hb.stmts rfl rfl hinv) hout

open Flat in
/-- The flat block fails if the block skips an effect with an argument that has no value. -/
theorem Block.flatten_stuck {P : Policy} {b r : Block} {st : State} {env : Env} (hb : b.Typed P)
    (hnest : b.NestsWithin Flat.maxDepth) (hroom : b.flatSize ≤ 2 ^ 31) (hr : b.flatten = .ok r)
    (hnot : ¬b.Eager st env) : r.ends st env = none := by
  obtain ⟨a, r', code, temps₁, temps', hbody, -, -, hforms, hop⟩ :=
    body_spec (Ctx.start hb) hb.stmts hnest.1 (next_yields hb hnest.2) hroom
  rw [Block.flatten_of_body hbody, Except.ok.injEq] at hr
  subst hr
  rw [Block.ends_eq]
  exact hforms.stuck env temps' hop.emitted.ext _ _ (.start b env temps' st) hnot a b.kind code

open Flat in
theorem Block.length_flatten {P : Policy} {b r : Block} (hb : b.Typed P)
    (hnest : b.NestsWithin Flat.maxDepth) (hroom : b.flatSize ≤ 2 ^ 31) (hr : b.flatten = .ok r) :
    r.stmts.length = (b.stmts.map Stmt.flatLength).sum + b.next.fresh := by
  obtain ⟨a, r', code, temps₁, temps', hbody, -, hlength, -⟩ :=
    body_spec (Ctx.start hb) hb.stmts hnest.1 (next_yields hb hnest.2) hroom
  rw [Block.flatten_of_body hbody, Except.ok.injEq] at hr
  rw [← hr]
  exact hlength

open Flat in
/-- If the run of a block is left through an exit among the statements `mid`, the run of the flat
block is left through an exit among those that stand for `mid`. -/
theorem Block.flatten_exit {P : Policy} {b r : Block} {env : Env} {Inv : List Temp → Machine → Prop}
    {pre mid rest : List Stmt} {st : State} {m : Machine} {out : Outcome} (hb : b.Typed P)
    (hnest : b.NestsWithin Flat.maxDepth) (hroom : b.flatSize ≤ 2 ^ 31) (hr : b.flatten = .ok r)
    (hsplit : b.stmts = pre ++ (mid ++ rest)) (hcar : ∀ s ∈ b.stmts, Carried P b.temps env Inv s)
    (hinv : Inv [] (.start b.temps env st))
    (hexec : Machine.exec pre (.start b.temps env st) = some m)
    (hleft : Machine.left? mid m = some out) :
    ∃ q, (pre.map Stmt.flatLength).sum ≤ q ∧
      q < (pre.map Stmt.flatLength).sum + (mid.map Stmt.flatLength).sum ∧
      r.run st env = ⟨.ok ⟨out.target, out.kind, some q⟩, out.state⟩ := by
  have hok := hb.stmts
  have hdepth := hnest.1
  have heager := Carried.eager hcar hok rfl rfl hinv
  rw [flatSize, hsplit, List.map_append, List.map_append, List.sum_append, List.sum_append] at hroom
  rw [hsplit, Stmt.allOk_append, Stmt.allOk_append] at hok
  rw [hsplit, List.forall_mem_append, List.forall_mem_append] at hdepth
  rw [hsplit] at heager
  obtain ⟨r₁, temps₁, hsize₁, hlength₁, hforms₁, hbody₁⟩ :=
    stmts_spec (Ctx.start hb) hok.1 hdepth.1 (by omega)
  obtain ⟨r₂, temps₂, hsize₂, hlength₂, hforms₂, hbody₂⟩ :=
    stmts_spec hforms₁.ctx hok.2.1 hdepth.2.1 (by omega)
  have hnext := next_yields hb hnest.2
  rw [hsplit, Stmt.defsAfterAll_append, Stmt.defsAfterAll_append] at hnext
  obtain ⟨a, r₃, code, temps₃, temps', hbody, -, -, hforms₃, hop⟩ :=
    body_spec hforms₂.ctx hok.2.2 hdepth.2.2 hnext (by omega)
  -- the flat form of the whole is that of the three parts, one after the other
  have hwhole := hbody₁ _ _ _ _ _ (hbody₂ _ _ _ _ _ hbody)
  rw [← hsplit] at hwhole
  rw [Block.flatten_of_body hwhole, Except.ok.injEq] at hr
  subst hr
  have hext₂ := hforms₃.ext.trans hop.emitted.ext
  obtain ⟨m', hexec', hlink⟩ := (hforms₁.expanded env temps' (hforms₂.ext.trans hext₂) _).exec
    ⟨.start b env temps' st, heager⟩ hexec
  have hleft' := (hforms₂.expanded env temps' hext₂ rest).left hlink hleft
  obtain ⟨q, hlo, hhi, hrun⟩ :=
    Machine.run_append_of_left hleft' a b.kind (0 + r₁.length) (r₃ ++ code)
  rw [← Machine.run_append hexec'] at hrun
  exact ⟨q, by omega, by omega, hrun⟩

end Straightline
