import Mathlib
import Straightline.Block

/-!
# Terms of the same form

Passes replace the operands of a node or of a statement and leave the rest as it is. `Similar R`
relates an expression to one with the same head whose operands are related by `R`, and a statement
to one of the same form; a statement may also define another temporary, which `g` says. What
survives such a change is proved once for each of typing, values and steps.
-/

namespace Straightline

/-- What follows from a relation to the elements of one list holds of the other. -/
theorem forall_of_forall₂ {α β : Type} {R : α → β → Prop} {p : β → Prop} {l : List α} {l' : List β}
    (h : List.Forall₂ R l l') (hp : ∀ a ∈ l, ∀ b, R a b → p b) : ∀ b ∈ l', p b := by
  induction h with
  | nil => simp
  | cons hab _ ih =>
    rw [List.forall_mem_cons] at hp ⊢
    exact ⟨hp.1 _ hab, ih hp.2⟩

/-! ## Expressions -/

namespace Expr

/-- The same head, with operands related by `R`. -/
def Similar (R : Expr → Expr → Prop) : Expr → Expr → Prop
  | getIx w ix bias, e' => ∃ ix', e' = getIx w ix' bias ∧ R ix ix'
  | unop op a, e' => ∃ a', e' = unop op a' ∧ R a a'
  | binop op a b, e' => ∃ a' b', e' = binop op a' b' ∧ R a a' ∧ R b b'
  | load ty a, e' => ∃ a', e' = load ty a' ∧ R a a'
  | call callee ty args, e' => ∃ args', e' = call callee ty args' ∧ List.Forall₂ R args args'
  | select c z x, e' => ∃ c' z' x', e' = select c' z' x' ∧ R c c' ∧ R z z' ∧ R x x'
  | e, e' => e' = e

variable {R S : Expr → Expr → Prop} {e e' : Expr}

theorem children_of_isAtom (h : e.isAtom = true) : e.children = [] := by
  cases e <;> simp_all [isAtom, children]

theorem similar_mapChildren {f : Expr → Expr} (h : ∀ c ∈ e.children, R c (f c)) :
    Similar R e (e.mapChildren f) := by
  cases e with
  | missing | tmp | const | get => rfl
  | getIx w ix bias => exact ⟨f ix, rfl, h ix (by simp [children])⟩
  | unop op a => exact ⟨f a, rfl, h a (by simp [children])⟩
  | binop op a b => exact ⟨f a, f b, rfl, h a (by simp [children]), h b (by simp [children])⟩
  | load ty a => exact ⟨f a, rfl, h a (by simp [children])⟩
  | call callee ty args =>
    refine ⟨args.map f, rfl, ?_⟩
    rw [List.forall₂_map_right_iff]
    exact List.forall₂_same.mpr h
  | select c z x =>
    exact ⟨f c, f z, f x, rfl, h c (by simp [children]), h z (by simp [children]),
      h x (by simp [children])⟩

/-- An expression is of its own form. -/
theorem similar_self (h : ∀ c ∈ e.children, R c c) : Similar R e e := by
  cases e with
  | missing | tmp | const | get => rfl
  | getIx w ix bias => exact ⟨ix, rfl, h ix (by simp [children])⟩
  | unop op a => exact ⟨a, rfl, h a (by simp [children])⟩
  | binop op a b => exact ⟨a, b, rfl, h a (by simp [children]), h b (by simp [children])⟩
  | load ty a => exact ⟨a, rfl, h a (by simp [children])⟩
  | call callee ty args => exact ⟨args, rfl, List.forall₂_same.mpr h⟩
  | select c z x =>
    exact ⟨c, z, x, rfl, h c (by simp [children]), h z (by simp [children]),
      h x (by simp [children])⟩

/-- The operands of similar expressions correspond. -/
theorem Similar.children (h : Similar R e e') : List.Forall₂ R e.children e'.children := by
  cases e with
  | missing | tmp | const | get =>
    rw [show e' = _ from h]
    exact .nil
  | getIx w ix bias =>
    obtain ⟨ix', rfl, hix⟩ := h
    exact .cons hix .nil
  | unop op a =>
    obtain ⟨a', rfl, ha⟩ := h
    exact .cons ha .nil
  | binop op a b =>
    obtain ⟨a', b', rfl, ha, hb⟩ := h
    exact .cons ha (.cons hb .nil)
  | load ty a =>
    obtain ⟨a', rfl, ha⟩ := h
    exact .cons ha .nil
  | call callee ty args =>
    obtain ⟨args', rfl, hargs⟩ := h
    exact hargs
  | select c z x =>
    obtain ⟨c', z', x', rfl, hc, hz, hx⟩ := h
    exact .cons hc (.cons hz (.cons hx .nil))

theorem Similar.isAtom (h : Similar R e e') : e'.isAtom = e.isAtom := by
  cases e with
  | missing | tmp | const | get => rw [show e' = _ from h]
  | getIx w ix bias =>
    obtain ⟨ix', rfl, -⟩ := h
    rfl
  | unop op a =>
    obtain ⟨a', rfl, -⟩ := h
    rfl
  | binop op a b =>
    obtain ⟨a', b', rfl, -⟩ := h
    rfl
  | load ty a =>
    obtain ⟨a', rfl, -⟩ := h
    rfl
  | call callee ty args =>
    obtain ⟨args', rfl, -⟩ := h
    rfl
  | select c z x =>
    obtain ⟨c', z', x', rfl, -⟩ := h
    rfl

/-- Being of the same form goes both ways. -/
theorem Similar.symm (h : Similar R e e') : Similar (fun c c' => R c' c) e' e := by
  cases e with
  | missing | tmp | const | get =>
    rw [show e' = _ from h]
    rfl
  | getIx w ix bias =>
    obtain ⟨ix', rfl, hix⟩ := h
    exact ⟨ix, rfl, hix⟩
  | unop op a =>
    obtain ⟨a', rfl, ha⟩ := h
    exact ⟨a, rfl, ha⟩
  | binop op a b =>
    obtain ⟨a', b', rfl, ha, hb⟩ := h
    exact ⟨a, b, rfl, ha, hb⟩
  | load ty a =>
    obtain ⟨a', rfl, ha⟩ := h
    exact ⟨a, rfl, ha⟩
  | call callee ty args =>
    obtain ⟨args', rfl, hargs⟩ := h
    exact ⟨args, rfl, hargs.flip⟩
  | select c z x =>
    obtain ⟨c', z', x', rfl, hc, hz, hx⟩ := h
    exact ⟨c, z, x, rfl, hc, hz, hx⟩

/-- The same head over other operands. -/
def withChildren : Expr → List Expr → Expr
  | getIx w _ bias, [ix] => getIx w ix bias
  | unop op _, [a] => unop op a
  | binop op _ _, [a, b] => binop op a b
  | load ty _, [a] => load ty a
  | call callee ty _, args => call callee ty args
  | select _ _ _, [c, z, x] => select c z x
  | e, _ => e

/-- Running a function on each operand is running it on the list of them. -/
theorem mapChildrenM_eq {m : Type → Type} [Monad m] [LawfulMonad m] (f : Expr → m Expr)
    (e : Expr) : e.mapChildrenM f = e.children.mapM f >>= fun cs => pure (e.withChildren cs) := by
  cases e <;> simp [mapChildrenM, Expr.children, withChildren]

theorem similar_withChildren {cs : List Expr} (h : List.Forall₂ R e.children cs) :
    Similar R e (e.withChildren cs) := by
  cases e with
  | missing | tmp | const | get => rfl
  | getIx w ix bias =>
    obtain _ | ⟨hix, ⟨⟩⟩ := h
    exact ⟨_, rfl, hix⟩
  | unop op a =>
    obtain _ | ⟨ha, ⟨⟩⟩ := h
    exact ⟨_, rfl, ha⟩
  | binop op a b =>
    obtain _ | ⟨ha, _ | ⟨hb, ⟨⟩⟩⟩ := h
    exact ⟨_, _, rfl, ha, hb⟩
  | load ty a =>
    obtain _ | ⟨ha, ⟨⟩⟩ := h
    exact ⟨_, rfl, ha⟩
  | call callee ty args => exact ⟨cs, rfl, h⟩
  | select c z x =>
    obtain _ | ⟨hc, _ | ⟨hz, _ | ⟨hx, ⟨⟩⟩⟩⟩ := h
    exact ⟨_, _, _, rfl, hc, hz, hx⟩

end Expr

/-! ## Statements -/

/-- The same effect, with operands related by `R`, for the temporary that `g` gives. -/
structure Effect.Similar (R : Expr → Expr → Prop) (g : Temp → Temp) (x y : Effect) : Prop where
  callee : y.callee = x.callee
  guard : R x.guard y.guard
  args : List.Forall₂ R x.args y.args
  result : y.result = x.result.map g
  memTouch : y.memTouch = x.memTouch
  memAddr : if x.touchesMem = true then R x.memAddr y.memAddr else y.memAddr = x.memAddr
  memSize : y.memSize = x.memSize
  state : y.state = x.state

namespace Stmt

/-- The same statement, with operands related by `R`, for the temporary that `g` gives. -/
def Similar (R : Expr → Expr → Prop) (g : Temp → Temp) : Stmt → Stmt → Prop
  | assign dst src, s' => ∃ src', s' = assign (g dst) src' ∧ R src src'
  | put off data, s' => ∃ data', s' = put off data' ∧ R data data'
  | putIx w ix bias data, s' => ∃ ix' data', s' = putIx w ix' bias data' ∧ R ix ix' ∧ R data data'
  | store addr data, s' => ∃ addr' data', s' = store addr' data' ∧ R addr addr' ∧ R data data'
  | effect x, s' => ∃ y, s' = effect y ∧ x.Similar R g y
  | exit guard kind dst, s' => ∃ guard', s' = exit guard' kind dst ∧ R guard guard'
  | s, s' => s' = s

variable {R : Expr → Expr → Prop} {g : Temp → Temp} {s s' : Stmt}

theorem similar_mapOperands {f : Expr → Expr} (h : ∀ e ∈ s.operands, R e (f e)) :
    Similar R id s (s.mapOperands f) := by
  cases s with
  | missing | noop | mark | fence => rfl
  | assign dst src => exact ⟨f src, rfl, h src (by simp [operands])⟩
  | put off data => exact ⟨f data, rfl, h data (by simp [operands])⟩
  | putIx w ix bias data =>
    exact ⟨f ix, f data, rfl, h ix (by simp [operands]), h data (by simp [operands])⟩
  | store addr data =>
    exact ⟨f addr, f data, rfl, h addr (by simp [operands]), h data (by simp [operands])⟩
  | effect x =>
    refine ⟨_, rfl, rfl, h x.guard (by simp [operands, Effect.operands]), ?_, by simp, rfl, ?_, rfl,
      rfl⟩
    · rw [List.forall₂_map_right_iff]
      exact List.forall₂_same.mpr fun a ha => h a (by simp [operands, Effect.operands, ha])
    · split
      · rename_i htouch
        exact h x.memAddr (by simp [operands, Effect.operands, htouch])
      · rfl
  | exit guard kind dst => exact ⟨f guard, rfl, h guard (by simp [operands])⟩

theorem mapOperands_id (s : Stmt) : s.mapOperands id = s := by
  cases s <;> simp [mapOperands]

/-- A statement is of its own form. -/
theorem similar_self (h : ∀ e ∈ s.operands, R e e) : Similar R id s s := by
  have hs := similar_mapOperands (f := id) h
  rwa [mapOperands_id] at hs

theorem Similar.isNoop (h : Similar R g s s') : s'.isNoop = s.isNoop := by
  cases s with
  | missing | noop | mark | fence => rw [show s' = _ from h]
  | assign | put | effect | exit =>
    obtain ⟨_, rfl, -⟩ := h
    rfl
  | putIx | store =>
    obtain ⟨_, _, rfl, -⟩ := h
    rfl

/-- The operands of similar statements correspond. -/
theorem Similar.operands (h : Similar R g s s') : List.Forall₂ R s.operands s'.operands := by
  cases s with
  | missing | noop | mark | fence =>
    rw [show s' = _ from h]
    exact .nil
  | assign dst src =>
    obtain ⟨src', rfl, hsrc⟩ := h
    exact .cons hsrc .nil
  | put off data =>
    obtain ⟨data', rfl, hdata⟩ := h
    exact .cons hdata .nil
  | putIx w ix bias data =>
    obtain ⟨ix', data', rfl, hix, hdata⟩ := h
    exact .cons hix (.cons hdata .nil)
  | store addr data =>
    obtain ⟨addr', data', rfl, haddr, hdata⟩ := h
    exact .cons haddr (.cons hdata .nil)
  | effect x =>
    obtain ⟨y, rfl, hy⟩ := h
    have hmem := hy.memAddr
    have htouch : y.touchesMem = x.touchesMem := by rw [Effect.touchesMem, hy.memTouch]; rfl
    simp only [Stmt.operands, Effect.operands, htouch]
    split at hmem
    · rename_i ht
      simpa [ht] using ⟨hmem, hy.guard, hy.args⟩
    · rename_i ht
      simpa [ht] using ⟨hy.guard, hy.args⟩
  | exit guard kind dst =>
    obtain ⟨guard', rfl, hguard⟩ := h
    exact .cons hguard .nil

theorem Similar.def? (h : Similar R g s s') : s'.def? = s.def?.map g := by
  cases s with
  | missing | noop | mark | fence =>
    rw [show s' = _ from h]
    rfl
  | assign dst src =>
    obtain ⟨src', rfl, -⟩ := h
    rfl
  | put off data =>
    obtain ⟨data', rfl, -⟩ := h
    rfl
  | putIx w ix bias data =>
    obtain ⟨ix', data', rfl, -⟩ := h
    rfl
  | store addr data =>
    obtain ⟨addr', data', rfl, -⟩ := h
    rfl
  | effect x =>
    obtain ⟨y, rfl, hy⟩ := h
    exact hy.result
  | exit guard kind dst =>
    obtain ⟨guard', rfl, -⟩ := h
    rfl

/-- The same statement over other operands. -/
def withOperands : Stmt → List Expr → Stmt
  | assign dst _, [src] => assign dst src
  | put off _, [data] => put off data
  | putIx w _ bias _, [ix, data] => putIx w ix bias data
  | store _ _, [addr, data] => store addr data
  | effect x, es =>
    match x.touchesMem, es with
    | true, memAddr :: guard :: args => effect { x with memAddr, guard, args }
    | false, guard :: args => effect { x with guard, args }
    | _, _ => effect x
  | exit _ kind dst, [guard] => exit guard kind dst
  | s, _ => s

theorem mapOperandsM_eq {m : Type → Type} [Monad m] [LawfulMonad m] (f : Expr → m Expr)
    (s : Stmt) : s.mapOperandsM f = s.operands.mapM f >>= fun es => pure (s.withOperands es) := by
  cases s with
  | effect x =>
    cases h : x.touchesMem <;>
      simp [mapOperandsM, Stmt.operands, Effect.operands, withOperands, h]
  | _ => simp [mapOperandsM, Stmt.operands, withOperands]

theorem similar_withOperands {es : List Expr} (h : List.Forall₂ R s.operands es) :
    Similar R id s (s.withOperands es) := by
  cases s with
  | missing | noop | mark | fence => rfl
  | assign dst src =>
    obtain _ | ⟨hsrc, ⟨⟩⟩ := h
    exact ⟨_, rfl, hsrc⟩
  | put off data =>
    obtain _ | ⟨hdata, ⟨⟩⟩ := h
    exact ⟨_, rfl, hdata⟩
  | putIx w ix bias data =>
    obtain _ | ⟨hix, _ | ⟨hdata, ⟨⟩⟩⟩ := h
    exact ⟨_, _, rfl, hix, hdata⟩
  | store addr data =>
    obtain _ | ⟨haddr, _ | ⟨hdata, ⟨⟩⟩⟩ := h
    exact ⟨_, _, rfl, haddr, hdata⟩
  | effect x =>
    rw [Stmt.operands, Effect.operands] at h
    cases ht : x.touchesMem with
    | true =>
      rw [ht] at h
      match es, h with
      | memAddr :: guard :: args, .cons hmem (.cons hguard hargs) =>
        refine ⟨{ x with memAddr, guard, args }, by simp only [withOperands, ht], rfl, hguard,
          hargs, by simp, rfl, ?_, rfl, rfl⟩
        rw [if_pos ht]
        exact hmem
    | false =>
      rw [ht] at h
      match es, h with
      | guard :: args, .cons hguard hargs =>
        refine ⟨{ x with guard, args }, by simp only [withOperands, ht], rfl, hguard, hargs,
          by simp, rfl, ?_, rfl, rfl⟩
        rw [if_neg (by simp [ht])]
  | exit guard kind dst =>
    obtain _ | ⟨hguard, ⟨⟩⟩ := h
    exact ⟨_, rfl, hguard⟩

end Stmt
end Straightline
