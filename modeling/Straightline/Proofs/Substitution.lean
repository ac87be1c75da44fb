import Mathlib
import Straightline.Proofs.Stepping

/-!
# Substitution

The temporaries that an expression uses, and expressions put in their places. Types and values
survive if each temporary that is used gives way to an expression of its type and value.
-/

namespace Straightline

/-! ## Temporaries of an expression -/

namespace Expr

/-- The temporary that the node is. -/
def temp? : Expr → Option Temp
  | tmp t => some t
  | _ => none

/-- The uses of temporaries, in order. -/
def uses (e : Expr) : List Temp := e.nodes.filterMap temp?

theorem temp?_eq_some {e : Expr} {t : Temp} : e.temp? = some t ↔ e = .tmp t := by
  cases e <;> simp [temp?]

theorem mem_uses {e : Expr} {t : Temp} : t ∈ e.uses ↔ .tmp t ∈ e.nodes := by
  simp only [uses, List.mem_filterMap, temp?_eq_some, exists_eq_right]

@[simp] theorem uses_tmp (t : Temp) : (tmp t).uses = [t] := by
  simp [uses, nodes_eq, children, temp?]

@[simp] theorem uses_const (c : Const) : (const c).uses = [] := by
  simp [uses, nodes_eq, children, temp?]

theorem uses_of_isAtom_eq_false {e : Expr} (hatom : e.isAtom = false) :
    e.uses = e.children.flatMap uses := by
  have hself : e.temp? = none := by cases e <;> simp_all [temp?, isAtom]
  rw [uses, nodes_eq, List.filterMap_cons_none hself, List.filterMap_flatMap]
  rfl

end Expr

/-- The uses of temporaries in the operands, in order. -/
def Stmt.uses (s : Stmt) : List Temp := s.operands.flatMap Expr.uses

/-! ## Substitution -/

namespace Expr

mutual

/-- The expression with `σ t` in the place of each temporary `t`. -/
def subst (σ : Temp → Expr) : Expr → Expr
  | missing => missing
  | tmp t => σ t
  | const c => const c
  | get off ty => get off ty
  | getIx w ix bias => getIx w (subst σ ix) bias
  | unop op a => unop op (subst σ a)
  | binop op a b => binop op (subst σ a) (subst σ b)
  | load ty a => load ty (subst σ a)
  | call callee ty args => call callee ty (substAll σ args)
  | select c z x => select (subst σ c) (subst σ z) (subst σ x)

/-- Several expressions. -/
def substAll (σ : Temp → Expr) : List Expr → List Expr
  | [] => []
  | e :: es => subst σ e :: substAll σ es

end

variable {P : Policy} {temps : Array Ty} {defs defs' : List Temp} {σ τ : Temp → Expr} {e : Expr}
  {T : Ty}

theorem substAll_eq (σ : Temp → Expr) (es : List Expr) : substAll σ es = es.map (subst σ) := by
  induction es with
  | nil => rfl
  | cons e es ih => rw [substAll, ih, List.map_cons]

/-- Below its head, substitution works on the operands. -/
theorem subst_eq (hatom : e.isAtom = false) :
    e.subst σ = e.withChildren (e.children.map (subst σ)) := by
  cases e <;> simp_all [subst, withChildren, children, isAtom, substAll_eq]

theorem similar_subst (hatom : e.isAtom = false) :
    e.Similar (fun c c' => c' = c.subst σ) (e.subst σ) := by
  rw [subst_eq hatom]
  apply similar_withChildren
  rw [List.forall₂_map_right_iff]
  exact List.forall₂_same.mpr fun _ _ => rfl

/-- Only the temporaries that are used matter. -/
theorem subst_congr (h : ∀ t ∈ e.uses, σ t = τ t) : e.subst σ = e.subst τ := by
  induction e using childInduct with
  | h e ih =>
    cases hatom : e.isAtom with
    | true =>
      cases e with
      | tmp t => exact h t (by simp)
      | const c => rfl
      | _ => simp [isAtom] at hatom
    | false =>
      rw [uses_of_isAtom_eq_false hatom] at h
      rw [subst_eq hatom, subst_eq hatom, List.map_congr_left]
      exact fun c hc => ih c hc fun t ht => h t (List.mem_flatMap.mpr ⟨c, hc, ht⟩)

/-- Substitution keeps the type if it replaces temporaries by expressions of their types. -/
theorem HasTy.subst (h : e.HasTy P temps defs T)
    (hσ : ∀ t ∈ e.uses, ∀ U, (tmp t).HasTy P temps defs U → (σ t).HasTy P temps defs' U) :
    (e.subst σ).HasTy P temps defs' T := by
  induction e using childInduct generalizing T with
  | h e ih =>
    cases hatom : e.isAtom with
    | true =>
      cases e with
      | tmp t => exact hσ t (by simp) T h
      | const c => exact h
      | _ => simp [isAtom] at hatom
    | false =>
      rw [uses_of_isAtom_eq_false hatom] at hσ
      refine h.similar (similar_subst hatom) hatom ?_
      intro c hc c' hc' U hU
      rw [hc']
      exact ih c hc hU fun t ht => hσ t (List.mem_flatMap.mpr ⟨c, hc, ht⟩)

end Expr

/-- Substitution keeps the value if it replaces temporaries by expressions that have their values. -/
theorem Machine.eval_subst {m m' : Machine} {e : Expr} {σ : Temp → Expr} {v : UInt64}
    (hstate : m'.state = m.state) (henv : m'.env = m.env)
    (hσ : ∀ t ∈ e.uses, ∀ u, m.eval (.tmp t) = .ok u → m'.eval (σ t) = .ok u)
    (h : m.eval e = .ok v) : m'.eval (e.subst σ) = .ok v := by
  induction e using Expr.childInduct generalizing v with
  | h e ih =>
    cases hatom : e.isAtom with
    | true =>
      cases e with
      | tmp t => exact hσ t (by simp) v h
      | const c => exact h
      | _ => simp [Expr.isAtom] at hatom
    | false =>
      rw [Expr.uses_of_isAtom_eq_false hatom] at hσ
      refine eval_similar (Expr.similar_subst hatom) hatom (headAgrees_of_eq hstate henv e) ?_ h
      intro c hc c' hc' u hu
      rw [hc']
      exact ih c hc (fun t ht => hσ t (List.mem_flatMap.mpr ⟨c, hc, ht⟩)) hu

/-- The statement with `σ t` in the place of each temporary `t` that its operands use. -/
def Stmt.subst (σ : Temp → Expr) (s : Stmt) : Stmt :=
  s.withOperands (s.operands.map (Expr.subst σ))

theorem Stmt.similar_subst (σ : Temp → Expr) (s : Stmt) :
    s.Similar (fun e e' => e' = e.subst σ) id (s.subst σ) := by
  apply similar_withOperands
  rw [List.forall₂_map_right_iff]
  exact List.forall₂_same.mpr fun _ _ => rfl

theorem Stmt.def?_subst (σ : Temp → Expr) (s : Stmt) : (s.subst σ).def? = s.def? := by
  rw [(s.similar_subst σ).def?, Option.map_id_fun, id]

end Straightline
