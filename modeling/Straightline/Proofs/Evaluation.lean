import Mathlib
import Straightline.Machine.Run
import Straightline.Proofs.Registers
import Straightline.Proofs.Typing.Structural

/-!
# Values of expressions

When an expression has a value, stated once for each form, and the three facts that proofs about
passes rest on: operands may be replaced by others of the same value (`eval_similar`), an
expression depends only on what its nodes read (`eval_congr`), and the value of a typed expression
fits its type (`eval_fits`).
-/

namespace Straightline

namespace Machine

variable {m m' : Machine} {v : UInt64} {e : Expr}

/-! ## When an expression has a value -/

theorem element_eq_ok {w : Window} {i : UInt64} {bias off : Int64} :
    element w i bias = .ok off ↔ w.offset? (index i) bias = some off := by
  unfold element
  split <;> simp_all

theorem eval_tmp_eq_ok {t : Temp} :
    m.eval (.tmp t) = .ok v ↔ (∃ T, tempTy m.temps t = .ok T) ∧ m.vals t = some v := by
  simp only [eval, bind_eq_ok]
  cases m.vals t <;> simp

theorem eval_getIx_eq_ok {w : Window} {ix : Expr} {bias : Int64} :
    m.eval (.getIx w ix bias) = .ok v ↔
      ∃ i off, m.eval ix = .ok i ∧ w.offset? (index i) bias = some off ∧
        m.state.readReg off w.elem = .ok v := by
  simp only [eval, bind_eq_ok, element_eq_ok]
  constructor
  · rintro ⟨i, hi, off, hoff, hv⟩
    exact ⟨i, off, hi, hoff, hv⟩
  · rintro ⟨i, off, hi, hoff, hv⟩
    exact ⟨i, hi, off, hoff, hv⟩

theorem eval_unop_eq_ok {op : Op} {a : Expr} :
    m.eval (.unop op a) = .ok v ↔
      ∃ x r, m.eval a = .ok x ∧ op.apply1 x = some r ∧ r &&& op.result.mask = v := by
  simp only [eval, bind_eq_ok]
  constructor
  · rintro ⟨x, hx, h⟩
    split at h
    · rename_i r hr
      exact ⟨x, r, hx, hr, by simpa using h⟩
    · simp at h
  · rintro ⟨x, r, hx, hr, rfl⟩
    exact ⟨x, hx, by rw [hr]⟩

theorem eval_binop_eq_ok {op : Op} {a b : Expr} :
    m.eval (.binop op a b) = .ok v ↔
      ∃ x y r, m.eval a = .ok x ∧ m.eval b = .ok y ∧ op.apply2 x y = some r ∧
        r &&& op.result.mask = v := by
  simp only [eval, bind_eq_ok]
  constructor
  · rintro ⟨x, hx, y, hy, h⟩
    split at h
    · rename_i r hr
      exact ⟨x, y, r, hx, hy, hr, by simpa using h⟩
    · simp at h
  · rintro ⟨x, y, r, hx, hy, hr, rfl⟩
    exact ⟨x, hx, y, hy, by rw [hr]⟩

theorem eval_load_eq_ok {T : Ty} {a : Expr} :
    m.eval (.load T a) = .ok v ↔ ∃ x, m.eval a = .ok x ∧ m.state.load x T = v := by
  simp only [eval, bind_eq_ok, Except.ok.injEq]

theorem evalAll_eq_ok {es : List Expr} {vs : List UInt64} :
    m.evalAll es = .ok vs ↔ List.Forall₂ (fun e v => m.eval e = .ok v) es vs := by
  induction es generalizing vs with
  | nil => simp [evalAll, eq_comm]
  | cons e es ih =>
    simp only [evalAll, bind_eq_ok, ih, Except.ok.injEq, List.forall₂_cons_left_iff]
    constructor
    · rintro ⟨v, hv, vs', hvs, rfl⟩
      exact ⟨v, vs', hv, hvs, rfl⟩
    · rintro ⟨v, vs', hv, hvs, rfl⟩
      exact ⟨v, hv, vs', hvs, rfl⟩

theorem eval_call_eq_ok {callee : String} {T : Ty} {args : List Expr} :
    m.eval (.call callee T args) = .ok v ↔
      ∃ vs f r, List.Forall₂ (fun e v => m.eval e = .ok v) args vs ∧
        m.env.helper callee = some f ∧ f vs = .ok r ∧ r &&& T.mask = v := by
  simp only [eval, bind_eq_ok, evalAll_eq_ok]
  constructor
  · rintro ⟨vs, hvs, h⟩
    split at h
    · rename_i f hf
      simp only [bind_eq_ok, Except.ok.injEq] at h
      obtain ⟨r, hr, hv⟩ := h
      exact ⟨vs, f, r, hvs, hf, hr, hv⟩
    · simp at h
  · rintro ⟨vs, f, r, hvs, hf, hr, rfl⟩
    refine ⟨vs, hvs, ?_⟩
    rw [hf]
    simp only [bind_eq_ok, Except.ok.injEq]
    exact ⟨r, hr, rfl⟩

theorem eval_select_eq_ok {c z x : Expr} :
    m.eval (.select c z x) = .ok v ↔
      ∃ vc vz vx, m.eval c = .ok vc ∧ m.eval z = .ok vz ∧ m.eval x = .ok vx ∧
        (if vc &&& 0xff = 0 then vz else vx) = v := by
  simp only [eval, bind_eq_ok, Except.ok.injEq]
  constructor
  · rintro ⟨vc, hc, vz, hz, vx, hx, h⟩
    exact ⟨vc, vz, vx, hc, hz, hx, h⟩
  · rintro ⟨vc, vz, vx, hc, hz, hx, h⟩
    exact ⟨vc, hc, vz, hz, vx, hx, h⟩

theorem exists_values {es : List Expr} (h : ∀ e ∈ es, ∃ v, m.eval e = .ok v) :
    ∃ vs, List.Forall₂ (fun e v => m.eval e = .ok v) es vs := by
  induction es with
  | nil => exact ⟨[], .nil⟩
  | cons e es ih =>
    rw [List.forall_mem_cons] at h
    obtain ⟨v, hv⟩ := h.1
    obtain ⟨vs, hvs⟩ := ih h.2
    exact ⟨v :: vs, .cons hv hvs⟩

/-- An expression has a value only if its operands do. -/
theorem exists_values_children (h : m.eval e = .ok v) :
    ∃ vs, List.Forall₂ (fun e v => m.eval e = .ok v) e.children vs := by
  cases e with
  | missing | tmp | const | get => exact ⟨[], .nil⟩
  | getIx w ix bias =>
    obtain ⟨i, off, hi, -⟩ := eval_getIx_eq_ok.mp h
    exact ⟨[i], .cons hi .nil⟩
  | unop op a =>
    obtain ⟨x, r, hx, -⟩ := eval_unop_eq_ok.mp h
    exact ⟨[x], .cons hx .nil⟩
  | binop op a b =>
    obtain ⟨x, y, r, hx, hy, -⟩ := eval_binop_eq_ok.mp h
    exact ⟨[x, y], .cons hx (.cons hy .nil)⟩
  | load T a =>
    obtain ⟨x, hx, -⟩ := eval_load_eq_ok.mp h
    exact ⟨[x], .cons hx .nil⟩
  | call callee T args =>
    obtain ⟨vs, f, r, hvs, -⟩ := eval_call_eq_ok.mp h
    exact ⟨vs, hvs⟩
  | select c z x =>
    obtain ⟨vc, vz, vx, hc, hz, hx, -⟩ := eval_select_eq_ok.mp h
    exact ⟨[vc, vz, vx], .cons hc (.cons hz (.cons hx .nil))⟩

/-! ## Replacing operands -/

/-- Arguments have their values when they are replaced by expressions that do. -/
theorem values_similar {R : Expr → Expr → Prop} {es es' : List Expr} {vs : List UInt64}
    (hs : List.Forall₂ R es es')
    (hR : ∀ e ∈ es, ∀ e', R e e' → ∀ u, m.eval e = .ok u → m'.eval e' = .ok u)
    (h : List.Forall₂ (fun e v => m.eval e = .ok v) es vs) :
    List.Forall₂ (fun e v => m'.eval e = .ok v) es' vs := by
  induction hs generalizing vs with
  | nil =>
    cases h
    exact .nil
  | cons he hes ih =>
    cases h with
    | cons hv hvs =>
      rw [List.forall_mem_cons] at hR
      exact .cons (hR.1 _ he _ hv) (ih hR.2 hvs)

/-- What the machine does at an inner node, apart from its operands, is done by the other machine
alike. -/
def HeadAgrees (m m' : Machine) : Expr → Prop
  | .get off T => ∀ v, m.state.readReg off T = .ok v → m'.state.readReg off T = .ok v
  | .getIx w ix bias => ∀ i off v, m.eval ix = .ok i → w.offset? (index i) bias = some off →
      m.state.readReg off w.elem = .ok v → m'.state.readReg off w.elem = .ok v
  | .load T _ => ∀ a, m'.state.load a T = m.state.load a T
  | .call callee _ _ => m'.env.helper callee = m.env.helper callee
  | _ => True

theorem headAgrees_of_eq (hstate : m'.state = m.state) (henv : m'.env = m.env) (e : Expr) :
    m.HeadAgrees m' e := by
  cases e <;> simp [HeadAgrees, hstate, henv]

/-- An inner node has its value on another machine if its operands are replaced by expressions that
have their values there. -/
theorem eval_similar {R : Expr → Expr → Prop} {e' : Expr} (hs : e.Similar R e')
    (hatom : e.isAtom = false) (hhead : m.HeadAgrees m' e)
    (hR : ∀ c ∈ e.children, ∀ c', R c c' → ∀ u, m.eval c = .ok u → m'.eval c' = .ok u)
    (h : m.eval e = .ok v) : m'.eval e' = .ok v := by
  cases e with
  | missing => simp [eval] at h
  | tmp t => simp [Expr.isAtom] at hatom
  | const c => simp [Expr.isAtom] at hatom
  | get off T =>
    rw [show e' = _ from hs]
    exact hhead v h
  | getIx w ix bias =>
    obtain ⟨ix', rfl, hix⟩ := hs
    obtain ⟨i, off, hi, hoff, hv⟩ := eval_getIx_eq_ok.mp h
    exact eval_getIx_eq_ok.mpr ⟨i, off, hR ix (by simp [Expr.children]) _ hix i hi, hoff,
      hhead i off v hi hoff hv⟩
  | unop op a =>
    obtain ⟨a', rfl, ha⟩ := hs
    obtain ⟨x, r, hx, hr, hv⟩ := eval_unop_eq_ok.mp h
    exact eval_unop_eq_ok.mpr ⟨x, r, hR a (by simp [Expr.children]) _ ha x hx, hr, hv⟩
  | binop op a b =>
    obtain ⟨a', b', rfl, ha, hb⟩ := hs
    obtain ⟨x, y, r, hx, hy, hr, hv⟩ := eval_binop_eq_ok.mp h
    exact eval_binop_eq_ok.mpr ⟨x, y, r, hR a (by simp [Expr.children]) _ ha x hx,
      hR b (by simp [Expr.children]) _ hb y hy, hr, hv⟩
  | load T a =>
    obtain ⟨a', rfl, ha⟩ := hs
    obtain ⟨x, hx, hv⟩ := eval_load_eq_ok.mp h
    exact eval_load_eq_ok.mpr ⟨x, hR a (by simp [Expr.children]) _ ha x hx, by rw [hhead, hv]⟩
  | call callee T args =>
    obtain ⟨args', rfl, hargs⟩ := hs
    obtain ⟨vs, f, r, hvs, hf, hr, hv⟩ := eval_call_eq_ok.mp h
    exact eval_call_eq_ok.mpr ⟨vs, f, r, values_similar hargs hR hvs, hhead.trans hf, hr, hv⟩
  | select c z x =>
    obtain ⟨c', z', x', rfl, hc', hz', hx'⟩ := hs
    obtain ⟨vc, vz, vx, hc, hz, hx, hv⟩ := eval_select_eq_ok.mp h
    exact eval_select_eq_ok.mpr ⟨vc, vz, vx, hR c (by simp [Expr.children]) _ hc' vc hc,
      hR z (by simp [Expr.children]) _ hz' vz hz, hR x (by simp [Expr.children]) _ hx' vx hx, hv⟩

/-- An expression has its value on another machine that agrees at each of its nodes. -/
theorem eval_congr (hnodes : ∀ n ∈ e.nodes, m.HeadAgrees m' n)
    (htmp : ∀ t, .tmp t ∈ e.nodes → ∀ u, m.eval (.tmp t) = .ok u → m'.eval (.tmp t) = .ok u)
    (h : m.eval e = .ok v) : m'.eval e = .ok v := by
  induction e using Expr.childInduct generalizing v with
  | h e ih =>
    cases hatom : e.isAtom with
    | true =>
      cases e with
      | tmp t => exact htmp t (Expr.self_mem_nodes _) v h
      | const c => exact h
      | _ => simp [Expr.isAtom] at hatom
    | false =>
      refine eval_similar (Expr.similar_self fun _ _ => rfl) hatom (hnodes e e.self_mem_nodes) ?_ h
      intro c hc c' heq u hu
      subst heq
      exact ih c hc (fun n hn => hnodes n (Expr.mem_nodes_of_child hc hn))
        (fun t ht => htmp t (Expr.mem_nodes_of_child hc ht)) hu

/-! ## Values fit their types -/

/-- The values of the temporaries fit their types. -/
def ValsFit (m : Machine) : Prop :=
  ∀ t v T, m.vals t = some v → tempTy m.temps t = .ok T → T.Fits v

/-- The value of a typed expression fits its type. -/
theorem eval_fits {P : Policy} {defs : List Temp} {T : Ty} (hm : m.ValsFit)
    (hT : e.HasTy P m.temps defs T) (h : m.eval e = .ok v) : T.Fits v := by
  induction e generalizing T v with
  | missing => exact hT.elim
  | tmp t => exact hm t v T (eval_tmp_eq_ok.mp h).2 hT.1
  | const c =>
    obtain ⟨rfl, -, hfits⟩ := hT
    rw [eval_const, Except.ok.injEq] at h
    rw [← h]
    exact Const.fits_bits hfits
  | get off ty =>
    obtain ⟨rfl, -⟩ := hT
    exact State.readReg_fits h
  | getIx w ix bias ih =>
    obtain ⟨rfl, -⟩ := hT
    obtain ⟨i, off, -, -, hv⟩ := eval_getIx_eq_ok.mp h
    exact State.readReg_fits hv
  | unop op a ih =>
    obtain ⟨rfl, -⟩ := hT
    obtain ⟨x, r, -, -, rfl⟩ := eval_unop_eq_ok.mp h
    exact Ty.fits_and_mask _ _
  | binop op a b iha ihb =>
    obtain ⟨rfl, -⟩ := hT
    obtain ⟨x, y, r, -, -, -, rfl⟩ := eval_binop_eq_ok.mp h
    exact Ty.fits_and_mask _ _
  | load ty a ih =>
    obtain ⟨rfl, -⟩ := hT
    obtain ⟨x, -, rfl⟩ := eval_load_eq_ok.mp h
    exact Ty.fits_and_mask _ _
  | call callee ty args ih =>
    obtain ⟨rfl, -⟩ := hT
    obtain ⟨vs, f, r, -, -, -, rfl⟩ := eval_call_eq_ok.mp h
    exact Ty.fits_and_mask _ _
  | select c z x ihc ihz ihx =>
    obtain ⟨vc, vz, vx, -, hz, hx, rfl⟩ := eval_select_eq_ok.mp h
    split
    · exact ihz hT.2.1 hz
    · exact ihx hT.2.2 hx

end Machine
end Straightline
