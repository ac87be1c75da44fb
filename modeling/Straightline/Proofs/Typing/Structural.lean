import Mathlib
import Straightline.Proofs.Similar
import Straightline.Proofs.Typing
import Straightline.Proofs.Values

/-!
# Typing under change

What the rules of `Proofs.Typing` survive: a weaker policy, more temporaries, more definitions, and
operands replaced by others of the same type. Passes are built from such changes, so each pass has
only to say which operands it puts where.
-/

namespace Straightline

/-- A temporary has a type if its number is one of the declared ones. -/
theorem tempTy_eq_ok {temps : Array Ty} {t : Temp} {T : Ty} :
    tempTy temps t = .ok T ↔ 0 ≤ t.toInt ∧ temps[t.toInt.toNat]? = some T := by
  have hneg : t < 0 ↔ t.toInt < 0 := by
    rw [Int32.lt_iff_toInt_lt]
    rfl
  have hnat : t.toNatClampNeg = t.toInt.toNat := Int32.toNat_toInt t
  unfold tempTy
  by_cases h : t < 0
  · rw [if_pos h]
    rw [hneg] at h
    simp only [reduceCtorEq, false_iff]
    omega
  · rw [if_neg h, hnat]
    rw [hneg] at h
    have h0 : 0 ≤ t.toInt := by omega
    simp only [h0, true_and]
    cases temps[t.toInt.toNat]? <;> simp

/-! ## Expressions -/

namespace Expr

/-- Induction on an expression through its direct operands. -/
theorem childInduct {motive : Expr → Prop} (h : ∀ e, (∀ c ∈ e.children, motive c) → motive e)
    (e : Expr) : motive e := by
  induction e with
  | missing | tmp | const | get => exact h _ (by simp [children])
  | getIx w ix bias ih => exact h _ (by simpa [children] using ih)
  | unop op a ih => exact h _ (by simpa [children] using ih)
  | binop op a b iha ihb => exact h _ (by simpa [children] using ⟨iha, ihb⟩)
  | load ty a ih => exact h _ (by simpa [children] using ih)
  | call callee ty args ih => exact h _ (by simpa [children] using ih)
  | select c z x ihc ihz ihx => exact h _ (by simpa [children] using ⟨ihc, ihz, ihx⟩)

theorem nodes_eq (e : Expr) : e.nodes = e :: e.children.flatMap nodes := by
  have h : nodes = nodesUntil fun _ => false := rfl
  cases e <;> simp [h, nodesUntil, children]

theorem mem_nodes {n e : Expr} : n ∈ e.nodes ↔ n = e ∨ ∃ c ∈ e.children, n ∈ c.nodes := by
  rw [nodes_eq]
  simp [List.mem_flatMap]

theorem self_mem_nodes (e : Expr) : e ∈ e.nodes := mem_nodes.mpr (.inl rfl)

theorem mem_nodes_of_child {n c e : Expr} (hc : c ∈ e.children) (hn : n ∈ c.nodes) :
    n ∈ e.nodes := mem_nodes.mpr (.inr ⟨c, hc, hn⟩)

variable {P Q : Policy} {temps temps' : Array Ty} {defs defs' : List Temp} {e : Expr} {T U : Ty}
  {e' : Expr} {es es' : List Expr} {tys : List Ty} {R : Expr → Expr → Prop}

theorem HaveTys.length_eq (h : HaveTys P temps defs es tys) : es.length = tys.length := by
  induction es generalizing tys with
  | nil => cases tys <;> simp_all [HaveTys]
  | cons e es ih =>
    cases tys with
    | nil => simp [HaveTys] at h
    | cons T tys => simpa using ih h.2

/-- Argument types survive a change of the arguments that keeps the type of each. -/
theorem HaveTys.similar (h : HaveTys P temps defs es tys) (hs : List.Forall₂ R es es')
    (hR : ∀ e ∈ es, ∀ e', R e e' → ∀ U, e.HasTy P temps defs U → e'.HasTy Q temps' defs' U) :
    HaveTys Q temps' defs' es' tys := by
  induction hs generalizing tys with
  | nil => cases tys <;> simp_all [HaveTys]
  | cons he hes ih =>
    cases tys with
    | nil => simp [HaveTys] at h
    | cons T tys =>
      rw [List.forall_mem_cons] at hR
      exact ⟨hR.1 _ he T h.1, ih h.2 hR.2⟩

theorem HaveTys.exists_of_mem (h : HaveTys P temps defs es tys) (he : e ∈ es) :
    ∃ T, e.HasTy P temps defs T := exists_haveTys_iff.mp ⟨tys, h⟩ e he

/-- An inner node keeps its type when its operands keep theirs. -/
theorem HasTy.similar (h : e.HasTy P temps defs T) (hs : Similar R e e') (hatom : e.isAtom = false)
    (hR : ∀ c ∈ e.children, ∀ c', R c c' → ∀ U, c.HasTy P temps defs U →
      c'.HasTy P temps' defs' U) :
    e'.HasTy P temps' defs' T := by
  cases e with
  | missing => exact h.elim
  | tmp t => simp [isAtom] at hatom
  | const c => simp [isAtom] at hatom
  | get off ty =>
    rw [show e' = _ from hs]
    exact h
  | getIx w ix bias =>
    obtain ⟨ix', rfl, hix⟩ := hs
    exact ⟨h.1, h.2.1, h.2.2.1, hR ix (by simp [children]) _ hix _ h.2.2.2⟩
  | unop op a =>
    obtain ⟨a', rfl, ha⟩ := hs
    exact ⟨h.1, h.2.1, hR a (by simp [children]) _ ha _ h.2.2⟩
  | binop op a b =>
    obtain ⟨a', b', rfl, ha, hb⟩ := hs
    exact ⟨h.1, h.2.1, hR a (by simp [children]) _ ha _ h.2.2.1,
      hR b (by simp [children]) _ hb _ h.2.2.2⟩
  | load ty a =>
    obtain ⟨a', rfl, ha⟩ := hs
    have ha' := hR a (by simp [children]) _ ha
    exact ⟨h.1, h.2.1, h.2.2.imp (ha' _) (ha' _)⟩
  | call callee ty args =>
    obtain ⟨args', rfl, hargs⟩ := hs
    obtain ⟨hT, hcallee, hty, tys, htys, hhelper⟩ := h
    exact ⟨hT, hcallee, hty, tys, htys.similar hargs hR, hhelper⟩
  | select c z x =>
    obtain ⟨c', z', x', rfl, hc, hz, hx⟩ := hs
    exact ⟨hR c (by simp [children]) _ hc _ h.1, hR z (by simp [children]) _ hz _ h.2.1,
      hR x (by simp [children]) _ hx _ h.2.2⟩

/-- Typing survives a weaker policy, more temporaries and more definitions. -/
theorem HasTy.mono (h : e.HasTy P temps defs T) (hP : P.Le Q)
    (htemps : ∀ t T, tempTy temps t = .ok T → tempTy temps' t = .ok T) (hdefs : defs ⊆ defs') :
    e.HasTy Q temps' defs' T := by
  induction e generalizing T with
  | missing => exact h
  | tmp t => exact ⟨htemps t T h.1, hdefs h.2⟩
  | const c => exact h
  | get off ty => exact ⟨h.1, h.2.1, h.2.2.1, hP.slot _ _ h.2.2.2⟩
  | getIx w ix bias ih => exact ⟨h.1, h.2.1, hP.window _ _ h.2.2.1, ih h.2.2.2⟩
  | unop op a ih => exact ⟨h.1, h.2.1, ih h.2.2⟩
  | binop op a b iha ihb => exact ⟨h.1, h.2.1, iha h.2.2.1, ihb h.2.2.2⟩
  | load ty a ih => exact ⟨h.1, h.2.1, h.2.2.imp ih ih⟩
  | call callee ty args ih =>
    obtain ⟨hT, hcallee, hty, tys, htys, hhelper⟩ := h
    have hargs : HaveTys Q temps' defs' args tys :=
      htys.similar (List.forall₂_same.mpr fun _ _ => rfl) fun a ha _ heq U hU => heq ▸ ih a ha hU
    exact ⟨hT, hcallee, hty, tys, hargs, hP.helper _ _ _ hhelper⟩
  | select c z x ihc ihz ihx => exact ⟨ihc h.1, ihz h.2.1, ihx h.2.2⟩

/-- Typing depends on the temporaries that occur in the expression. -/
theorem HasTy.of_temps (h : e.HasTy P temps defs T)
    (ht : ∀ t U, .tmp t ∈ e.nodes → (Expr.tmp t).HasTy P temps defs U →
      (Expr.tmp t).HasTy P temps' defs' U) :
    e.HasTy P temps' defs' T := by
  induction e using childInduct generalizing T with
  | h e ih =>
    cases hatom : e.isAtom with
    | true =>
      cases e with
      | tmp t => exact ht t T (self_mem_nodes _) h
      | const c => exact h
      | _ => simp [isAtom] at hatom
    | false =>
      refine h.similar (similar_self fun _ _ => rfl) hatom ?_
      intro c hc c' heq U hU
      subst heq
      exact ih c hc hU fun t V hmem hV => ht t V (mem_nodes_of_child hc hmem) hV

/-- The head of a typed expression announces its type. -/
theorem HasTy.typeIn (h : e.HasTy P temps defs T) : e.typeIn temps = .ok T := by
  induction e generalizing T with
  | missing => exact h.elim
  | tmp t => exact h.1
  | select c z x ihc ihz ihx => exact ihz h.2.1
  | const c => exact congrArg _ h.1
  | get off ty => exact congrArg _ h.1
  | getIx w ix bias ih => exact congrArg _ h.1
  | unop op a ih => exact congrArg _ h.1
  | binop op a b iha ihb => exact congrArg _ h.1
  | load ty a ih => exact congrArg _ h.1
  | call callee ty args ih => exact congrArg _ h.1

/-- An expression has at most one type. -/
theorem HasTy.unique (h : e.HasTy P temps defs T) (h' : e.HasTy Q temps defs' U) : T = U := by
  have hT := h.typeIn
  rw [h'.typeIn] at hT
  injection hT with hT
  exact hT.symm

theorem HasTy.ne_missing (h : e.HasTy P temps defs T) : e ≠ .missing := by
  rintro rfl
  exact h

theorem demand_eq_ok (h : e ≠ .missing) : e.demand = .ok () := by
  cases e <;> first | rfl | exact absurd rfl h

/-- The type of an expression is that of a value. -/
theorem HasTy.bytes_ne_zero (h : e.HasTy P temps defs T) (htemps : ∀ U ∈ temps, U.bytes ≠ 0) :
    T.bytes ≠ 0 := by
  induction e generalizing T with
  | missing => exact h.elim
  | tmp t => exact htemps T (Array.mem_of_getElem? (tempTy_eq_ok.mp h.1).2)
  | const c =>
    obtain ⟨rfl, hne, -⟩ := h
    unfold Const.ty at hne ⊢
    cases hc : c.tag <;> simp_all [Tag.ty, Ty.bytes]
  | get off ty => exact h.1 ▸ h.2.2.1
  | getIx w ix bias => exact h.1 ▸ h.2.1.2.1
  | unop op a =>
    exact h.1 ▸ Ty.bytes_ne_zero_of_tag (Op.tag_result (Op.ne_invalid_of_arity h.2.1))
  | binop op a b =>
    exact h.1 ▸ Ty.bytes_ne_zero_of_tag (Op.tag_result (Op.ne_invalid_of_arity h.2.1))
  | load ty a => exact h.1 ▸ h.2.1
  | call callee ty args => exact h.1 ▸ h.2.2.1
  | select c z x ihc ihz ihx => exact ihz h.2.1

/-- The operands of a typed expression are typed. -/
theorem HasTy.child {c : Expr} (h : e.HasTy P temps defs T) (hc : c ∈ e.children) :
    ∃ U, c.HasTy P temps defs U := by
  cases e with
  | missing => exact h.elim
  | tmp t => simp [children] at hc
  | const c => simp [children] at hc
  | get off ty => simp [children] at hc
  | getIx w ix bias =>
    rw [children, List.mem_singleton] at hc
    exact ⟨_, hc ▸ h.2.2.2⟩
  | unop op a =>
    rw [children, List.mem_singleton] at hc
    exact ⟨_, hc ▸ h.2.2⟩
  | binop op a b =>
    simp only [children, List.mem_cons, List.not_mem_nil, or_false] at hc
    rcases hc with rfl | rfl
    · exact ⟨_, h.2.2.1⟩
    · exact ⟨_, h.2.2.2⟩
  | load ty a =>
    rw [children, List.mem_singleton] at hc
    rcases h.2.2 with ha | ha
    · exact ⟨_, hc ▸ ha⟩
    · exact ⟨_, hc ▸ ha⟩
  | call callee ty args =>
    obtain ⟨-, -, -, tys, htys, -⟩ := h
    exact htys.exists_of_mem hc
  | select c z x =>
    simp only [children, List.mem_cons, List.not_mem_nil, or_false] at hc
    rcases hc with rfl | rfl | rfl
    · exact ⟨_, h.1⟩
    · exact ⟨_, h.2.1⟩
    · exact ⟨_, h.2.2⟩

/-- Every node of a typed expression is typed. -/
theorem HasTy.node {n : Expr} (h : e.HasTy P temps defs T) (hn : n ∈ e.nodes) :
    ∃ U, n.HasTy P temps defs U := by
  induction e using childInduct generalizing T with
  | h e ih =>
    rcases mem_nodes.mp hn with rfl | ⟨c, hc, hn⟩
    · exact ⟨T, h⟩
    · obtain ⟨U, hU⟩ := h.child hc
      exact ih c hc hU hn

end Expr

namespace Policy

/-- What the policy asks of a single node. -/
def Allows (Q : Policy) (temps : Array Ty) : Expr → Prop
  | .get off ty => Q.slot off ty
  | .getIx w _ bias => Q.window w bias
  | .call callee ty args =>
    ∀ tys, List.Forall₂ (fun a T => Expr.typeIn temps a = .ok T) args tys → Q.helper callee ty tys
  | _ => True

/-- What the policy asks of a statement, apart from its operands. -/
def AllowsStmt (Q : Policy) (temps : Array Ty) : Stmt → Prop
  | .put off data => ∀ T, data.typeIn temps = .ok T → Q.slot off T
  | .putIx w _ bias _ => Q.window w bias
  | .effect e => Q.effect e.callee e.args.length e.state
  | .exit _ _ dst => Q.exit dst
  | _ => True

end Policy

namespace Expr

variable {P Q : Policy} {temps temps' : Array Ty} {defs defs' : List Temp} {e : Expr} {T U : Ty}
  {es : List Expr} {tys : List Ty}

theorem HaveTys.forall₂_typeIn (h : HaveTys P temps defs es tys) :
    List.Forall₂ (fun a T => Expr.typeIn temps a = .ok T) es tys := by
  induction es generalizing tys with
  | nil => cases tys <;> simp_all [HaveTys]
  | cons e es ih =>
    cases tys with
    | nil => simp [HaveTys] at h
    | cons T tys => exact .cons h.1.typeIn (ih h.2)

/-- What is typed under a policy is allowed by it. -/
theorem HasTy.allows (h : e.HasTy P temps defs T) : P.Allows temps e := by
  cases e with
  | get off ty => exact h.2.2.2
  | getIx w ix bias => exact h.2.2.1
  | call callee ty args =>
    intro tys htys
    obtain ⟨-, -, -, tys', htys', hhelper⟩ := h
    have hunique : Relator.RightUnique fun a T => Expr.typeIn temps a = .ok T :=
      fun _ _ _ hT hU => Except.ok.inj (hT.symm.trans hU)
    exact hunique.forall₂ htys htys'.forall₂_typeIn ▸ hhelper
  | _ => trivial

/-- A typed expression keeps a policy if each of its nodes does. -/
theorem HasTy.of_allows (h : e.HasTy P temps defs T) (hQ : ∀ n ∈ e.nodes, Q.Allows temps n) :
    e.HasTy Q temps defs T := by
  induction e using childInduct generalizing T with
  | h e ih =>
    have hself := hQ e e.self_mem_nodes
    have hsub : ∀ c ∈ e.children, ∀ U, c.HasTy P temps defs U → c.HasTy Q temps defs U :=
      fun c hc U hU => ih c hc hU fun n hn => hQ n (mem_nodes_of_child hc hn)
    clear ih hQ
    cases e with
    | missing | tmp | const => exact h
    | get off ty => exact ⟨h.1, h.2.1, h.2.2.1, hself⟩
    | getIx w ix bias => exact ⟨h.1, h.2.1, hself, hsub ix (by simp [children]) _ h.2.2.2⟩
    | unop op a => exact ⟨h.1, h.2.1, hsub a (by simp [children]) _ h.2.2⟩
    | binop op a b =>
      exact ⟨h.1, h.2.1, hsub a (by simp [children]) _ h.2.2.1,
        hsub b (by simp [children]) _ h.2.2.2⟩
    | load ty a =>
      have ha := hsub a (by simp [children])
      exact ⟨h.1, h.2.1, h.2.2.imp (ha _) (ha _)⟩
    | call callee ty args =>
      obtain ⟨hT, hcallee, hty, tys, htys, -⟩ := h
      have hargs : HaveTys Q temps defs args tys :=
        htys.similar (List.forall₂_same.mpr fun _ _ => rfl) fun a ha _ heq U hU =>
          heq ▸ hsub a ha U hU
      exact ⟨hT, hcallee, hty, tys, hargs, hself tys htys.forall₂_typeIn⟩
    | select c z x =>
      exact ⟨hsub c (by simp [children]) _ h.1, hsub z (by simp [children]) _ h.2.1,
        hsub x (by simp [children]) _ h.2.2⟩

end Expr

/-! ## Statements -/

theorem WellFormed.isTrueConst_iff {e : Expr} :
    isTrueConst e = true ↔ ∃ c, e = .const c ∧ c.isTrue = true := by
  cases e <;> simp [isTrueConst]

namespace Stmt

variable {P Q : Policy} {temps temps' : Array Ty} {defs defs' : List Temp} {s : Stmt}
  {s' : Stmt} {ss : List Stmt} {R : Expr → Expr → Prop} {g : Temp → Temp} {t : Temp}

theorem Ok.ne_missing (h : s.Ok P temps defs) : s ≠ .missing := by
  rintro rfl
  exact h

theorem demand_eq_ok (h : s ≠ .missing) : s.demand = .ok () := by
  cases s <;> first | rfl | exact absurd rfl h

/-- The operands of a statement that keeps the rules are typed. -/
theorem Ok.operand (h : s.Ok P temps defs) {e : Expr} (he : e ∈ s.operands) :
    ∃ T, e.HasTy P temps defs T := by
  cases s with
  | missing | noop | mark | fence => simp [operands] at he
  | assign dst src =>
    obtain ⟨T, hT, -⟩ := h
    rw [operands, List.mem_singleton] at he
    exact ⟨T, he ▸ hT⟩
  | put off data =>
    obtain ⟨-, T, hT, -⟩ := h
    rw [operands, List.mem_singleton] at he
    exact ⟨T, he ▸ hT⟩
  | putIx w ix bias data =>
    simp only [operands, List.mem_cons, List.not_mem_nil, or_false] at he
    rcases he with rfl | rfl
    · exact ⟨_, h.2.2.1⟩
    · exact ⟨_, h.2.2.2⟩
  | store addr data =>
    simp only [operands, List.mem_cons, List.not_mem_nil, or_false] at he
    rcases he with rfl | rfl
    · rcases h.1 with h | h <;> exact ⟨_, h⟩
    · exact h.2
  | effect e =>
    simp only [operands, Effect.operands, List.mem_append, List.mem_cons] at he
    rcases he with he | rfl | he
    · have hmem := h.mem
      unfold Effect.MemOk at hmem
      unfold Effect.touchesMem at he
      split at hmem
      · rename_i hnone
        simp [hnone] at he
      all_goals first
        | exact hmem.elim
        | (split at he
           · rw [List.mem_singleton] at he
             rcases hmem.1 with h | h <;> exact ⟨_, he ▸ h⟩
           · simp at he)
    · exact ⟨_, h.guard⟩
    · exact h.args _ he
  | exit guard kind dst =>
    rw [operands, List.mem_singleton] at he
    exact ⟨_, he ▸ h.1⟩

/-- The nodes of a statement that keeps the rules are typed. -/
theorem Ok.node (h : s.Ok P temps defs) {e : Expr} (he : e ∈ s.nodes) :
    ∃ T, e.HasTy P temps defs T := by
  obtain ⟨e₀, he₀, hn⟩ := List.mem_flatMap.mp he
  obtain ⟨T, hT⟩ := h.operand he₀
  exact hT.node hn

theorem Ok.nodes_ne_missing (h : s.Ok P temps defs) : ∀ e ∈ s.nodes, e ≠ .missing := by
  intro e he
  obtain ⟨T, hT⟩ := h.node he
  exact hT.ne_missing

/-- What a statement defines is declared and was not defined before. -/
theorem Ok.of_def? (h : s.Ok P temps defs) (ht : s.def? = some t) :
    (∃ T, tempTy temps t = .ok T) ∧ t ∉ defs := by
  cases s with
  | assign dst src =>
    obtain ⟨T, -, hT, hdef⟩ := h
    rw [def?, Option.some.injEq] at ht
    subst ht
    exact ⟨⟨T, hT⟩, hdef⟩
  | effect e => exact (h.result t ht).2
  | _ => simp [def?] at ht

theorem Ok.allowsStmt (h : s.Ok P temps defs) (hP : P.Le Q) : Q.AllowsStmt temps s := by
  cases s with
  | put off data =>
    obtain ⟨-, T, hT, hslot⟩ := h
    intro U hU
    rw [hT.typeIn, Except.ok.injEq] at hU
    exact hU ▸ hP.slot _ _ hslot
  | putIx w ix bias data => exact hP.window _ _ h.2.1
  | effect e => exact hP.effect _ _ _ h.policy
  | exit guard kind dst => exact hP.exit _ h.2.2.2
  | _ => trivial

/-- A statement keeps the rules when its operands are replaced by others of the same types. -/
theorem Ok.similar (h : s.Ok P temps defs) (hs : Similar R g s s') (hQ : Q.AllowsStmt temps s)
    (hR : ∀ e ∈ s.operands, ∀ e', R e e' → ∀ U, e.HasTy P temps defs U → e'.HasTy Q temps' defs' U)
    (hconst : ∀ c e', c.isTrue = true → R (.const c) e' → e' = .const c)
    (hdef : ∀ t, s.def? = some t →
      (∀ T, tempTy temps t = .ok T → tempTy temps' (g t) = .ok T) ∧ g t ∉ defs') :
    s'.Ok Q temps' defs' := by
  cases s with
  | missing => exact h.elim
  | noop | fence | mark =>
    rw [show s' = _ from hs]
    exact h
  | assign dst src =>
    obtain ⟨src', rfl, hsrc⟩ := hs
    obtain ⟨T, hT, hdst, -⟩ := h
    obtain ⟨htemps, hfresh⟩ := hdef dst rfl
    exact ⟨T, hR src (by simp [operands]) _ hsrc T hT, htemps T hdst, hfresh⟩
  | put off data =>
    obtain ⟨data', rfl, hdata⟩ := hs
    obtain ⟨hoff, T, hT, -⟩ := h
    exact ⟨hoff, T, hR data (by simp [operands]) _ hdata T hT, hQ T hT.typeIn⟩
  | putIx w ix bias data =>
    obtain ⟨ix', data', rfl, hix, hdata⟩ := hs
    exact ⟨h.1, hQ, hR ix (by simp [operands]) _ hix _ h.2.2.1,
      hR data (by simp [operands]) _ hdata _ h.2.2.2⟩
  | store addr data =>
    obtain ⟨addr', data', rfl, haddr, hdata⟩ := hs
    obtain ⟨hIs, T, hT⟩ := h
    have ha := hR addr (by simp [operands]) _ haddr
    exact ⟨hIs.imp (ha _) (ha _), T, hR data (by simp [operands]) _ hdata T hT⟩
  | effect x =>
    obtain ⟨y, rfl, hy⟩ := hs
    refine ⟨hy.callee ▸ h.callee, hR _ (by simp [operands, Effect.operands]) _ hy.guard _ h.guard,
      ?_, ?_, hy.state ▸ h.state, ?_, ?_⟩
    · have htys : ∃ tys, Expr.HaveTys P temps defs x.args tys :=
        Expr.exists_haveTys_iff.mpr h.args
      obtain ⟨tys, htys⟩ := htys
      exact Expr.exists_haveTys_iff.mp ⟨tys, htys.similar hy.args fun a ha =>
        hR a (by simp [operands, Effect.operands, ha])⟩
    · have hm := h.mem
      have haddr := hy.memAddr
      unfold Effect.MemOk at hm ⊢
      rw [hy.memTouch, hy.memSize]
      cases htouch : x.memTouch with
      | none =>
        simp only [htouch, Effect.touchesMem] at hm haddr ⊢
        rw [if_neg (by simp)] at haddr
        rw [haddr]
        exact hm
      | other i => simp [htouch] at hm
      | _ =>
        simp only [htouch, Effect.touchesMem] at hm haddr ⊢
        rw [if_pos (by simp)] at haddr
        have ha := hR x.memAddr (by simp [operands, Effect.operands, Effect.touchesMem, htouch])
          _ haddr
        exact ⟨hm.1.imp (ha _) (ha _), hm.2⟩
    · rw [hy.callee, hy.state, ← hy.args.length_eq]
      exact hQ
    · intro t' ht'
      rw [hy.result, Option.map_eq_some_iff] at ht'
      obtain ⟨t, ht, rfl⟩ := ht'
      obtain ⟨htrue, ⟨T, hT⟩, -⟩ := h.result t ht
      obtain ⟨c, hc, hct⟩ := WellFormed.isTrueConst_iff.mp htrue
      obtain ⟨htemps, hfresh⟩ := hdef t ht
      have hguard := hy.guard
      rw [hc] at hguard
      exact ⟨WellFormed.isTrueConst_iff.mpr ⟨c, hconst c _ hct hguard, hct⟩, ⟨T, htemps T hT⟩,
        hfresh⟩
  | exit guard kind dst =>
    obtain ⟨guard', rfl, hguard⟩ := hs
    exact ⟨hR guard (by simp [operands]) _ hguard _ h.1, h.2.1, h.2.2.1, hQ⟩

theorem Ok.mono (h : s.Ok P temps defs) (hP : P.Le Q)
    (htemps : ∀ t T, tempTy temps t = .ok T → tempTy temps' t = .ok T) (hdefs : defs ⊆ defs')
    (hdef : ∀ t, s.def? = some t → t ∉ defs') : s.Ok Q temps' defs' := by
  refine h.similar (similar_self fun _ _ => rfl) (h.allowsStmt hP) ?_ ?_ ?_
  · intro e _ e' heq U hU
    exact heq ▸ hU.mono hP htemps hdefs
  · exact fun _ _ _ heq => heq.symm
  · exact fun t ht => ⟨htemps t, hdef t ht⟩

/-- The rules of a statement depend on the temporaries that occur in it. -/
theorem Ok.of_temps (h : s.Ok P temps defs)
    (ht : ∀ t U, .tmp t ∈ s.nodes → (Expr.tmp t).HasTy P temps defs U →
      (Expr.tmp t).HasTy P temps' defs' U)
    (hdef : ∀ t, s.def? = some t →
      (∀ T, tempTy temps t = .ok T → tempTy temps' t = .ok T) ∧ t ∉ defs') :
    s.Ok P temps' defs' := by
  refine h.similar (similar_self fun _ _ => rfl) (h.allowsStmt (.refl P)) ?_ ?_ hdef
  · intro e he e' heq U hU
    subst heq
    exact hU.of_temps fun t V hmem hV => ht t V (List.mem_flatMap.mpr ⟨e, he, hmem⟩) hV
  · exact fun _ _ _ heq => heq.symm

/-- A statement that keeps the rules keeps a policy if it and each of its nodes does. -/
theorem Ok.of_allows (h : s.Ok P temps defs) (hQ : Q.AllowsStmt temps s)
    (hnodes : ∀ n ∈ s.nodes, Q.Allows temps n) : s.Ok Q temps defs := by
  refine h.similar (similar_self fun _ _ => rfl) hQ ?_ ?_ ?_
  · intro e he e' heq U hU
    exact heq ▸ hU.of_allows fun n hn => hnodes n (List.mem_flatMap.mpr ⟨e, he, hn⟩)
  · exact fun _ _ _ heq => heq.symm
  · exact fun t ht => ⟨fun _ => id, (h.of_def? ht).2⟩

/-! ## Sequences of statements -/

theorem mem_defsAfter : t ∈ s.defsAfter defs ↔ s.def? = some t ∨ t ∈ defs := by
  simp [defsAfter]

theorem subset_defsAfter (s : Stmt) (defs : List Temp) : defs ⊆ s.defsAfter defs :=
  fun _ ht => mem_defsAfter.mpr (.inr ht)

theorem mem_defsAfterAll :
    t ∈ defsAfterAll ss defs ↔ (∃ s ∈ ss, s.def? = some t) ∨ t ∈ defs := by
  induction ss generalizing defs with
  | nil => simp [defsAfterAll]
  | cons s ss ih =>
    rw [defsAfterAll, ih, mem_defsAfter]
    simp only [List.mem_cons, exists_eq_or_imp]
    rw [or_left_comm, or_assoc]

theorem defsAfterAll_append (xs ys : List Stmt) (defs : List Temp) :
    defsAfterAll (xs ++ ys) defs = defsAfterAll ys (defsAfterAll xs defs) := by
  induction xs generalizing defs with
  | nil => rfl
  | cons s xs ih => exact ih _

theorem allOk_append {xs ys : List Stmt} :
    AllOk P temps defs (xs ++ ys) ↔
      AllOk P temps defs xs ∧ AllOk P temps (defsAfterAll xs defs) ys := by
  induction xs generalizing defs with
  | nil => simp [AllOk, defsAfterAll]
  | cons s xs ih =>
    rw [List.cons_append, AllOk, AllOk, ih, defsAfterAll, and_assoc]

/-- What statements in order define is not defined before them. -/
theorem AllOk.not_mem_of_def? (h : AllOk P temps defs ss) (hs : s ∈ ss) (ht : s.def? = some t) :
    t ∉ defs := by
  induction ss generalizing defs with
  | nil => simp at hs
  | cons s' ss ih =>
    rcases List.mem_cons.mp hs with rfl | hs
    · exact (h.1.of_def? ht).2
    · exact fun hmem => ih h.2 hs (subset_defsAfter _ _ hmem)

theorem AllOk.exists_ok (h : AllOk P temps defs ss) (hs : s ∈ ss) : ∃ defs', s.Ok P temps defs' := by
  induction ss generalizing defs with
  | nil => simp at hs
  | cons s' ss ih =>
    rcases List.mem_cons.mp hs with rfl | hs
    · exact ⟨defs, h.1⟩
    · exact ih h.2 hs

theorem AllOk.mono (h : AllOk P temps defs ss) (hP : P.Le Q)
    (htemps : ∀ t T, tempTy temps t = .ok T → tempTy temps' t = .ok T) :
    AllOk Q temps' defs ss := by
  induction ss generalizing defs with
  | nil => trivial
  | cons s ss ih =>
    exact ⟨h.1.mono hP htemps (List.Subset.refl _) fun t ht => (h.1.of_def? ht).2, ih h.2⟩

theorem AllOk.of_allows (h : AllOk P temps defs ss)
    (hQ : ∀ s ∈ ss, Q.AllowsStmt temps s ∧ ∀ n ∈ s.nodes, Q.Allows temps n) :
    AllOk Q temps defs ss := by
  induction ss generalizing defs with
  | nil => trivial
  | cons s ss ih =>
    rw [List.forall_mem_cons] at hQ
    exact ⟨h.1.of_allows hQ.1.1 hQ.1.2, ih h.2 hQ.2⟩

end Stmt

/-- The temporaries of a successor that keeps the rules are declared. -/
theorem Block.Typed.next_nodes {P : Policy} {b : Block} (hb : b.Typed P) :
    ∀ e ∈ b.next.nodes, e ≠ .missing ∧ ∀ t, e = .tmp t → ∃ T, tempTy b.temps t = .ok T := by
  intro e he
  rcases hb.next with (hT | hT) | ⟨c, hc, -⟩
  · obtain ⟨U, hU⟩ := hT.node he
    exact ⟨hU.ne_missing, fun t ht => ⟨U, (ht ▸ hU).1⟩⟩
  · obtain ⟨U, hU⟩ := hT.node he
    exact ⟨hU.ne_missing, fun t ht => ⟨U, (ht ▸ hU).1⟩⟩
  · rw [hc, Expr.nodes_eq] at he
    simp only [Expr.children, List.flatMap_nil, List.mem_singleton] at he
    simp [he]

/-- A typed block keeps every weaker policy. -/
theorem Block.Typed.mono {P Q : Policy} {b : Block} (h : b.Typed P) (hP : P.Le Q) : b.Typed Q := by
  refine ⟨h.temps, h.stmts.mono hP fun _ _ => id, ?_, h.kind⟩
  rcases h.next with haddr | ⟨c, hc, htag, hexit⟩
  · have hm {T : Ty} (hT : b.next.HasTy P b.temps (Stmt.defsAfterAll b.stmts []) T) :=
      hT.mono hP (fun _ _ => id) (List.Subset.refl _)
    exact .inl (haddr.imp hm hm)
  · exact .inr ⟨c, hc, htag, hP.exit c hexit⟩

/-- A typed block keeps a policy if its statements, all nodes and a constant successor do. -/
theorem Block.Typed.of_allows {P Q : Policy} {b : Block} (h : b.Typed P)
    (hQ : ∀ s ∈ b.stmts, Q.AllowsStmt b.temps s ∧ ∀ n ∈ s.nodes, Q.Allows b.temps n)
    (hnext : ∀ n ∈ b.next.nodes, Q.Allows b.temps n) (hconst : ∀ c, b.next = .const c → Q.exit c) :
    b.Typed Q := by
  refine ⟨h.temps, h.stmts.of_allows hQ, ?_, h.kind⟩
  rcases h.next with haddr | ⟨c, hc, htag, -⟩
  · exact .inl (haddr.imp (·.of_allows hnext) (·.of_allows hnext))
  · exact .inr ⟨c, hc, htag, hconst c hc⟩

/-- A block that defines a temporary with a negative number is refused. -/
theorem Block.check_ne_ok_of_negative {b : Block} {s : Stmt} {t : Temp} {flat : Bool}
    (hs : s ∈ b.stmts) (ht : s.def? = some t) (hneg : t.toInt < 0) : b.check flat ≠ .ok () := by
  intro h
  obtain ⟨defs, hok⟩ := (Block.check_eq_ok_iff.mp h).1.stmts.exists_ok hs
  obtain ⟨⟨T, hT⟩, -⟩ := hok.of_def? ht
  exact absurd hneg (Int.not_lt.mpr (tempTy_eq_ok.mp hT).1)

end Straightline
