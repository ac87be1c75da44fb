import Mathlib
import Straightline.Proofs.Flat

/-!
# Flat form is a normal form

Flattening can be understood without types. What a statement leaves behind is code that binds inner
nodes to fresh temporaries (`Flat.Hoists`), and then a statement of the same outline whose operands
need no temporaries any more (`Stmt.Normal`); `Flat.Spread` says so of the statements of a block. A
block of normal statements is left as it is.

`flattened_unless_too_deep` puts this together with typing: of the well-formed blocks, exactly those
that nest too deeply are refused, as long as there are numbers for the fresh temporaries.
-/

namespace Straightline

/-! ## Outlines -/

/-- The node alone, with holes in the places of its operands. -/
def Expr.head (e : Expr) : Expr := e.mapChildren fun _ => .missing

/-- The statement alone, with holes in the places of its operands. Of the right side of an
assignment, which is no operand in flat code, the head stays. -/
def Stmt.outline : Stmt → Stmt
  | assign dst src => assign dst src.head
  | s => s.mapOperands fun _ => .missing

/-- Whether the statement does more than assign to a temporary. -/
def Stmt.acts : Stmt → Bool
  | missing | noop | assign _ _ => false
  | _ => true

/-- Whether the statement defines no temporary, or one with a number below `n`. -/
def Stmt.definesBelow (n : Nat) (s : Stmt) : Bool :=
  s.def?.all fun t => decide (t.toInt < (n : Int))

theorem Expr.Similar.head {R : Expr → Expr → Prop} {e e' : Expr} (h : Similar R e e') :
    e'.head = e.head := by
  cases e with
  | missing | tmp | const | get => rw [show e' = _ from h]
  | getIx | unop | load =>
    obtain ⟨_, rfl, -⟩ := h
    rfl
  | binop op a b =>
    obtain ⟨_, _, rfl, -⟩ := h
    rfl
  | call callee ty args =>
    obtain ⟨args', rfl, hargs⟩ := h
    simp [Expr.head, mapChildren, hargs.length_eq]
  | select c z x =>
    obtain ⟨_, _, _, rfl, -⟩ := h
    rfl

namespace Stmt

variable {R : Expr → Expr → Prop} {s s' : Stmt}

theorem Similar.acts (h : Similar R id s s') : s'.acts = s.acts := by
  cases s with
  | missing | noop | mark | fence => rw [show s' = _ from h]
  | assign | put | effect | exit =>
    obtain ⟨_, rfl, -⟩ := h
    rfl
  | putIx | store =>
    obtain ⟨_, _, rfl, -⟩ := h
    rfl

theorem Similar.outline (h : Similar R id s s') (hs : s.acts = true) : s'.outline = s.outline := by
  cases s with
  | missing | noop | assign => simp [Stmt.acts] at hs
  | mark | fence => rw [show s' = _ from h]
  | put | exit =>
    obtain ⟨_, rfl, -⟩ := h
    rfl
  | putIx | store =>
    obtain ⟨_, _, rfl, -⟩ := h
    rfl
  | effect x =>
    obtain ⟨y, rfl, hy⟩ := h
    have htouch : y.touchesMem = x.touchesMem := by rw [Effect.touchesMem, hy.memTouch]; rfl
    have hresult : y.result = x.result := by simpa using hy.result
    have hmem : (if y.touchesMem then Expr.missing else y.memAddr) =
        if x.touchesMem then Expr.missing else x.memAddr := by
      have haddr := hy.memAddr
      rw [htouch]
      split
      · rfl
      · rwa [if_neg ‹_›] at haddr
    simp only [Stmt.outline, mapOperands, List.map_const', hmem, hresult, hy.callee, hy.memTouch,
      hy.memSize, hy.state, hy.args.length_eq]

/-- A statement that has the outline of the assignment of a call is one. -/
theorem outline_eq_call {dst : Temp} {callee : String} {ty : Ty} {args : List Expr}
    (h : s.outline = (assign dst (.call callee ty args)).outline) :
    ∃ args', args'.length = args.length ∧ s = assign dst (.call callee ty args') := by
  cases s with
  | assign dst' src =>
    cases src with
    | call callee' ty' args' =>
      simp only [Stmt.outline, Expr.head, Expr.mapChildren, assign.injEq, Expr.call.injEq,
        List.map_const'] at h
      obtain ⟨rfl, rfl, rfl, hargs⟩ := h
      exact ⟨args', by simpa using congrArg List.length hargs, rfl⟩
    | _ => simp [Stmt.outline, Expr.head, Expr.mapChildren] at h
  | _ => simp [Stmt.outline, mapOperands] at h

end Stmt

/-! ## Normal statements -/

/-- Flat form leaves the statement as it is: its operands, or those of the right side of an
assignment, need no temporaries. -/
def Stmt.Normal : Stmt → Prop
  | missing | noop => False
  | assign _ src => src ≠ .missing ∧ ∀ c ∈ src.children, c.needsTemp = false
  | s => ∀ e ∈ s.operands, e.needsTemp = false

/-- All statements of the block are normal, and the successor needs no temporary. -/
def Block.Normal (b : Block) : Prop :=
  (∀ s ∈ b.stmts, s.Normal) ∧ b.next.needsTemp = false

namespace Expr

theorem isAtom_of_needsTemp {e : Expr} (h : e.needsTemp = false) : e.isAtom = true := by
  cases e <;> simp_all [needsTemp, isAtom]

theorem withChildren_children (e : Expr) : e.withChildren e.children = e := by
  cases e <;> rfl

end Expr

theorem Stmt.normal_of_acts {s : Stmt} (hacts : s.acts = true)
    (h : ∀ e ∈ s.operands, e.needsTemp = false) : s.Normal := by
  cases s with
  | missing | noop | assign => simp [acts] at hacts
  | _ => exact h

theorem Stmt.withOperands_operands (s : Stmt) : s.withOperands s.operands = s := by
  cases s with
  | effect x =>
    cases h : x.touchesMem <;> simp [Stmt.operands, Effect.operands, withOperands, h]
  | _ => rfl

namespace Flat

variable {temps temps' temps'' : Array Ty} {code code' r : List Stmt} {e a next : Expr}
  {es as : List Expr} {s : Stmt} {ss : List Stmt} {n : Nat}

theorem Emit.bind_eq_ok {α β : Type} {x : Emit α} {f : α → Emit β} {v : β} :
    (x >>= f) temps = .ok (v, r, temps'') ↔ ∃ u code temps' code',
      x temps = .ok (u, code, temps') ∧ f u temps' = .ok (v, code', temps'') ∧
        r = code ++ code' := by
  constructor
  · intro h
    change Emit.andThen x f temps = _ at h
    simp only [Emit.andThen, Straightline.bind_eq_ok, Except.ok.injEq, Prod.mk.injEq] at h
    obtain ⟨⟨u, code, temps'⟩, hx, ⟨v', code', temps''⟩, hf, rfl, rfl, rfl⟩ := h
    exact ⟨u, code, temps', code', hx, hf, rfl⟩
  · rintro ⟨u, code, temps', code', hx, hf, rfl⟩
    exact Emit.bind_ok hx hf

theorem Emit.check_eq_ok {α : Type} {x : Except Fault α} {v : α} :
    Emit.check x temps = .ok (v, r, temps') ↔ x = .ok v ∧ r = [] ∧ temps' = temps := by
  cases x with
  | error f => simp [Emit.check, bind, Except.bind]
  | ok u =>
    simp only [Emit.check, bind, Except.bind, Except.ok.injEq, Prod.mk.injEq]
    tauto

theorem Emit.pure_eq_ok {α : Type} {u v : α} :
    (pure u : Emit α) temps = .ok (v, r, temps') ↔ v = u ∧ r = [] ∧ temps' = temps := by
  change Except.ok (u, [], temps) = _ ↔ _
  simp only [Except.ok.injEq, Prod.mk.injEq]
  tauto

theorem Emit.stmt_eq_ok :
    Emit.stmt s temps = .ok ((), r, temps') ↔ r = [s] ∧ temps' = temps := by
  simp only [Emit.stmt, Except.ok.injEq, Prod.mk.injEq, true_and]
  tauto

/-! ## Normal blocks are left alone -/

theorem atomUpTo_of_needsTemp (h : e.needsTemp = false) : atomUpTo (n + 1) e = pure e := by
  cases e with
  | tmp t => rfl
  | const c =>
    have hc : c.tag ≠ .f64i := by simpa [Expr.needsTemp] using h
    rw [atomUpTo, if_neg hc]
  | _ => simp [Expr.needsTemp] at h

theorem mapM_eq_pure {f : Expr → Emit Expr} (h : ∀ e ∈ es, f e = pure e) :
    es.mapM f = pure es := by
  induction es with
  | nil => rfl
  | cons e es ih =>
    rw [List.forall_mem_cons] at h
    rw [List.mapM_cons, h.1, ih h.2, pure_bind, pure_bind]

theorem operands_eq_pure (hmissing : e ≠ .missing) (h : ∀ c ∈ e.children, c.needsTemp = false) :
    operands (atomUpTo (n + 1)) e = pure e := by
  have hdemand : Emit.check e.demand = pure () := by
    rw [Expr.demand_eq_ok hmissing]
    rfl
  rw [operands, hdemand, pure_bind, Expr.mapChildrenM_eq,
    mapM_eq_pure fun c hc => atomUpTo_of_needsTemp (h c hc), pure_bind, Expr.withChildren_children]

theorem stmt_of_normal (h : s.Normal) (temps : Array Ty) : stmt s temps = .ok ((), [s], temps) := by
  have hother (hmissing : s ≠ .missing) (hs : ∀ e ∈ s.operands, e.needsTemp = false) :
      (do Emit.check s.demand
          let s ← s.mapOperandsM atom
          Emit.stmt s : Emit Unit) temps = .ok ((), [s], temps) := by
    have hdemand : Emit.check s.demand = pure () := by
      rw [Stmt.demand_eq_ok hmissing]
      rfl
    rw [hdemand, pure_bind, Stmt.mapOperandsM_eq,
      mapM_eq_pure (f := atom) fun e he => atomUpTo_of_needsTemp (hs e he), pure_bind,
      Stmt.withOperands_operands, pure_bind]
    rfl
  cases s with
  | missing | noop => exact h.elim
  | assign dst src =>
    have hsource : source src = pure src := by
      rw [source]
      split
      · rfl
      · exact operands_eq_pure h.1 h.2
    rw [stmt, hsource, pure_bind]
    rfl
  | _ => exact hother (by simp) h

/-- Statements that do nothing are left out, normal ones stay. -/
theorem body_of_normal (hss : ∀ s ∈ ss, s = .noop ∨ s.Normal) (hnext : next.needsTemp = false)
    (temps : Array Ty) : body next ss temps = .ok (next, ss.filter (!·.isNoop), temps) := by
  induction ss with
  | nil =>
    rw [body, atom, atomUpTo_of_needsTemp hnext]
    rfl
  | cons s ss ih =>
    rw [List.forall_mem_cons] at hss
    rw [body]
    rcases hss.1 with rfl | hs
    · have hnoop : stmt .noop temps = .ok ((), [], temps) := rfl
      exact Emit.bind_ok hnoop (ih hss.2)
    · have hkeep : s.isNoop = false := by
        cases s with
        | noop => exact hs.elim
        | _ => rfl
      rw [List.filter_cons_of_pos (by simp [hkeep])]
      exact Emit.bind_ok (stmt_of_normal hs temps) (ih hss.2)

/-! ## What flattening leaves -/

/-- Code that binds nodes over operands without temporaries to the temporaries that are declared in
`temps'` and not yet in `temps`. -/
structure Hoists (temps : Array Ty) (code : List Stmt) (temps' : Array Ty) : Prop where
  ext : temps.toList <+: temps'.toList
  binds : ∀ s ∈ code, s.Normal ∧ ∃ i e, s = .assign (.ofNat i) e ∧ temps.size ≤ i ∧ i < temps'.size

theorem hoists_nil (temps : Array Ty) : Hoists temps [] temps := ⟨List.prefix_rfl, by simp⟩

theorem Hoists.append (h : Hoists temps code temps') (h' : Hoists temps' code' temps'') :
    Hoists temps (code ++ code') temps'' := by
  have hsize := size_le_of_extends h.ext
  have hsize' := size_le_of_extends h'.ext
  refine ⟨h.ext.trans h'.ext, List.forall_mem_append.mpr ⟨fun s hs => ?_, fun s hs => ?_⟩⟩
  · obtain ⟨hnormal, i, e, rfl, hlo, hhi⟩ := h.binds s hs
    exact ⟨hnormal, i, e, rfl, hlo, by omega⟩
  · obtain ⟨hnormal, i, e, rfl, hlo, hhi⟩ := h'.binds s hs
    exact ⟨hnormal, i, e, rfl, by omega, hhi⟩

/-- Whatever `x` emits binds nodes, and its value needs no temporary; it fails unless `p` holds. -/
def Lifts (p : Prop) (x : Emit Expr) : Prop :=
  ∀ temps a code temps', x temps = .ok (a, code, temps') →
    p ∧ a.needsTemp = false ∧ Hoists temps code temps'

theorem lifts_mapM {p : Expr → Prop} {f : Expr → Emit Expr} (hf : ∀ e ∈ es, Lifts (p e) (f e))
    (h : es.mapM f temps = .ok (as, code, temps')) :
    List.Forall₂ (fun e a => p e ∧ a.needsTemp = false) es as ∧ Hoists temps code temps' := by
  induction es generalizing temps as code with
  | nil =>
    obtain ⟨rfl, rfl, rfl⟩ := Emit.pure_eq_ok.mp h
    exact ⟨.nil, hoists_nil _⟩
  | cons e es ih =>
    rw [List.forall_mem_cons] at hf
    rw [List.mapM_cons, Emit.bind_eq_ok] at h
    obtain ⟨a, code₁, temps₁, code', ha, h, rfl⟩ := h
    obtain ⟨as', code₂, temps₂, code₃, has, hpure, rfl⟩ := Emit.bind_eq_ok.mp h
    obtain ⟨rfl, rfl, rfl⟩ := Emit.pure_eq_ok.mp hpure
    obtain ⟨hp, hneeds, hoist⟩ := hf.1 _ _ _ _ ha
    obtain ⟨hall, hoists⟩ := ih hf.2 has
    rw [List.append_nil]
    exact ⟨.cons ⟨hp, hneeds⟩ hall, hoist.append hoists⟩

theorem bindTemp_eq_ok (hmissing : e ≠ .missing) (hneeds : ∀ c ∈ e.children, c.needsTemp = false)
    (h : Emit.bindTemp e temps = .ok (a, code, temps')) :
    a.needsTemp = false ∧ Hoists temps code temps' := by
  simp only [Emit.bindTemp, Straightline.bind_eq_ok, Except.ok.injEq, Prod.mk.injEq] at h
  obtain ⟨ty, -, rfl, rfl, rfl⟩ := h
  refine ⟨rfl, by simp, fun s hs => ?_⟩
  rw [List.mem_singleton] at hs
  subst hs
  exact ⟨⟨hmissing, hneeds⟩, _, e, rfl, le_refl _, by simp⟩

/-- The node over the values of its operands. -/
theorem operands_eq_ok {p : Expr → Prop} {f : Expr → Emit Expr}
    (hf : ∀ c ∈ e.children, Lifts (p c) (f c))
    (h : operands f e temps = .ok (a, code, temps')) :
    e ≠ .missing ∧ (∀ c ∈ e.children, p c) ∧ a.head = e.head ∧ a ≠ .missing ∧
      (∀ c ∈ a.children, c.needsTemp = false) ∧ Hoists temps code temps' := by
  rw [operands, Emit.bind_eq_ok] at h
  obtain ⟨_, code₁, temps₁, code', hcheck, h, rfl⟩ := h
  obtain ⟨hdemand, rfl, rfl⟩ := Emit.check_eq_ok.mp hcheck
  rw [Expr.mapChildrenM_eq, Emit.bind_eq_ok] at h
  obtain ⟨cs, code₂, temps₂, code₃, hcs, hpure, rfl⟩ := h
  obtain ⟨rfl, rfl, rfl⟩ := Emit.pure_eq_ok.mp hpure
  obtain ⟨hall, hoists⟩ := lifts_mapM hf hcs
  have hsim := Expr.similar_withChildren hall
  have hmissing : e ≠ .missing := by
    rintro rfl
    simp [Expr.demand] at hdemand
  refine ⟨hmissing, ?_, hsim.head, ?_, ?_, by simpa using hoists⟩
  · exact forall_of_forall₂ hall.flip fun _ _ _ hp => hp.1
  · intro ha
    have hhead := hsim.head
    rw [ha] at hhead
    cases e <;> simp_all [Expr.head, Expr.mapChildren]
  · exact forall_of_forall₂ hsim.children fun _ _ _ hp => hp.2

/-- An operand that nests too deeply is refused, and any other one is computed in front. -/
theorem atomUpTo_lifts (n : Nat) (e : Expr) :
    Lifts (∃ k, n = k + 1 ∧ e.NestsWithin k) (atomUpTo n e) := by
  induction n generalizing e with
  | zero =>
    intro temps a code temps' h
    obtain ⟨h, -⟩ := Emit.check_eq_ok.mp h
    simp at h
  | succ n ih =>
    have hnode (h : e.isAtom = false) (hatom : atomUpTo (n + 1) e =
        operands (atomUpTo n) e >>= Emit.bindTemp) :
        Lifts (∃ k, n + 1 = k + 1 ∧ e.NestsWithin k) (atomUpTo (n + 1) e) := by
      rw [hatom]
      intro temps a code temps' h
      obtain ⟨e', code₁, temps₁, code₂, he', hbind, rfl⟩ := Emit.bind_eq_ok.mp h
      obtain ⟨-, hnest, -, hmissing, hneeds, hoists⟩ := operands_eq_ok (fun c _ => ih c) he'
      obtain ⟨ha, hoists'⟩ := bindTemp_eq_ok hmissing hneeds hbind
      refine ⟨⟨n, rfl, ?_⟩, ha, hoists.append hoists'⟩
      cases n with
      | zero =>
        -- without a level below there are no operands
        refine List.eq_nil_iff_forall_not_mem.mpr fun c hc => ?_
        obtain ⟨k, hk, -⟩ := hnest c hc
        omega
      | succ n =>
        intro c hc
        obtain ⟨k, hk, hwithin⟩ := hnest c hc
        obtain rfl : n = k := by omega
        exact hwithin
    have hself (hneeds : e.needsTemp = false) :
        Lifts (∃ k, n + 1 = k + 1 ∧ e.NestsWithin k) (atomUpTo (n + 1) e) := by
      rw [atomUpTo_of_needsTemp hneeds]
      intro temps a code temps' h
      obtain ⟨rfl, rfl, rfl⟩ := Emit.pure_eq_ok.mp h
      exact ⟨⟨n, rfl, Expr.nestsWithin_of_isAtom (Expr.isAtom_of_needsTemp hneeds) n⟩, hneeds,
        hoists_nil _⟩
    cases e with
    | tmp t => exact hself rfl
    | const c =>
      by_cases hc : c.tag = .f64i
      · rw [atomUpTo, if_pos hc]
        intro temps a code temps' h
        obtain ⟨ha, hoists⟩ := bindTemp_eq_ok (by simp) (by simp [Expr.children]) h
        exact ⟨⟨n, rfl, Expr.nestsWithin_of_isAtom rfl n⟩, ha, hoists⟩
      · exact hself (by simp [Expr.needsTemp, hc])
    | _ => exact hnode rfl rfl

theorem atom_lifts (e : Expr) : Lifts (e.NestsWithin maxDepth) (atom e) := by
  intro temps a code temps' h
  obtain ⟨⟨k, hk, hnest⟩, h⟩ := atomUpTo_lifts _ _ _ _ _ _ h
  obtain rfl : maxDepth = k := by omega
  exact ⟨hnest, h⟩

/-- The flat form of a statement that does more than assign to a temporary. -/
theorem stmt_eq_ok_of_acts (hacts : s.acts = true) (h : stmt s temps = .ok ((), r, temps')) :
    ∃ code s', r = code ++ [s'] ∧ (∀ e ∈ s.operands, e.NestsWithin maxDepth) ∧ s'.Normal ∧
      s'.outline = s.outline ∧ s'.def? = s.def? ∧ Hoists temps code temps' := by
  have hstmt : stmt s = (do
      Emit.check s.demand
      let s ← s.mapOperandsM atom
      Emit.stmt s) := by
    cases s with
    | missing | noop | assign => simp [Stmt.acts] at hacts
    | _ => rfl
  rw [hstmt, Emit.bind_eq_ok] at h
  obtain ⟨_, code₁, temps₁, code₂, hcheck, h, rfl⟩ := h
  obtain ⟨-, rfl, rfl⟩ := Emit.check_eq_ok.mp hcheck
  obtain ⟨s', code₃, temps₂, code₄, hs', hemit, rfl⟩ := Emit.bind_eq_ok.mp h
  obtain ⟨rfl, rfl⟩ := Emit.stmt_eq_ok.mp hemit
  rw [Stmt.mapOperandsM_eq, Emit.bind_eq_ok] at hs'
  obtain ⟨as, code₅, temps₃, code₆, has, hpure, rfl⟩ := hs'
  obtain ⟨rfl, rfl, rfl⟩ := Emit.pure_eq_ok.mp hpure
  obtain ⟨hall, hoists⟩ := lifts_mapM (fun e _ => atom_lifts e) has
  have hsim := Stmt.similar_withOperands hall
  have hacts' := hsim.acts.trans hacts
  refine ⟨code₅, _, by simp, ?_, ?_, hsim.outline hacts, by simpa using hsim.def?, hoists⟩
  · exact forall_of_forall₂ hall.flip fun _ _ _ hp => hp.1
  · exact Stmt.normal_of_acts hacts' (forall_of_forall₂ hsim.operands fun _ _ _ hp => hp.2)

/-- What flattening makes of a statement: nothing, or a normal one of the same outline behind code
for the operands. -/
theorem stmt_eq_ok (h : stmt s temps = .ok ((), r, temps')) :
    (s = .noop ∧ r = [] ∧ temps' = temps) ∨
    s ≠ .noop ∧ ∃ code s', r = code ++ [s'] ∧ (∀ e ∈ s.operands, e.NestsWithin maxDepth) ∧
      s'.Normal ∧ s'.outline = s.outline ∧ s'.def? = s.def? ∧ Hoists temps code temps' := by
  cases s with
  | noop =>
    obtain ⟨-, rfl, rfl⟩ := Emit.pure_eq_ok.mp h
    exact .inl ⟨rfl, rfl, rfl⟩
  | assign dst src =>
    refine .inr ⟨by simp, ?_⟩
    rw [stmt, Emit.bind_eq_ok] at h
    obtain ⟨src', code₁, temps₁, code₂, hsrc, hemit, rfl⟩ := h
    obtain ⟨rfl, rfl⟩ := Emit.stmt_eq_ok.mp hemit
    rw [source] at hsrc
    split at hsrc
    · rename_i hatom
      obtain ⟨rfl, rfl, rfl⟩ := Emit.pure_eq_ok.mp hsrc
      have hne : src' ≠ .missing := by
        rintro rfl
        simp [Expr.isAtom] at hatom
      refine ⟨[], _, rfl, ?_, ⟨hne, by simp [Expr.children_of_isAtom hatom]⟩, rfl, rfl,
        hoists_nil _⟩
      simpa [Stmt.operands] using Expr.nestsWithin_of_isAtom hatom _
    · obtain ⟨-, hnest, hhead, hmissing, hneeds, hoists⟩ :=
        operands_eq_ok (fun c _ => atomUpTo_lifts _ c) hsrc
      refine ⟨code₁, _, rfl, ?_, ⟨hmissing, hneeds⟩, ?_, rfl, hoists⟩
      · rw [Stmt.operands, List.forall_mem_singleton]
        intro c hc
        -- the operands start one level below the right side
        obtain ⟨k, hk, hwithin⟩ := hnest c hc
        obtain rfl : 511 = k := by rw [maxDepth] at hk; omega
        exact hwithin
      · rw [Stmt.outline, Stmt.outline, hhead]
  | missing =>
    obtain ⟨_, code₁, temps₁, code₂, hcheck, -⟩ := Emit.bind_eq_ok.mp h
    obtain ⟨hdemand, -⟩ := Emit.check_eq_ok.mp hcheck
    simp [Stmt.demand] at hdemand
  | _ => exact .inr ⟨by simp, stmt_eq_ok_of_acts rfl h⟩

/-! ## Bodies -/

/-- The statements `r` that flattening makes of `ss`, and the temporaries that are declared before
and after. -/
inductive Spread : Array Ty → List Stmt → List Stmt → Array Ty → Prop
  | nil (temps : Array Ty) : Spread temps [] [] temps
  | noop {temps temps' : Array Ty} {ss r : List Stmt} (h : Spread temps ss r temps') :
    Spread temps (.noop :: ss) r temps'
  | cons {temps temps₁ temps' : Array Ty} {s s' : Stmt} {code ss r : List Stmt} (hnoop : s ≠ .noop)
    (hnest : ∀ e ∈ s.operands, e.NestsWithin maxDepth) (hcode : Hoists temps code temps₁)
    (hnormal : s'.Normal) (houtline : s'.outline = s.outline) (hdef : s'.def? = s.def?)
    (h : Spread temps₁ ss r temps') : Spread temps (s :: ss) (code ++ s' :: r) temps'

/-- Code that binds nodes defines none of the temporaries below `n`. -/
theorem Hoists.filter_eq_nil (h : Hoists temps code temps')
    (hn : n ≤ temps.size) (hroom : temps'.size ≤ 2 ^ 31) : code.filter (·.definesBelow n) = [] := by
  rw [List.filter_eq_nil_iff]
  intro s hs
  obtain ⟨-, i, e, rfl, hlo, hhi⟩ := h.binds s hs
  have hi : (Int32.ofNat i).toInt = i := Int32.toInt_ofNat_of_lt (by omega)
  simp only [Stmt.definesBelow, Stmt.def?, Option.all_some, hi, decide_eq_true_eq]
  omega

namespace Spread

theorem ext (h : Spread temps ss r temps') : temps.toList <+: temps'.toList := by
  induction h with
  | nil => exact List.prefix_rfl
  | noop _ ih => exact ih
  | cons _ _ hcode _ _ _ _ ih => exact hcode.ext.trans ih

theorem nestsWithin (h : Spread temps ss r temps') :
    ∀ s ∈ ss, ∀ e ∈ s.operands, e.NestsWithin maxDepth := by
  induction h with
  | nil => simp
  | noop _ ih => simpa [Stmt.operands] using ih
  | cons _ hnest _ _ _ _ _ ih => exact List.forall_mem_cons.mpr ⟨hnest, ih⟩

theorem normal (h : Spread temps ss r temps') : ∀ s' ∈ r, s'.Normal := by
  induction h with
  | nil => simp
  | noop _ ih => exact ih
  | cons _ _ hcode hnormal _ _ _ ih =>
    refine List.forall_mem_append.mpr ⟨fun s' hs' => (hcode.binds s' hs').1, ?_⟩
    exact List.forall_mem_cons.mpr ⟨hnormal, ih⟩

/-- Every statement that stays has the outline of one of the block. -/
theorem outline_mem (h : Spread temps ss r temps') :
    ∀ s' ∈ r, s'.acts = true → ∃ s ∈ ss, s'.outline = s.outline := by
  induction h with
  | nil => simp
  | noop _ ih =>
    intro s' hs' hacts
    obtain ⟨s, hs, houtline⟩ := ih s' hs' hacts
    exact ⟨s, List.mem_cons_of_mem _ hs, houtline⟩
  | cons _ _ hcode _ houtline _ _ ih =>
    refine List.forall_mem_append.mpr ⟨fun s' hs' hacts => ?_, ?_⟩
    · obtain ⟨-, i, e, rfl, -⟩ := hcode.binds s' hs'
      simp [Stmt.acts] at hacts
    · refine List.forall_mem_cons.mpr ⟨fun _ => ⟨_, List.mem_cons_self, houtline⟩, ?_⟩
      intro s' hs' hacts
      obtain ⟨s, hs, houtline⟩ := ih s' hs' hacts
      exact ⟨s, List.mem_cons_of_mem _ hs, houtline⟩

/-- The outline of every statement that does something stays. -/
theorem mem_outline (h : Spread temps ss r temps') :
    ∀ s ∈ ss, s ≠ .noop → ∃ s' ∈ r, s'.outline = s.outline := by
  induction h with
  | nil => simp
  | noop _ ih => exact List.forall_mem_cons.mpr ⟨fun h => absurd rfl h, ih⟩
  | cons _ _ _ _ houtline _ _ ih =>
    refine List.forall_mem_cons.mpr ⟨fun _ => ⟨_, by simp, houtline⟩, fun s hs hnoop => ?_⟩
    obtain ⟨s', hs', houtline'⟩ := ih s hs hnoop
    exact ⟨s', by simp [hs'], houtline'⟩

/-- Apart from what binds fresh temporaries, the outlines are those of the block. -/
theorem outlines (h : Spread temps ss r temps') (hn : n ≤ temps.size)
    (hss : ∀ s ∈ ss, s.definesBelow n = true) (hroom : temps'.size ≤ 2 ^ 31) :
    (r.filter (·.definesBelow n)).map Stmt.outline =
      (ss.filter (!·.isNoop)).map Stmt.outline := by
  induction h with
  | nil => rfl
  | noop _ ih =>
    rw [List.forall_mem_cons] at hss
    exact ih hn hss.2 hroom
  | @cons temps temps₁ temps' s s' code ss r hnoop _ hcode _ houtline hdef hspread ih =>
    rw [List.forall_mem_cons] at hss
    have hsize := size_le_of_extends hcode.ext
    have hsize' := size_le_of_extends hspread.ext
    have hkeep : s.isNoop = false := by
      cases s with
      | noop => exact absurd rfl hnoop
      | _ => rfl
    have hbelow : s'.definesBelow n = true := by
      rw [Stmt.definesBelow, hdef]
      exact hss.1
    -- the filter drops the code in front, which binds fresh temporaries
    rw [List.filter_append, hcode.filter_eq_nil hn (by omega), List.nil_append,
      List.filter_cons_of_pos hbelow, List.filter_cons_of_pos (by simp [hkeep]), List.map_cons,
      List.map_cons, houtline, ih (by omega) hss.2 hroom]

end Spread

/-- What flattening makes of statements and a successor. -/
theorem body_eq_ok (h : body next ss temps = .ok (a, r, temps')) :
    next.NestsWithin maxDepth ∧ a.needsTemp = false ∧ ∃ r₁ code temps₁, r = r₁ ++ code ∧
      Spread temps ss r₁ temps₁ ∧ Hoists temps₁ code temps' := by
  induction ss generalizing temps r with
  | nil =>
    obtain ⟨hnest, hneeds, hoists⟩ := atom_lifts next _ _ _ _ h
    exact ⟨hnest, hneeds, [], r, temps, rfl, .nil temps, hoists⟩
  | cons s ss ih =>
    rw [body, Emit.bind_eq_ok] at h
    obtain ⟨_, code₁, temps₁, code₂, hs, hrest, rfl⟩ := h
    obtain ⟨hnest, hneeds, r₁, code, temps₂, rfl, hspread, hoists⟩ := ih hrest
    refine ⟨hnest, hneeds, ?_⟩
    rcases stmt_eq_ok hs with ⟨rfl, rfl, rfl⟩ | ⟨hnoop, code', s', rfl, hops, hs', ho, hd, hcode⟩
    · exact ⟨r₁, code, temps₂, rfl, .noop hspread, hoists⟩
    · exact ⟨code' ++ s' :: r₁, code, temps₂, by simp, .cons hnoop hops hcode hs' ho hd hspread,
        hoists⟩

/-! ## Failures -/

/-- All failures of `x` are faults of the block. -/
def Emit.Refuses {α : Type} (x : Emit α) : Prop :=
  ∀ temps f, x temps = .error f → ∃ d, f = .illFormed d

theorem exists_illFormed_atExpr (reason : Reason) (e : Expr) :
    ∃ d, Fault.atExpr reason e = .illFormed d := by
  cases e <;> exact ⟨_, rfl⟩

theorem Emit.Refuses.bind {α β : Type} {x : Emit α} {f : α → Emit β} (hx : x.Refuses)
    (hf : ∀ u, (f u).Refuses) : (x >>= f).Refuses := by
  intro temps fault h
  change Emit.andThen x f temps = _ at h
  cases hx' : x temps with
  | error fault' =>
    rw [Emit.andThen, hx'] at h
    exact Except.error.inj h ▸ hx temps fault' hx'
  | ok v =>
    cases hf' : f v.1 v.2.2 with
    | error fault' =>
      simp only [Emit.andThen, hx', hf', Bind.bind, Except.bind, Except.error.injEq] at h
      exact h ▸ hf _ _ fault' hf'
    | ok w => simp [Emit.andThen, hx', hf', Bind.bind, Except.bind] at h

theorem Emit.refuses_pure {α : Type} (u : α) : (pure u : Emit α).Refuses := by
  intro temps f h
  change Except.ok _ = _ at h
  simp at h

theorem Emit.refuses_stmt (s : Stmt) : (Emit.stmt s).Refuses := by
  intro temps f h
  simp [Emit.stmt] at h

theorem Emit.refuses_check {α : Type} {x : Except Fault α}
    (hx : ∀ f, x = .error f → ∃ d, f = .illFormed d) : (Emit.check x).Refuses := by
  intro temps f h
  cases x with
  | error fault =>
    refine hx f ?_
    simpa [Emit.check, Bind.bind, Except.bind] using h
  | ok u => simp [Emit.check, Bind.bind, Except.bind] at h

theorem tempTy_refuses {t : Temp} {f : Fault} (h : tempTy temps t = .error f) :
    ∃ d, f = .illFormed d := by
  unfold tempTy at h
  split at h
  · simp at h
  · exact Except.error.inj h ▸ exists_illFormed_atExpr _ _

theorem typeIn_refuses {f : Fault} (h : e.typeIn temps = .error f) : ∃ d, f = .illFormed d := by
  induction e using Expr.childInduct with
  | h e ih =>
    cases e with
    | missing => exact Except.error.inj h ▸ exists_illFormed_atExpr _ _
    | tmp t => exact tempTy_refuses h
    -- a choice has the type of an operand, any other node one of its own
    | select c z x => exact ih z (by simp [Expr.children]) h
    | _ => simp [Expr.typeIn] at h

theorem Emit.refuses_bindTemp (e : Expr) : (Emit.bindTemp e).Refuses := by
  intro temps f h
  cases hty : e.typeIn temps with
  | error fault =>
    rw [Emit.bindTemp, hty] at h
    exact Except.error.inj h ▸ typeIn_refuses hty
  | ok ty => simp [Emit.bindTemp, Bind.bind, Except.bind, hty] at h

theorem Emit.refuses_mapM {f : Expr → Emit Expr} (hf : ∀ e, (f e).Refuses) (es : List Expr) :
    (es.mapM f).Refuses := by
  induction es with
  | nil => exact Emit.refuses_pure _
  | cons e es ih =>
    rw [List.mapM_cons]
    exact (hf e).bind fun a => ih.bind fun as => Emit.refuses_pure _

theorem refuses_operands {f : Expr → Emit Expr} (hf : ∀ e, (f e).Refuses) (e : Expr) :
    (operands f e).Refuses := by
  rw [operands, Expr.mapChildrenM_eq]
  refine .bind (Emit.refuses_check fun fault h => ?_) fun _ =>
    (Emit.refuses_mapM hf _).bind fun _ => Emit.refuses_pure _
  cases e with
  | missing => exact Except.error.inj h ▸ exists_illFormed_atExpr _ _
  | _ => simp [Expr.demand] at h

theorem refuses_atomUpTo (n : Nat) (e : Expr) : (atomUpTo n e).Refuses := by
  induction n generalizing e with
  | zero =>
    refine Emit.refuses_check fun fault h => ?_
    exact Except.error.inj h ▸ exists_illFormed_atExpr _ _
  | succ n ih =>
    cases e with
    | tmp t => exact Emit.refuses_pure _
    | const c =>
      rw [atomUpTo]
      split
      · exact Emit.refuses_bindTemp _
      · exact Emit.refuses_pure _
    | _ => exact (refuses_operands ih _).bind Emit.refuses_bindTemp

theorem refuses_stmt (s : Stmt) : (stmt s).Refuses := by
  have hother : (do
      Emit.check s.demand
      let s ← s.mapOperandsM atom
      Emit.stmt s : Emit Unit).Refuses := by
    rw [Stmt.mapOperandsM_eq]
    refine .bind (Emit.refuses_check fun fault h => ?_) fun _ =>
      .bind (.bind (Emit.refuses_mapM (refuses_atomUpTo _) _) fun _ => Emit.refuses_pure _)
        Emit.refuses_stmt
    cases s with
    | missing => exact ⟨_, (Except.error.inj h).symm⟩
    | _ => simp [Stmt.demand] at h
  cases s with
  | noop => exact Emit.refuses_pure _
  | assign dst src =>
    refine .bind ?_ fun _ => Emit.refuses_stmt _
    rw [source]
    split
    · exact Emit.refuses_pure _
    · exact refuses_operands (refuses_atomUpTo _) _
  | _ => exact hother

theorem refuses_body (next : Expr) (ss : List Stmt) : (body next ss).Refuses := by
  induction ss with
  | nil => exact refuses_atomUpTo _ _
  | cons s ss ih => exact (refuses_stmt s).bind fun _ => ih

end Flat

/-! ## Blocks -/

namespace Stmt

variable {s : Stmt}

theorem Normal.flat (h : s.Normal) : s.Flat := by
  cases s with
  | missing | noop => exact h.elim
  | assign dst src => exact fun c hc => Expr.isAtom_of_needsTemp (h.2 c hc)
  | _ => exact fun e he => Expr.isAtom_of_needsTemp (h e he)

/-- In normal statements a floating-point constant is nothing but the whole right side of an
assignment. -/
theorem Normal.const_mem (h : s.Normal) {c : Const} (hc : .const c ∈ s.nodes)
    (htag : c.tag = .f64i) : ∃ dst, s = .assign dst (.const c) := by
  have hnot {e : Expr} (he : e.needsTemp = false) : Expr.const c ∉ e.nodes := by
    intro hmem
    rcases Expr.mem_nodes.mp hmem with rfl | ⟨c', hc', -⟩
    · simp [Expr.needsTemp, htag] at he
    · simp [Expr.children_of_isAtom (Expr.isAtom_of_needsTemp he)] at hc'
  obtain ⟨e, he, hce⟩ := List.mem_flatMap.mp hc
  cases s with
  | missing | noop => exact h.elim
  | assign dst src =>
    -- the constant is the right side itself, since it is not among the operands
    rw [Stmt.operands, List.mem_singleton] at he
    subst he
    rcases Expr.mem_nodes.mp hce with rfl | ⟨c', hc', hmem⟩
    · exact ⟨dst, rfl⟩
    · exact absurd hmem (hnot (h.2 c' hc'))
  | _ => exact absurd hce (hnot (h e he))

/-- A statement whose operands need no temporaries is normal or does nothing. -/
theorem Ok.normal_of_fresh {P : Policy} {temps : Array Ty} {defs : List Temp}
    (hs : s.Ok P temps defs) (hfresh : s.fresh = 0) : s = .noop ∨ s.Normal := by
  have hneeds (es : List Expr) (hes : (es.map Expr.fresh).sum = 0) :
      ∀ e ∈ es, e.needsTemp = false := by
    intro e he
    have he : e.fresh = 0 := List.sum_eq_zero_iff.mp hes _ (List.mem_map_of_mem he)
    rw [Expr.fresh, List.countP_eq_zero] at he
    simpa using he e e.self_mem_nodes
  cases s with
  | missing => exact hs.elim
  | noop => exact .inl rfl
  | assign dst src =>
    obtain ⟨T, hT, -⟩ := hs
    exact .inr ⟨hT.ne_missing, hneeds _ hfresh⟩
  | _ => exact .inr (hneeds _ hfresh)

theorem AllOk.filter_isNoop {P : Policy} {temps : Array Ty} {defs : List Temp} {ss : List Stmt}
    (h : AllOk P temps defs ss) : AllOk P temps defs (ss.filter (!·.isNoop)) ∧
      defsAfterAll (ss.filter (!·.isNoop)) defs = defsAfterAll ss defs := by
  induction ss generalizing defs with
  | nil => exact ⟨trivial, rfl⟩
  | cons s ss ih =>
    obtain ⟨hok, hdefs⟩ := ih h.2
    cases s with
    | noop => exact ⟨hok, hdefs⟩
    | _ => exact ⟨⟨h.1, hok⟩, hdefs⟩

end Stmt

/-- Statements that do nothing change nothing. -/
theorem Machine.finish_filter_isNoop (next : Expr) (kind : JumpKind) (ss : List Stmt)
    (m : Machine) :
    finish next kind (ss.filter (!·.isNoop)) m = finish next kind ss m := by
  induction ss generalizing m with
  | nil => rfl
  | cons s ss ih =>
    cases hs : s.isNoop with
    | true =>
      have hnoop : s = .noop := by
        cases s <;> simp_all [Stmt.isNoop]
      rw [hnoop]
      exact ih m
    | false =>
      rw [List.filter_cons_of_pos (by simp [hs]), finish, finish]
      cases m.step s with
      | next m₁ => exact ih m₁
      | leave | fail => rfl

namespace Block

variable {b r : Block}

/-- Floating-point constants stand alone: each is the whole right side of an assignment. -/
structure DoublesAssigned (b : Block) : Prop where
  stmts : ∀ s ∈ b.stmts, ∀ c, .const c ∈ s.nodes → c.tag = .f64i → ∃ dst, s = .assign dst (.const c)
  targets : ∀ guard kind c, .exit guard kind c ∈ b.stmts → c.tag ≠ .f64i
  next : ∀ c, .const c ∈ b.next.nodes → c.tag ≠ .f64i

/-- The numbers of the temporaries that flat form adds, if there are any, stay in range. -/
def RoomToFlatten (b : Block) : Prop := b.flatSize ≠ b.temps.size → b.flatSize ≤ 2 ^ 31

theorem exists_illFormed_of_flatten {f : Fault} (h : b.flatten = .error f) :
    ∃ d, f = .illFormed d := by
  cases hbody : Flat.body b.next b.stmts b.temps with
  | error fault =>
    rw [Block.flatten, hbody] at h
    exact Except.error.inj h ▸ Flat.refuses_body b.next b.stmts b.temps fault hbody
  | ok v =>
    rw [Block.flatten_of_body hbody] at h
    simp at h

/-- What flattening makes of a block, whether its rules are kept or not. -/
theorem flatten_eq_ok (h : b.flatten = .ok r) :
    b.NestsWithin Flat.maxDepth ∧ r.Normal ∧ r.kind = b.kind ∧ ∃ r₁ code temps₁,
      r.stmts = r₁ ++ code ∧ Flat.Spread b.temps b.stmts r₁ temps₁ ∧
      Flat.Hoists temps₁ code r.temps := by
  rw [Block.flatten, bind_eq_ok] at h
  obtain ⟨⟨a, code, temps'⟩, hbody, hr⟩ := h
  rw [Except.ok.injEq] at hr
  subst hr
  obtain ⟨hnest, hneeds, r₁, code, temps₁, rfl, hspread, hoists⟩ := Flat.body_eq_ok hbody
  refine ⟨⟨hspread.nestsWithin, hnest⟩, ⟨?_, hneeds⟩, rfl, r₁, code, temps₁, rfl, hspread, hoists⟩
  exact List.forall_mem_append.mpr ⟨hspread.normal, fun s hs => (hoists.binds s hs).1⟩

/-- Apart from statements that do nothing, normal blocks are left as they are. -/
theorem flatten_of_normal (hss : ∀ s ∈ b.stmts, s = .noop ∨ s.Normal)
    (hnext : b.next.needsTemp = false) :
    b.flatten = .ok { b with stmts := b.stmts.filter (!·.isNoop) } :=
  Block.flatten_of_body (Flat.body_of_normal hss hnext b.temps)

theorem Normal.doublesAssigned (hr : r.Normal)
    (htargets : ∀ guard kind c, .exit guard kind c ∈ r.stmts → c.tag ≠ .f64i) :
    r.DoublesAssigned := by
  refine ⟨fun s hs c => (hr.1 s hs).const_mem, htargets, fun c hc htag => ?_⟩
  have hatom := Expr.isAtom_of_needsTemp hr.2
  rw [Expr.nodes_eq, Expr.children_of_isAtom hatom, List.flatMap_nil, List.mem_singleton] at hc
  have hneeds := hr.2
  simp [← hc, Expr.needsTemp, htag] at hneeds

/-- Exits of the flat form are exits of the block. -/
theorem exit_mem_of_flatten {guard : Expr} {kind : JumpKind} {c : Const} (h : b.flatten = .ok r)
    (hexit : .exit guard kind c ∈ r.stmts) : ∃ guard', .exit guard' kind c ∈ b.stmts := by
  obtain ⟨-, -, -, r₁, code, temps₁, hstmts, hspread, hoists⟩ := flatten_eq_ok h
  rw [hstmts, List.mem_append] at hexit
  rcases hexit with hexit | hexit
  · obtain ⟨s, hs, houtline⟩ := hspread.outline_mem _ hexit rfl
    cases s with
    | exit guard' kind' c' =>
      obtain ⟨-, rfl, rfl⟩ := Stmt.exit.inj houtline
      exact ⟨guard', hs⟩
    | _ => simp [Stmt.outline, Stmt.mapOperands] at houtline
  · -- code for the successor only assigns
    obtain ⟨-, i, e, hassign, -⟩ := hoists.binds _ hexit
    simp at hassign

/-- A block that needs no fresh temporaries loses the statements that do nothing. -/
theorem Typed.flatten_of_flatSize {P : Policy} (hb : b.Typed P)
    (hsize : b.flatSize = b.temps.size) :
    b.flatten = .ok { b with stmts := b.stmts.filter (!·.isNoop) } := by
  rw [flatSize] at hsize
  refine flatten_of_normal (fun s hs => ?_) ?_
  · obtain ⟨defs, hok⟩ := hb.stmts.exists_ok hs
    have hsum : (b.stmts.map Stmt.fresh).sum = 0 := by omega
    exact hok.normal_of_fresh (List.sum_eq_zero_iff.mp hsum _ (List.mem_map_of_mem hs))
  · have hnext : b.next.fresh = 0 := by omega
    rw [Expr.fresh, List.countP_eq_zero] at hnext
    simpa using hnext _ b.next.self_mem_nodes

/-- Every temporary that a typed block defines is one of its own. -/
theorem Typed.definesBelow {P : Policy} (hb : b.Typed P) :
    ∀ s ∈ b.stmts, s.definesBelow b.temps.size = true := by
  intro s hs
  obtain ⟨defs, hok⟩ := hb.stmts.exists_ok hs
  rw [Stmt.definesBelow, Option.all_eq_true]
  intro t ht
  obtain ⟨⟨T, hT⟩, -⟩ := hok.of_def? ht
  simpa using toInt_lt_of_tempTy hT

/-- The flat form of a typed block: it keeps the rules and the statements, and does the same as long
as the effects that are skipped have values for their arguments. -/
theorem Typed.flatten_in_room {P : Policy} (hb : b.Typed P) (hnest : b.NestsWithin Flat.maxDepth)
    (hroom : b.RoomToFlatten) :
    ∃ r, b.flatten = .ok r ∧ r.Flat ∧ b.Keeps P r ∧
      (r.stmts.filter (·.definesBelow b.temps.size)).map Stmt.outline =
        (b.stmts.filter (!·.isNoop)).map Stmt.outline ∧
      ∀ env st out, b.Eager st env → b.ends st env = some out → r.ends st env = some out := by
  by_cases hsize : b.flatSize = b.temps.size
  · -- nothing is added, however many temporaries the block declares
    have hflatten := hb.flatten_of_flatSize hsize
    obtain ⟨-, hnormal, -⟩ := flatten_eq_ok hflatten
    have hflat : Block.Flat { b with stmts := b.stmts.filter (!·.isNoop) } :=
      ⟨fun s hs => (hnormal.1 s hs).flat, Expr.isAtom_of_needsTemp hnormal.2⟩
    obtain ⟨hok, hdefs⟩ := hb.stmts.filter_isNoop
    refine ⟨_, hflatten, hflat, ⟨⟨hb.temps, hok, ?_, hb.kind⟩, fun _ => hflat, Iff.rfl⟩, ?_, ?_⟩
    · have hnext := hb.next
      unfold Block.NextOk at hnext ⊢
      simp only [hdefs]
      exact hnext
    · rw [List.filter_eq_self.mpr]
      exact fun s hs => hb.definesBelow s (List.mem_of_mem_filter hs)
    · intro env st out _ hout
      rw [Block.ends_eq] at hout ⊢
      rwa [Machine.finish_filter_isNoop]
  · have hroom := hroom hsize
    obtain ⟨r, hr, hrsize, hflat, hkeeps, hends⟩ := Block.flatten_eager hb hnest hroom
    obtain ⟨-, -, -, r₁, code, temps₁, hstmts, hspread, hoists⟩ := flatten_eq_ok hr
    have hext := size_le_of_extends hspread.ext
    have hext' := size_le_of_extends hoists.ext
    refine ⟨r, hr, hflat, hkeeps, ?_, hends⟩
    rw [hstmts, List.filter_append, hoists.filter_eq_nil hext (by omega), List.append_nil]
    exact hspread.outlines (le_refl _) hb.definesBelow (by omega)

end Block

/-- Flattening a well-formed block fails because of the block or not at all. It fails if a tree of
the block is nested too deeply. Otherwise, if there are numbers for the temporaries that it adds, it
leaves a well-formed flat block with the statements of the block in order, apart from those that do
nothing. What it leaves declares the temporaries of the block first, has no statement that does
nothing, and no floating-point constant except as the whole right side of an assignment. -/
theorem flattened_unless_too_deep {b : Block} (hb : b.check false = .ok ()) :
    (∀ f, b.flatten = .error f → ∃ d, f = .illFormed d) ∧
    (¬b.NestsWithin Flat.maxDepth → ∃ f, b.flatten = .error f) ∧
    (b.NestsWithin Flat.maxDepth → b.RoomToFlatten → ∃ r, b.flatten = .ok r ∧
      r.check true = .ok () ∧ (r.stmts.filter (·.definesBelow b.temps.size)).map Stmt.outline =
        (b.stmts.filter (!·.isNoop)).map Stmt.outline) ∧
    ∀ r, b.flatten = .ok r → b.temps.toList <+: r.temps.toList ∧ .noop ∉ r.stmts ∧
      r.DoublesAssigned := by
  obtain ⟨htyped, hfits, -⟩ := Block.check_eq_ok_iff.mp hb
  refine ⟨fun f => Block.exists_illFormed_of_flatten, fun hdeep => ?_, fun hnest hroom => ?_,
    fun r hr => ?_⟩
  · cases hr : b.flatten with
    | error f => exact ⟨f, rfl⟩
    | ok r => exact absurd (Block.flatten_eq_ok hr).1 hdeep
  · obtain ⟨r, hr, hflat, hkeeps, houtlines, -⟩ := htyped.flatten_in_room hnest hroom
    exact ⟨r, hr, Block.check_eq_ok_iff.mpr ⟨hkeeps.typed, hkeeps.fits.mpr hfits, fun _ => hflat⟩,
      houtlines⟩
  · obtain ⟨-, hnormal, -, r₁, code, temps₁, -, hspread, hoists⟩ := Block.flatten_eq_ok hr
    refine ⟨hspread.ext.trans hoists.ext, fun hnoop => hnormal.1 _ hnoop,
      hnormal.doublesAssigned fun guard kind c hexit htag => ?_⟩
    obtain ⟨guard', hmem⟩ := Block.exit_mem_of_flatten hr hexit
    -- the target of an exit is an address, by its tag
    obtain ⟨defs, -, htarget, -⟩ := htyped.stmts.exists_ok hmem
    simp [htag] at htarget

/-- A floating-point constant, negated `n` times. -/
def Expr.negations : Nat → Expr
  | 0 => .const ⟨.f64i, 1⟩
  | n + 1 => .unop .negF64 (negations n)

theorem Expr.hasTy_negations (n : Nat) : (negations n).HasTy .any #[] [] .f64 := by
  induction n with
  | zero => exact ⟨rfl, by decide, rfl⟩
  | succ n ih => exact ⟨rfl, rfl, ih⟩

theorem Expr.nestsWithin_negations {n k : Nat} : (negations k).NestsWithin n ↔ k ≤ n := by
  induction n generalizing k with
  | zero => cases k <;> simp [negations, NestsWithin, children]
  | succ n ih => cases k <;> simp [negations, NestsWithin, children, ih]

theorem Expr.fresh_negations (n : Nat) : (negations n).fresh = n + 1 := by
  induction n with
  | zero => rfl
  | succ n ih =>
    rw [fresh_eq]
    simp [negations, children, needsTemp, ih]

/-- A statement that does nothing, and one with a tree of `n` levels. -/
def Block.negating (n : Nat) : Block where
  temps := #[]
  stmts := [.noop, .put 8 (.negations n)]
  next := .const ⟨.u32, 32⟩
  kind := .boring

theorem Block.negating_check (n : Nat) : (Block.negating n).check false = .ok () := by
  refine Block.check_eq_ok_iff.mpr ⟨⟨by simp [negating], ?_, .inr ⟨_, rfl, .inl rfl, trivial⟩, rfl⟩,
    ?_, by simp⟩
  · exact ⟨trivial, ⟨by decide, .f64, Expr.hasTy_negations n, trivial⟩, trivial⟩
  · rintro c ⟨⟩
    rfl

/-- The last tree that is made flat and the first one that is refused. -/
theorem flattened_unless_too_deep_negating :
    (∃ r, (Block.negating 512).flatten = .ok r ∧ r.check true = .ok () ∧ r.DoublesAssigned) ∧
      ∃ d, (Block.negating 513).flatten = .error (.illFormed d) := by
  have hnests (n : Nat) : (Block.negating n).NestsWithin Flat.maxDepth ↔ n ≤ 512 := by
    have hnext : (Expr.const ⟨.u32, 32⟩).NestsWithin 512 := Expr.nestsWithin_of_isAtom rfl _
    simp [Block.NestsWithin, Block.negating, Stmt.operands, Expr.nestsWithin_negations,
      Flat.maxDepth, hnext]
  constructor
  · obtain ⟨-, -, hflat, hform⟩ := flattened_unless_too_deep (Block.negating_check 512)
    have hnext : (Expr.const ⟨.u32, 32⟩).fresh = 0 := rfl
    have hsize : (Block.negating 512).flatSize = 513 := by
      simp [Block.flatSize, Block.negating, Stmt.fresh, Stmt.operands, Expr.fresh_negations, hnext]
    obtain ⟨r, hr, hcheck, -⟩ := hflat ((hnests 512).mpr (le_refl _)) fun _ => by omega
    exact ⟨r, hr, hcheck, (hform r hr).2.2⟩
  · obtain ⟨hill, hdeep, -⟩ := flattened_unless_too_deep (Block.negating_check 513)
    obtain ⟨f, hf⟩ := hdeep (by simp [hnests])
    obtain ⟨d, rfl⟩ := hill f hf
    exact ⟨d, hf⟩

/-- The constant gets a temporary of its own. -/
example : (Block.negating 1).flatten.map (·.stmts) = .ok [.assign 0 (.const ⟨.f64i, 1⟩),
    .assign 1 (.unop .negF64 (.tmp 0)), .put 8 (.tmp 1)] := rfl

/-- A block that declares `n` temporaries and needs one more to be flat. -/
def Block.crowded (n : Nat) : Block where
  temps := .replicate n .i32
  stmts := []
  next := .get 0 .i32
  kind := .boring

theorem Block.crowded_check (n : Nat) : (Block.crowded n).check false = .ok () := by
  refine Block.check_eq_ok_iff.mpr ⟨⟨?_, trivial, .inl (.inl ?_), rfl⟩, ?_, by simp⟩
  · intro T hT
    rw [(Array.mem_replicate.mp hT).2]
    decide
  · exact ⟨rfl, by decide, by decide, trivial⟩
  · intro c hc
    simp [Block.crowded] at hc

theorem Block.crowded_nestsWithin (n k : Nat) : (Block.crowded n).NestsWithin k := by
  refine ⟨by simp [Block.crowded], ?_⟩
  cases k with
  | zero => rfl
  | succ k =>
    intro c hc
    simp [Block.crowded, Expr.children] at hc

theorem Block.crowded_flatten (n : Nat) :
    (Block.crowded n).flatten = .ok { Block.crowded n with
      temps := (Array.replicate n .i32).push .i32
      stmts := [.assign (.ofNat n) (.get 0 .i32)]
      next := .tmp (.ofNat n) } := by
  refine Block.flatten_of_body ?_
  have hbody : ∀ temps, Flat.body (.get 0 .i32) [] temps =
    .ok (.tmp (.ofNat temps.size), [.assign (.ofNat temps.size) (.get 0 .i32)], temps.push .i32) :=
      fun _ => rfl
  rw [Block.crowded, hbody, Array.size_replicate]

/-- Of a well-formed block that is not nested too deeply, the flat form is refused where the numbers of
temporaries run out: the next one is negative. -/
theorem flattened_out_of_numbers :
    (Block.crowded (2 ^ 31)).check false = .ok () ∧
      (Block.crowded (2 ^ 31)).NestsWithin Flat.maxDepth ∧
      ∃ r, (Block.crowded (2 ^ 31)).flatten = .ok r ∧ r.check true ≠ .ok () := by
  refine ⟨Block.crowded_check _, Block.crowded_nestsWithin _ _, _, Block.crowded_flatten _, ?_⟩
  exact Block.check_ne_ok_of_negative (t := .ofNat (2 ^ 31)) List.mem_cons_self rfl (by decide)

end Straightline
