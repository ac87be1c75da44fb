import Mathlib
import Straightline.Proofs.DataModel
import Straightline.Proofs.Nesting
import Straightline.Proofs.NormalForm

/-!
# Trees do the work of the flat block

Every node that is not a temporary does some work: it reads, computes or is a constant. Building
trees moves such nodes and neither drops nor copies one. The count is kept at each point of the
walk, with what waits on the side of what is still to come: a substitution adds the work of what it
puts in (`work_subst`), and this is what stops waiting (`Waiting.work_without`). A binding that
waits has its use to come, so none is left at the end.
-/

namespace Straightline

/-! ## Work -/

/-- The nodes other than temporaries, each with holes in the places of its operands. -/
def work (nodes : List Expr) : Multiset Expr :=
  ((nodes.filter (·.temp?.isNone)).map Expr.head : List Expr)

/-- The work of the statements and of the successor. -/
def Block.work (b : Block) : Multiset Expr :=
  Straightline.work (b.stmts.flatMap Stmt.nodes ++ b.next.nodes)

@[simp] theorem work_append (xs ys : List Expr) : work (xs ++ ys) = work xs + work ys := by
  rw [work, List.filter_append, List.map_append, ← Multiset.coe_add, work, work]

theorem work_flatMap {α : Type} (f : α → List Expr) (xs : List α) :
    work (xs.flatMap f) = (xs.map fun x => work (f x)).sum := by
  induction xs with
  | nil => rfl
  | cons x xs ih => rw [List.flatMap_cons, work_append, ih, List.map_cons, List.sum_cons]

theorem sum_map_flatMap {α β : Type} (f : α → List β) (g : β → Multiset Expr) (xs : List α) :
    ((xs.flatMap f).map g).sum = (xs.map fun x => ((f x).map g).sum).sum := by
  induction xs with
  | nil => rfl
  | cons x xs ih => simp [ih]

theorem eq_map_of_forall₂ {α β : Type} {f : α → β} {xs : List α} {ys : List β}
    (h : List.Forall₂ (fun x y => y = f x) xs ys) : ys = xs.map f := by
  induction h with
  | nil => rfl
  | cons hxy _ ih => rw [hxy, ih, List.map_cons]

namespace Expr

variable {e : Expr} {σ : Temp → Expr}

@[simp] theorem work_tmp (t : Temp) : work (tmp t).nodes = 0 := by
  simp [work, nodes_eq, children, temp?]

theorem work_of_isAtom_eq_false (hatom : e.isAtom = false) :
    work e.nodes = {e.head} + (e.children.map fun c => work c.nodes).sum := by
  have hself : e.temp?.isNone = true := by cases e <;> simp_all [temp?, isAtom]
  have hhead : work [e] = {e.head} := by simp [work, hself]
  rw [nodes_eq, ← List.singleton_append, work_append, hhead, work_flatMap]

/-- A substitution adds the work of what it puts in. -/
theorem work_subst (σ : Temp → Expr) (e : Expr) :
    work (e.subst σ).nodes = work e.nodes + (e.uses.map fun t => work (σ t).nodes).sum := by
  induction e using childInduct with
  | h e ih =>
    cases hatom : e.isAtom with
    | true =>
      cases e with
      -- a use does no work itself, so its place counts for what is put there
      | tmp t => simp [subst]
      | const c => simp [subst]
      | _ => simp [isAtom] at hatom
    | false =>
      have hsim := similar_subst (σ := σ) hatom
      have hchildren := eq_map_of_forall₂ hsim.children
      have hsum : (e.children.map fun c => work (c.subst σ).nodes).sum =
          (e.children.map fun c =>
            work c.nodes + (c.uses.map fun t => work (σ t).nodes).sum).sum := by
        rw [List.map_congr_left fun c hc => ih c hc]
      rw [work_of_isAtom_eq_false (hsim.isAtom.trans hatom), work_of_isAtom_eq_false hatom,
        hsim.head, hchildren, List.map_map, uses_of_isAtom_eq_false hatom, sum_map_flatMap,
        add_assoc, ← List.sum_map_add]
      exact congrArg _ hsum

end Expr

theorem Stmt.work_subst (σ : Temp → Expr) (s : Stmt) :
    work (s.subst σ).nodes = work s.nodes + (s.uses.map fun t => work (σ t).nodes).sum := by
  have hoperands := eq_map_of_forall₂ (s.similar_subst σ).operands
  rw [Stmt.nodes, Stmt.nodes, Stmt.uses, hoperands, work_flatMap, work_flatMap, sum_map_flatMap,
    ← List.sum_map_add, List.map_map]
  exact congrArg _ (List.map_congr_left fun e _ => e.work_subst σ)

/-! ## Work that waits -/

namespace Nesting

variable {P : Policy} {temps : Array Ty} {defs defs' rest ts : List Temp} {next : Expr}
  {ss : List Stmt} {w : Waiting} {r : List Stmt × Expr}

/-- The work of the waiting bindings. -/
def Waiting.work (w : Waiting) : Multiset Expr :=
  (w.map fun h => Straightline.work h.expr.nodes).sum

namespace Waiting

theorem work_cons (h : Held) (w : Waiting) :
    Waiting.work (h :: w) = Straightline.work h.expr.nodes + w.work := by
  rw [work, List.map_cons, List.sum_cons, work]

theorem work_append (v w : Waiting) : Waiting.work (v ++ w) = v.work + w.work := by
  rw [work, List.map_append, List.sum_append, work, work]

@[simp] theorem work_nil : Waiting.work [] = 0 := rfl

theorem work_filter (p : Held → Bool) (w : Waiting) :
    Waiting.work (w.filter p) + Waiting.work (w.filter fun x => !p x) = w.work := by
  rw [← work_append, work, work]
  exact ((List.filter_append_perm p w).map _).sum_eq

theorem work_emit (w : Waiting) :
    Straightline.work ((w.map emit).flatMap Stmt.nodes) = w.work := by
  rw [work_flatMap, List.map_map, work]
  simp [Function.comp_def, emit, Stmt.nodes, Stmt.operands]

/-- One use takes one binding. -/
theorem work_value (hnodup : (w.map Held.temp).Nodup) (t : Temp) :
    Straightline.work (w.value t).nodes + (w.without [t]).work = w.work := by
  by_cases hheld : ∃ h ∈ w, h.temp = t
  · obtain ⟨h, hh, rfl⟩ := hheld
    rw [value_of_mem hnodup hh]
    obtain ⟨u, v, rfl⟩ := List.append_of_mem hh
    rw [List.map_append, List.map_cons, List.nodup_middle, List.nodup_cons,
      ← List.map_append] at hnodup
    have hothers : Waiting.without (u ++ v) [h.temp] = u ++ v := without_of_forall fun x hx htemp =>
      hnodup.1 (List.mem_singleton.mp htemp ▸ List.mem_map_of_mem hx)
    have hsplit : Waiting.without (u ++ h :: v) [h.temp] = u ++ v := by
      rw [← hothers, without, without, List.filter_append, List.filter_append,
        List.filter_cons_of_neg (by simp)]
    rw [hsplit, work_append, work_append, ← add_left_comm, ← work_cons]
  · push Not at hheld
    rw [value_of_forall_ne hheld, without_of_forall (by simpa using hheld), Expr.work_tmp, zero_add]

/-- Bindings that are needed at most once stop waiting when their work is done. -/
theorem work_without (hnodup : (w.map Held.temp).Nodup) (hw : ∀ h ∈ w, ts.count h.temp ≤ 1) :
    (ts.map fun t => Straightline.work (w.value t).nodes).sum + (w.without ts).work = w.work := by
  induction ts generalizing w with
  | nil => simp [without]
  | cons t ts ih =>
    -- taking out what waits for `t` leaves what waits for the other uses
    have hsame : (ts.map fun u => Straightline.work (w.value u).nodes) =
        ts.map fun u => Straightline.work ((w.without [t]).value u).nodes := by
      have htwo : ∀ h ∈ w, ([t] ++ ts).count h.temp ≤ 1 := hw
      refine List.map_congr_left fun u hu => ?_
      rw [value_without_of_count_le htwo hu]
    have hrest := ih (w := w.without [t]) (hnodup.sublist (List.filter_sublist.map _)) fun h hh =>
      (List.count_le_count_cons).trans (hw h (mem_without.mp hh).1)
    rw [without_append, List.singleton_append] at hrest
    rw [List.map_cons, List.sum_cons, hsame, add_assoc, hrest, work_value hnodup]

end Waiting

/-! ## The walk -/

/-- What is still to come, waiting or not, is what the trees get. -/
theorem Walk.work (h : Walk P temps next defs defs' w ss r) :
    Straightline.work (r.1.flatMap Stmt.nodes ++ r.2.nodes) =
      Straightline.work (ss.flatMap Stmt.nodes ++ next.nodes) + w.work := by
  induction h with
  | @nil defs defs' w hp =>
    -- what waits here is used by the successor, or it would have no use
    have hnone : w.without next.uses = [] := by
      rw [List.eq_nil_iff_forall_not_mem]
      intro h hh
      obtain ⟨hw, huse⟩ := Waiting.mem_without.mp hh
      have := hp.once h hw
      rw [List.count_eq_zero.mpr huse] at this
      exact absurd this (by simp)
    have hwork := Waiting.work_without hp.nodup fun h hh => (hp.once h hh).le
    rw [hnone] at hwork
    simpa [Expr.work_subst, Waiting.work] using hwork
  | noop _ ih => exact ih
  | @hold defs defs' rest w i t e ss r hp hs _ ih =>
    obtain ⟨T, -, -, hfresh⟩ := hs
    have huses : (Stmt.assign t e).uses = e.uses := by simp [Stmt.uses, Stmt.operands]
    have hnodes : (Stmt.assign t e).nodes = e.nodes := by simp [Stmt.nodes, Stmt.operands]
    rw [huses] at hp
    -- the binding takes the place of those that move into it
    have hwait : ((w.without e.uses).hold i t (e.subst w.value)).work =
        Straightline.work e.nodes + w.work := by
      rw [hp.without.hold_eq hfresh, Waiting.work_append, Waiting.work_cons, Waiting.work_nil,
        add_zero, Expr.work_subst, ← Waiting.work_without hp.nodup hp.count_le, add_comm, add_assoc]
    rw [ih, hwait, List.flatMap_cons, List.append_assoc, hnodes, work_append _ (_ ++ _)]
    abel
  | @stay defs defs' rest w w₁ s s' ss r hp hs hw₁ hs' _ ih =>
    subst hw₁ hs'
    have hmoved : Straightline.work (s.subst w.value).nodes + (w.without s.uses).work =
        Straightline.work s.nodes + w.work := by
      rw [Stmt.work_subst, add_assoc, Waiting.work_without hp.nodup hp.count_le]
    have hsplit := Waiting.work_filter (blocks (s.subst w.value)) (w.without s.uses)
    rw [List.flatMap_append, List.flatMap_cons, List.append_assoc, List.append_assoc, work_append,
      work_append, ih, Waiting.work_emit, List.flatMap_cons, List.append_assoc, work_append s.nodes]
    calc
      _ = Straightline.work (ss.flatMap Stmt.nodes ++ next.nodes) +
          (Straightline.work s.nodes + w.work) := by
        rw [← hmoved, ← hsplit]
        abel
      _ = _ := by abel

/-- The statements that do more than assign stay, in their order. -/
theorem Walk.outlines (h : Walk P temps next defs defs' w ss r) :
    (r.1.filter Stmt.acts).map Stmt.outline = (ss.filter Stmt.acts).map Stmt.outline := by
  induction h with
  | nil _ => rfl
  | noop _ ih => exact ih
  | hold _ _ _ ih => exact ih
  | @stay defs defs' rest w w₁ s s' ss r _ _ _ hs' _ ih =>
    have hsim : s.Similar (fun e e' => e' = e.subst w.value) id s' := hs' ▸ s.similar_subst _
    have hemit : ((w₁.filter (blocks s')).map emit).filter Stmt.acts = [] := by
      rw [List.filter_eq_nil_iff]
      intro a ha
      obtain ⟨x, -, rfl⟩ := List.mem_map.mp ha
      simp [emit, Stmt.acts]
    rw [List.filter_append, hemit, List.nil_append]
    cases hacts : s.acts with
    | true =>
      rw [List.filter_cons_of_pos (hsim.acts.trans hacts), List.filter_cons_of_pos hacts,
        List.map_cons, List.map_cons, ih, hsim.outline hacts]
    | false =>
      rw [List.filter_cons_of_neg (by simp [hsim.acts, hacts]),
        List.filter_cons_of_neg (by simp [hacts]), ih]

end Nesting

open Nesting in
/-- Building trees neither loses nor copies work, whatever queue that keeps its promise bindings are
emitted through: of every well-formed block the nodes other than temporaries are all kept, as often as
they stand there. The statements that do more than assign stay in their order. A temporary that is
still defined is defined by one statement, and only later ones use it. -/
theorem built_trees_keep_work {o : Outlet} (ho : o.Ordered) {b : Block}
    (hb : b.check false = .ok ()) :
    ∃ r, b.buildTreesThrough o = .ok r ∧ r.work = b.work ∧
      (r.stmts.filter Stmt.acts).map Stmt.outline = (b.stmts.filter Stmt.acts).map Stmt.outline ∧
      ∀ i t, r.defines? i = some t → (∀ j, r.defines? j = some t → j = i) ∧
        ∀ j s, r.stmts[j]? = some s → t ∈ s.uses → i < j := by
  obtain ⟨htyped, -, -⟩ := Block.check_eq_ok_iff.mp hb
  obtain ⟨r, hr, htyped', -, -⟩ := Block.buildTrees_spec htyped
  obtain ⟨-, hbefore, honce⟩ := Block.allOk_any_iff.mp htyped'.stmts
  obtain ⟨made, hmade, hwalk⟩ := Block.buildTrees_eq htyped
  rw [hr, Except.ok.injEq] at hmade
  rw [Block.buildTreesThrough_eq ho]
  refine ⟨r, hr, ?_, ?_, ?_⟩
  · rw [Block.work, hmade, hwalk.work]
    simp [Block.work]
  · rw [hmade]
    exact hwalk.outlines
  · intro i t hi
    refine ⟨fun j hj => honce j i t hj hi, fun j s hs ht => ?_⟩
    obtain ⟨k, hlt, hk⟩ := hbefore j s t hs ht
    exact honce i k t hi hk ▸ hlt

/-- Bindings with one use, which move, and with two, which stay; one is not used at all, and loads
must not move past a store. -/
def Block.gathering : Block where
  temps := #[.i32, .i32, .i32, .i32, .i32, .i32]
  stmts := [.noop,
    .assign 0 (.get 0 .i32),
    .assign 1 (.binop (.arith .add .w32) (.tmp 0) (.const ⟨.u32, 4⟩)),
    .assign 2 (.load .i32 (.tmp 1)),
    .assign 3 (.unop (.not .w32) (.tmp 1)),
    .assign 4 (.const ⟨.u32, 4⟩),
    .assign 5 (.load .i32 (.const ⟨.u32, 8⟩)),
    .store (.const ⟨.u32, 16⟩) (.tmp 3),
    .put 0 (.tmp 2),
    .put 4 (.tmp 5)]
  next := .const ⟨.u32, 32⟩
  kind := .boring

example : Block.gathering.buildTreesThrough .backward = .ok { Block.gathering with
    stmts := [.assign 1 (.binop (.arith .add .w32) (.get 0 .i32) (.const ⟨.u32, 4⟩)),
      .assign 4 (.const ⟨.u32, 4⟩),
      .assign 2 (.load .i32 (.tmp 1)),
      .assign 5 (.load .i32 (.const ⟨.u32, 8⟩)),
      .store (.const ⟨.u32, 16⟩) (.unop (.not .w32) (.tmp 1)),
      .put 0 (.tmp 2),
      .put 4 (.tmp 5)] } := rfl

theorem built_trees_keep_work_gathering :
    Block.gathering.check false = .ok () ∧
      ∃ r, Block.gathering.buildTreesThrough .backward = .ok r ∧ r.work = Block.gathering.work ∧
        (r.stmts.filter Stmt.acts).map Stmt.outline =
          (Block.gathering.stmts.filter Stmt.acts).map Stmt.outline ∧
        ∀ i t, r.defines? i = some t → (∀ j, r.defines? j = some t → j = i) ∧
          ∀ j s, r.stmts[j]? = some s → t ∈ s.uses → i < j :=
  ⟨rfl, built_trees_keep_work Nesting.Outlet.backward_ordered rfl⟩

end Straightline
