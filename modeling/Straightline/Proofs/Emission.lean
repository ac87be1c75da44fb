import Mathlib
import Straightline.Pass.Nesting
import Straightline.Proofs.Evaluation
import Straightline.Proofs.Similar

/-!
# Bindings are emitted in their order

What must not move past a statement goes through a priority queue, which is filled in any order. The
waiting bindings stand in the order of the statements that they came from (`Waiting.Lined`), so what
comes out of a queue that keeps its promise is what was to be emitted, in that order
(`flush_eq`), and trees do not depend on the queue (`Block.buildTreesThrough_eq`).
-/

namespace Straightline
namespace Nesting

variable {o : Outlet} {w : Waiting} {i j : Nat} {s : Stmt} {ss : List Stmt} {e next : Expr}
  {t : Temp}

/-- The queue keeps its promise, and all that has to be emitted is put into it, once. -/
structure Outlet.Ordered (o : Outlet) : Prop where
  queue : o.queue.Ordered
  order : ∀ i w, (o.order i w).Perm w

theorem Outlet.sorted_ordered : Outlet.sorted.Ordered := by
  refine ⟨PriorityQueue.sorted_ordered ?_ ?_, fun _ w => .refl w⟩
  · intro f g h
    simp only [Held.earlier, decide_eq_false_iff_not]
    omega
  · intro f g
    simp only [Held.earlier, decide_eq_false_iff_not, decide_eq_true_eq]
    omega

/-! ## Moving bindings in takes some out -/

theorem moveIn_of_isAtom_eq_false (hatom : e.isAtom = false) (w : Waiting) :
    moveIn w e = (e.withChildren (moveInAll w e.children).1, (moveInAll w e.children).2) := by
  cases e <;> simp_all [moveIn, moveInAll, Expr.withChildren, Expr.children, Expr.isAtom]

theorem mapM_moveIn (es : List Expr) (w : Waiting) :
    (es.mapM (m := StateM Waiting) fun e w => moveIn w e) w = moveInAll w es := by
  induction es generalizing w with
  | nil => rfl
  | cons e es ih =>
    rw [List.mapM_cons]
    simp only [bind, StateT.bind, pure, StateT.pure, moveInAll]
    rw [ih]

theorem moveInAll_sublist (es : List Expr) (h : ∀ e ∈ es, ∀ w, (moveIn w e).2.Sublist w)
    (w : Waiting) : (moveInAll w es).2.Sublist w := by
  induction es generalizing w with
  | nil => exact .refl w
  | cons e es ih =>
    rw [List.forall_mem_cons] at h
    exact (ih h.2 _).trans (h.1 w)

theorem moveIn_sublist (e : Expr) (w : Waiting) : (moveIn w e).2.Sublist w := by
  induction e using Expr.childInduct generalizing w with
  | h e ih =>
    cases hatom : e.isAtom with
    | true =>
      cases e with
      | tmp t =>
        rw [moveIn, Waiting.take]
        cases w.find? (·.temp = t) with
        | none => exact .refl w
        | some h => exact List.filter_sublist
      | const c => exact .refl w
      | _ => simp [Expr.isAtom] at hatom
    | false =>
      rw [moveIn_of_isAtom_eq_false hatom]
      exact moveInAll_sublist e.children ih w

theorem moveInStmt_sublist (s : Stmt) (w : Waiting) : (moveInStmt w s).2.Sublist w := by
  have h := moveInAll_sublist s.operands (fun e _ => moveIn_sublist e) w
  rw [← mapM_moveIn] at h
  rw [moveInStmt, Stmt.mapOperandsM_eq]
  exact h

/-! ## The order of the waiting bindings -/

/-- The bindings came from different statements with numbers below `i`, in this order, and are of
different temporaries. -/
structure Waiting.Lined (w : Waiting) (i : Nat) : Prop where
  ascending : w.Pairwise fun g h => g.pos < h.pos
  nodup : (w.map Held.temp).Nodup
  before : ∀ h ∈ w, h.pos < i

namespace Waiting

theorem lined_nil (i : Nat) : Lined [] i := ⟨.nil, List.nodup_nil, by simp⟩

theorem Lined.sublist {v : Waiting} (h : w.Lined i) (hv : v.Sublist w) (hij : i ≤ j) :
    v.Lined j :=
  ⟨h.ascending.sublist hv, h.nodup.sublist (hv.map _),
    fun x hx => (h.before x (hv.subset hx)).trans_le hij⟩

theorem Lined.filter (h : w.Lined i) (p : Held → Bool) (hij : i ≤ j) : Lined (w.filter p) j :=
  h.sublist List.filter_sublist hij

/-- One statement has one binding. -/
theorem Lined.eq_of_pos {g h : Held} (hw : w.Lined i) (hg : g ∈ w) (hh : h ∈ w)
    (heq : g.pos = h.pos) : g = h := by
  have hnodup : (w.map Held.pos).Nodup := by
    rw [List.Nodup, List.pairwise_map]
    exact hw.ascending.imp ne_of_lt
  exact List.inj_on_of_nodup_map hnodup hg hh heq

theorem mem_erase {h : Held} : h ∈ w.erase t ↔ h ∈ w ∧ h.temp ≠ t := by
  simp [erase]

/-- The latest binding goes to the end. -/
theorem Lined.hold (h : w.Lined i) (t : Temp) (e : Expr) : (w.hold i t e).Lined (i + 1) := by
  have hrest : (w.erase t).Lined i := h.filter _ (le_refl i)
  refine ⟨?_, ?_, ?_⟩
  · rw [Waiting.hold, List.pairwise_append]
    refine ⟨hrest.ascending, List.pairwise_singleton _ _, fun x hx y hy => ?_⟩
    obtain rfl := List.mem_singleton.mp hy
    exact hrest.before x hx
  · rw [Waiting.hold, List.map_append, List.nodup_append]
    refine ⟨hrest.nodup, by simp, ?_⟩
    rintro u hu v hv
    obtain ⟨x, hx, rfl⟩ := List.mem_map.mp hu
    obtain rfl : v = t := by simpa using hv
    exact (mem_erase.mp hx).2
  · intro x hx
    rcases List.mem_append.mp hx with hx | hx
    · exact (hrest.before x hx).trans i.lt_succ_self
    · obtain rfl := List.mem_singleton.mp hx
      exact i.lt_succ_self

theorem foldl_erase (due : List Held) (w : Waiting) :
    due.foldl (fun w h => w.erase h.temp) w = w.filter fun x => x.temp ∉ due.map Held.temp := by
  induction due generalizing w with
  | nil => simp
  | cons h due ih =>
    rw [List.foldl_cons, ih, erase, List.filter_filter]
    congr 1
    funext x
    simp [Bool.and_comm]

/-- Erasing some of the bindings, by their temporaries, leaves the others. -/
theorem Lined.foldl_erase_filter (h : w.Lined i) (p : Held → Bool) :
    (w.filter p).foldl (fun w h => w.erase h.temp) w = w.filter fun x => !p x := by
  rw [foldl_erase]
  refine List.filter_congr fun x hx => ?_
  have hiff : x.temp ∈ (w.filter p).map Held.temp ↔ p x = true := by
    constructor
    · intro hmem
      obtain ⟨y, hy, htemp⟩ := List.mem_map.mp hmem
      obtain ⟨hyw, hpy⟩ := List.mem_filter.mp hy
      exact List.inj_on_of_nodup_map h.nodup hyw hx htemp ▸ hpy
    · exact fun hp => List.mem_map_of_mem (List.mem_filter.mpr ⟨hx, hp⟩)
  simp [hiff]

end Waiting

/-! ## Emission -/

/-- What must not move past a statement is emitted in its order, and the rest waits on. -/
theorem flush_eq (ho : o.Ordered) (hw : w.Lined j) {q : o.queue.State}
    (hq : o.queue.pop? q = none) (i : Nat) (s : Stmt) :
    ∃ r, o.queue.pop? r = none ∧
      flush o i s w q = (w.filter (blocks s), w.filter fun x => !blocks s x, r) := by
  let due := o.order i (w.filter (blocks s))
  have hperm := (ho.queue.perm q due hq).trans (ho.order i (w.filter (blocks s)))
  have hdue : (o.queue.popUpTo due.length (o.queue.pushAll q due)).1 = w.filter (blocks s) := by
    refine hperm.eq_of_pairwise (fun g h hg hh hle hge => ?_) (ho.queue.ascending q _ hq)
      ((hw.ascending.filter _).imp fun hlt => ?_)
    · -- of two bindings neither of which is earlier there is only one
      refine hw.eq_of_pos (List.mem_of_mem_filter (hperm.mem_iff.mp hg))
        (List.mem_of_mem_filter hh) ?_
      simp only [Held.earlier, decide_eq_false_iff_not] at hle hge
      omega
    · simp only [Held.earlier, decide_eq_false_iff_not]
      omega
  refine ⟨_, ho.queue.emptied q due hq, ?_⟩
  rw [← hw.foldl_erase_filter, ← hdue]
  rfl

/-! ## Steps of the walk -/

/-- The binding that a statement leaves waiting. -/
def waiting? (uses : List Temp) : Stmt → Option (Temp × Expr)
  | .assign dst src => if uses.count dst = 1 then some (dst, src) else none
  | _ => none

theorem waiting?_eq_some {uses : List Temp} (h : waiting? uses s = some (t, e)) :
    s = .assign t e ∧ uses.count t = 1 := by
  cases s with
  | assign dst src =>
    simp only [waiting?, Option.ite_none_right_eq_some, Option.some.injEq, Prod.mk.injEq] at h
    obtain ⟨hone, rfl, rfl⟩ := h
    exact ⟨rfl, hone⟩
  | _ => simp [waiting?] at h

theorem build_of_waiting {uses : List Temp} (h : waiting? uses s = some (t, e))
    (q : o.queue.State) :
    build o uses next i w q (s :: ss) =
      build o uses next (i + 1) ((moveIn w e).2.hold i t (moveIn w e).1) q ss := by
  obtain ⟨rfl, hone⟩ := waiting?_eq_some h
  simp only [build, hone, if_true]

/-- A statement that stays comes behind the bindings that must not move past it. -/
theorem build_of_waiting_eq_none {uses : List Temp} (ho : o.Ordered) (hw : w.Lined i)
    {q : o.queue.State} (hq : o.queue.pop? q = none) (hnoop : s ≠ .noop)
    (h : waiting? uses s = none) (next : Expr) (ss : List Stmt) :
    ∃ r, o.queue.pop? r = none ∧ build o uses next i w q (s :: ss) =
      ((((moveInStmt w s).2.filter (blocks (moveInStmt w s).1)).map emit ++
        (moveInStmt w s).1 :: (build o uses next (i + 1) ((moveInStmt w s).2.filter
          fun x => !blocks (moveInStmt w s).1 x) r ss).1),
        (build o uses next (i + 1) ((moveInStmt w s).2.filter
          fun x => !blocks (moveInStmt w s).1 x) r ss).2) := by
  have hmoved := hw.sublist (moveInStmt_sublist s w) (le_refl i)
  obtain ⟨r, hr, hflush⟩ := flush_eq ho hmoved hq i (moveInStmt w s).1
  refine ⟨r, hr, ?_⟩
  cases s with
  | noop => exact absurd rfl hnoop
  | assign dst src =>
    have hcount : uses.count dst ≠ 1 := by
      intro hone
      simp [waiting?, hone] at h
    simp only [build, hcount, if_false, hflush]
  | _ => simp only [build, hflush]

/-- Trees do not depend on the queue. -/
theorem build_congr {p : Outlet} (ho : o.Ordered) (hp : p.Ordered) (uses : List Temp)
    (hw : w.Lined i) {q : o.queue.State} {r : p.queue.State} (hq : o.queue.pop? q = none)
    (hr : p.queue.pop? r = none) (next : Expr) (ss : List Stmt) :
    build o uses next i w q ss = build p uses next i w r ss := by
  induction ss generalizing i w q r with
  | nil => rfl
  | cons s ss ih =>
    by_cases hnoop : s = .noop
    · subst hnoop
      exact ih (hw.sublist (.refl w) i.le_succ) hq hr
    · cases hwait : waiting? uses s with
      | some te =>
        obtain ⟨t, e⟩ := te
        rw [build_of_waiting hwait, build_of_waiting hwait]
        exact ih ((hw.sublist (moveIn_sublist e w) (le_refl i)).hold t _) hq hr
      | none =>
        obtain ⟨q', hq', hstay⟩ := build_of_waiting_eq_none ho hw hq hnoop hwait next ss
        obtain ⟨r', hr', hstay'⟩ := build_of_waiting_eq_none hp hw hr hnoop hwait next ss
        have hmoved := hw.sublist (moveInStmt_sublist s w) (le_refl i)
        rw [hstay, hstay', ih (hmoved.filter _ i.le_succ) hq' hr']

end Nesting

open Nesting in
/-- Whatever queue bindings are emitted through, if it keeps its promise the trees are the same. -/
theorem Block.buildTreesThrough_eq {o : Outlet} (ho : o.Ordered) (b : Block) :
    b.buildTreesThrough o = b.buildTrees := by
  have hbuild (uses : List Temp) := build_congr ho Outlet.sorted_ordered uses
    (Waiting.lined_nil 0) ho.queue.empty Outlet.sorted_ordered.queue.empty b.next b.stmts
  simp only [buildTrees, buildTreesThrough, hbuild]

end Straightline
