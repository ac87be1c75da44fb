/-!
# Priority queues

A queue gives back what was put into it, first what comes before the rest. How it is kept is left
open: `PriorityQueue` is any implementation, and `PriorityQueue.Ordered` is all that is relied on. One
that keeps a sorted list is `PriorityQueue.sorted`.
-/

namespace Straightline

/-- An implementation of queues of `α` in which `less` says what comes before what. -/
structure PriorityQueue (α : Type) (less : α → α → Bool) where
  State : Type
  empty : State
  push : State → α → State
  /-- Takes one element out; there is none if the queue is empty. -/
  pop? : State → Option (α × State)

namespace PriorityQueue

variable {α : Type} {less : α → α → Bool} (Q : PriorityQueue α less)

/-- Puts elements in, first to last. -/
def pushAll (q : Q.State) (xs : List α) : Q.State := xs.foldl Q.push q

/-- Takes elements out until the queue is empty, at most `n`. -/
def popUpTo : Nat → Q.State → List α × Q.State
  | 0, q => ([], q)
  | n + 1, q =>
    match Q.pop? q with
    | none => ([], q)
    | some (x, q) =>
      let (xs, q) := popUpTo n q
      (x :: xs, q)

theorem popUpTo_of_pop? {Q : PriorityQueue α less} {q r : Q.State} {x : α}
    (h : Q.pop? q = some (x, r)) (n : Nat) :
    Q.popUpTo (n + 1) q = (x :: (Q.popUpTo n r).1, (Q.popUpTo n r).2) := by
  rw [popUpTo, h]

/-- What is put into an empty queue comes out again, all of it and once, in ascending order; then the
queue is empty. -/
structure Ordered : Prop where
  empty : Q.pop? Q.empty = none
  perm : ∀ q xs, Q.pop? q = none → (Q.popUpTo xs.length (Q.pushAll q xs)).1.Perm xs
  ascending : ∀ q xs, Q.pop? q = none →
    (Q.popUpTo xs.length (Q.pushAll q xs)).1.Pairwise fun x y => less y x = false
  emptied : ∀ q xs, Q.pop? q = none → Q.pop? (Q.popUpTo xs.length (Q.pushAll q xs)).2 = none

/-! ## Sorted lists -/

/-- The list with `x` in front of the first element that it comes before. -/
def place (less : α → α → Bool) (x : α) : List α → List α
  | [] => [x]
  | y :: ys => if less x y then x :: y :: ys else y :: place less x ys

/-- Takes the first element of a list. -/
def takeFirst : List α → Option (α × List α)
  | [] => none
  | x :: xs => some (x, xs)

/-- Keeps a sorted list. -/
def sorted (less : α → α → Bool) : PriorityQueue α less where
  State := List α
  empty := []
  push q x := place less x q
  pop? := takeFirst

theorem perm_place (x : α) (ys : List α) : (place less x ys).Perm (x :: ys) := by
  induction ys with
  | nil => exact .refl _
  | cons y ys ih =>
    rw [place]
    split
    · exact .refl _
    · exact (ih.cons y).trans (.swap x y ys)

/-- Placing keeps a list sorted, if `less` is transitive where it does not hold, and never holds both
ways. -/
theorem pairwise_place (htrans : ∀ x y z, less y x = false → less z y = false → less z x = false)
    (hasymm : ∀ x y, less x y = true → less y x = false) (x : α) {ys : List α}
    (h : ys.Pairwise fun x y => less y x = false) :
    (place less x ys).Pairwise fun x y => less y x = false := by
  induction ys with
  | nil => simp [place]
  | cons y ys ih =>
    obtain ⟨hy, hys⟩ := List.pairwise_cons.mp h
    rw [place]
    split
    · next hlt =>
      have hxy := hasymm x y hlt
      refine List.pairwise_cons.mpr ⟨fun z hz => ?_, h⟩
      rcases List.mem_cons.mp hz with rfl | hz
      · exact hxy
      · exact htrans x y z hxy (hy z hz)
    · next hlt =>
      refine List.pairwise_cons.mpr ⟨fun z hz => ?_, ih hys⟩
      rcases List.mem_cons.mp ((perm_place x ys).mem_iff.mp hz) with rfl | hz
      · exact Bool.eq_false_iff.mpr hlt
      · exact hy z hz

/-- A list is taken out as it stands. -/
theorem popUpTo_sorted (xs : List α) : (sorted less).popUpTo xs.length xs = (xs, []) := by
  induction xs with
  | nil => rfl
  | cons x xs ih =>
    have hfirst := popUpTo_of_pop? (Q := sorted less) (q := x :: xs) (r := xs) rfl xs.length
    exact hfirst.trans (congrArg (fun r => (x :: r.1, r.2)) ih)

/-- Sorted lists make a queue. -/
theorem sorted_ordered
    (htrans : ∀ x y z, less y x = false → less z y = false → less z x = false)
    (hasymm : ∀ x y, less x y = true → less y x = false) : (sorted less).Ordered := by
  have hpush (q xs : List α) (hq : q.Pairwise fun x y => less y x = false) :
      ((sorted less).pushAll q xs).Perm (xs ++ q) ∧
        List.Pairwise (fun x y => less y x = false) ((sorted less).pushAll q xs) := by
    induction xs generalizing q with
    | nil => exact ⟨.refl _, hq⟩
    | cons x xs ih =>
      obtain ⟨hperm, hsorted⟩ := ih (place less x q) (pairwise_place htrans hasymm x hq)
      exact ⟨hperm.trans (((perm_place x q).append_left xs).trans List.perm_middle), hsorted⟩
  have hdrain (q xs : List α) (hq : (sorted less).pop? q = none) :
      ∃ ys, (sorted less).popUpTo xs.length ((sorted less).pushAll q xs) = (ys, []) ∧
        ys.Perm xs ∧ ys.Pairwise fun x y => less y x = false := by
    obtain rfl : q = [] := by
      cases q with
      | nil => rfl
      | cons x q => cases hq
    obtain ⟨hperm, hsorted⟩ := hpush [] xs List.Pairwise.nil
    rw [List.append_nil] at hperm
    refine ⟨_, ?_, hperm, hsorted⟩
    rw [← hperm.length_eq]
    exact popUpTo_sorted _
  refine ⟨rfl, fun q xs hq => ?_, fun q xs hq => ?_, fun q xs hq => ?_⟩
  · obtain ⟨ys, hys, hperm, -⟩ := hdrain q xs hq
    rwa [hys]
  · obtain ⟨ys, hys, -, hsorted⟩ := hdrain q xs hq
    rwa [hys]
  · obtain ⟨ys, hys, -⟩ := hdrain q xs hq
    rw [hys]
    rfl

end PriorityQueue
end Straightline
