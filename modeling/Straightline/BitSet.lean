/-!
# Dense sets of small numbers

A set of natural numbers as an array of 64-bit words, one bit per member. A set has no words at
first; the first write gives it two, and later writes as many as they need.

Keys are signed, so a caller can ask for a negative one. No set holds it. Inserting it is refused,
and so is erasing it, except that on a set without words a key that would fall into the first word
is passed over. A refusal returns the set as it was left: a refused insertion has made room.
-/

namespace Straightline

/-- A set of natural numbers. -/
structure BitSet where
  words : Array UInt64
deriving Inhabited

namespace BitSet

/-- The set that has no words yet. -/
def empty : BitSet := ⟨#[]⟩

/-- Room for the word with index `i`; a set without words gets at least two. -/
def reserve (s : BitSet) (i : Nat) : BitSet :=
  let want := max (i + 1) (if s.words.isEmpty then 2 else 0)
  ⟨s.words ++ Array.replicate (want - s.words.size) 0⟩

/-- The empty set with room for the keys below `n`. -/
def ofCapacity (n : Int) : BitSet := ⟨.replicate (max 2 ((n.toNat + 63) / 64)) 0⟩

/-- The bit of key `k` within its word. -/
def bit (k : Nat) : UInt64 := 1 <<< UInt64.ofNat (k % 64)

/-- Whether `k` is a member. -/
def contains (s : BitSet) (k : Int) : Bool :=
  match k with
  | .ofNat k => s.words[k / 64]?.getD 0 &&& bit k != 0
  | .negSucc _ => false

/-- Adds `k`; refuses a negative key. -/
def insert (s : BitSet) (k : Int) : Except BitSet BitSet :=
  match k with
  | .ofNat k => .ok ⟨(s.reserve (k / 64)).words.modify (k / 64) (· ||| bit k)⟩
  | .negSucc _ => .error (s.reserve 0)

/-- Removes `k`; refuses a negative key, unless the set has no words and `-64 < k`. -/
def erase (s : BitSet) (k : Int) : Except BitSet BitSet :=
  match k with
  | .ofNat k => .ok ⟨s.words.modify (k / 64) (· &&& ~~~bit k)⟩
  | .negSucc k => if s.words.isEmpty ∧ k < 63 then .ok s else .error s

/-- The members of either set. -/
def union (s t : BitSet) : BitSet :=
  ⟨(s.reserve (t.words.size - 1)).words.mapIdx fun i w => w ||| t.words[i]?.getD 0⟩

/-- A set of the same members that has words. -/
def copy (s : BitSet) : BitSet := s.reserve 0

/-- No members, and the words that there were. -/
def clear (s : BitSet) : BitSet := ⟨s.words.map fun _ => 0⟩

/-- The number of one bits of a word. -/
def popCount (w : UInt64) : Nat :=
  if w = 0 then 0 else (List.range 64).countP fun j => w &&& bit j != 0

/-- The number of members. -/
def size (s : BitSet) : Nat := s.words.foldl (fun n w => n + popCount w) 0

/-- The lowest one bit of a word; the zero word has none. -/
def lowest? (w : UInt64) : Option Nat := (List.range 64).find? fun j => w &&& bit j != 0

/-- Without its lowest one bit a word is smaller. -/
theorem clear_lowest_lt {w : UInt64} {j : Nat} (h : lowest? w = some j) :
    (w &&& ~~~bit j).toNat < w.toNat := by
  have hbit : w &&& bit j ≠ 0 := by simpa using List.find?_some h
  have hle : (w &&& ~~~bit j).toNat ≤ w.toNat := by
    rw [UInt64.toNat_and]
    exact Nat.and_le_left
  refine Nat.lt_of_le_of_ne hle fun heq => hbit ?_
  -- a word that stays as it is does not have the bit
  rw [← UInt64.toNat_inj.mp heq, UInt64.and_assoc, UInt64.not_and_self, UInt64.and_zero]

section Visit

variable {α : Type} (f : α → Nat → α × Bool)

/-- Shows the one bits of a word to a visitor, counted from `base`, and clears each before the next,
until the visitor answers false: `f` takes what the visitor has gathered and a key, and gives what
it has gathered then and whether to go on. -/
def visitWord (base : Nat) (w : UInt64) (a : α) : α × Bool :=
  match _ : lowest? w with
  | none => (a, true)
  | some j =>
    match f a (base + j) with
    | (a, true) => visitWord base (w &&& ~~~bit j) a
    | (a, false) => (a, false)
termination_by w.toNat
decreasing_by exact clear_lowest_lt ‹_›

/-- Shows the one bits of words to a visitor, the first word having index `i`, until the visitor
answers false. -/
def visitWords : Nat → List UInt64 → α → α
  | _, [], a => a
  | i, w :: ws, a =>
    match visitWord f (i * 64) w a with
    | (a, true) => visitWords (i + 1) ws a
    | (a, false) => a

end Visit

/-- Shows the members to a visitor, in ascending order, until it answers false. -/
def visit {α : Type} (s : BitSet) (f : α → Nat → α × Bool) (a : α) : α :=
  visitWords f 0 s.words.toList a

/-- The members, in ascending order. -/
def toList (s : BitSet) : List Nat := (s.visit (fun keys k => (k :: keys, true)) []).reverse

end BitSet
end Straightline
