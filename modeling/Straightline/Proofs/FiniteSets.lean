import Mathlib
import Straightline.Proofs.BitSet

/-!
# Dense sets are finite sets

A dense set stands for the finite set of its members: `contains` is membership, `size` is the number
of members, and `visit` shows the members in ascending order until the visitor answers false.

The loop that takes the lowest one bit of a word and clears it shows a visitor the one bits of the
word, and the loop over the words the keys of the set, as one list (`visit_eq_showUntil`). That list
is the range of all keys less those that the set does not contain (`toList_eq_filter`), so which
keys a set contains decides what it stands for (`represents_of_contains`).
-/

namespace Straightline
namespace BitSet

variable {s : BitSet}

/-! ## Words

The loop over the one bits of a word takes them from the filtered range of all bits, lowest first. -/

/-- The positions of the one bits of a word, counted from `base`, in ascending order. -/
def wordKeys (base : Nat) (w : UInt64) : List Nat :=
  ((List.range 64).filter fun j => w &&& bit j != 0).map (base + ·)

theorem wordKeys_of_lowest_eq_none {base : Nat} {w : UInt64} (h : lowest? w = none) :
    wordKeys base w = [] := by
  unfold lowest? at h
  rw [List.find?_eq_none] at h
  rw [wordKeys, List.filter_eq_nil_iff.mpr h, List.map_nil]

/-- Clearing a bit leaves the others. -/
theorem clear_and_bit {w : UInt64} {j k : Nat} (hj : j < 64) (hk : k < 64) :
    (w &&& ~~~bit j &&& bit k != 0) = (w &&& bit k != 0 && k != j) := by
  rw [and_bit_ne_zero, and_bit_ne_zero, UInt64.toBitVec_and, UInt64.toBitVec_not,
    BitVec.getLsbD_and, BitVec.getLsbD_not, getLsbD_bit, Nat.mod_eq_of_lt hj, Nat.mod_eq_of_lt hk,
    decide_eq_true hk, Bool.true_and]
  rfl

/-- The first key of a word is its lowest one bit, and the others are those of the word without
it. -/
theorem wordKeys_of_lowest_eq_some {base : Nat} {w : UInt64} {j : Nat} (h : lowest? w = some j) :
    wordKeys base w = (base + j) :: wordKeys base (w &&& ~~~bit j) := by
  obtain ⟨hbit, front, back, hrange, hfront⟩ := List.find?_eq_some_iff_append.mp h
  have hsorted : (front ++ j :: back).Pairwise (· < ·) := hrange ▸ List.pairwise_lt_range
  have hlt : ∀ k ∈ front ++ j :: back, k < 64 := by
    intro k hk
    rwa [← hrange, List.mem_range] at hk
  have hj : j < 64 := hlt j (by simp)
  have hclear : ∀ k ∈ front ++ j :: back,
      (w &&& ~~~bit j &&& bit k != 0) = (w &&& bit k != 0 && k != j) :=
    fun k hk => clear_and_bit hj (hlt k hk)
  -- below the lowest one bit there is none, and above it the two words are the same
  have hbelow : front.filter (fun k => w &&& bit k != 0) = [] := by
    rw [List.filter_eq_nil_iff]
    intro k hk
    simpa using hfront k hk
  have hcleared : front.filter (fun k => w &&& bit k != 0 && k != j) = [] := by
    rw [List.filter_eq_nil_iff]
    intro k hk
    simp [show w &&& bit k = 0 by simpa using hfront k hk]
  have habove : back.filter (fun k => w &&& bit k != 0 && k != j) =
      back.filter fun k => w &&& bit k != 0 := by
    apply List.filter_congr
    intro k hk
    have hne : k ≠ j := (List.rel_of_pairwise_cons (List.pairwise_append.mp hsorted).2.1 hk).ne'
    simp [hne]
  unfold wordKeys
  rw [hrange, List.filter_congr hclear, List.filter_append, List.filter_append, hbelow, hcleared,
    List.filter_cons, if_pos hbit, List.filter_cons, if_neg (by simp), habove]
  rfl

/-! ## Visits -/

section Visit

variable {α : Type} (f : α → Nat → α × Bool)

/-- Shows keys to a visitor, first to last, until it answers false. -/
def showUntil : α → List Nat → α × Bool
  | a, [] => (a, true)
  | a, k :: ks =>
    match f a k with
    | (a, true) => showUntil a ks
    | (a, false) => (a, false)

theorem showUntil_append (a : α) (front back : List Nat) :
    showUntil f a (front ++ back) =
      match showUntil f a front with
      | (a, true) => showUntil f a back
      | (a, false) => (a, false) := by
  induction front generalizing a with
  | nil => rfl
  | cons k front ih =>
    rw [List.cons_append, showUntil, showUntil]
    rcases f a k with ⟨a', _ | _⟩
    · rfl
    · exact ih a'

/-- The loop over a word shows its one bits. -/
theorem visitWord_eq_showUntil (base : Nat) (w : UInt64) (a : α) :
    visitWord f base w a = showUntil f a (wordKeys base w) := by
  induction hn : w.toNat using Nat.strong_induction_on generalizing w a with
  | _ n ih =>
    rw [visitWord.eq_def]
    split
    · rename_i hnone
      rw [wordKeys_of_lowest_eq_none hnone, showUntil]
    · rename_i j hj
      rw [wordKeys_of_lowest_eq_some hj, showUntil]
      rcases f a (base + j) with ⟨a', _ | _⟩
      · rfl
      · exact ih _ (hn ▸ clear_lowest_lt hj) _ a' rfl

/-- The keys of words, the first of which has index `i`. -/
def keysFrom : Nat → List UInt64 → List Nat
  | _, [] => []
  | i, w :: ws => wordKeys (i * 64) w ++ keysFrom (i + 1) ws

theorem visitWords_eq_showUntil (i : Nat) (ws : List UInt64) (a : α) :
    visitWords f i ws a = (showUntil f a (keysFrom i ws)).1 := by
  induction ws generalizing i a with
  | nil => rfl
  | cons w ws ih =>
    rw [visitWords, keysFrom, showUntil_append, visitWord_eq_showUntil]
    rcases showUntil f a (wordKeys (i * 64) w) with ⟨a', _ | _⟩
    · rfl
    · exact ih (i + 1) a'

/-- A visitor that gathers keys and always goes on is shown them all. -/
theorem showUntil_gather (seen keys : List Nat) :
    showUntil (fun keys k => (k :: keys, true)) seen keys = (keys.reverse ++ seen, true) := by
  induction keys generalizing seen with
  | nil => rfl
  | cons k keys ih =>
    rw [List.reverse_cons, List.append_assoc]
    exact ih (k :: seen)

theorem toList_eq_keysFrom : s.toList = keysFrom 0 s.words.toList := by
  rw [toList, visit, visitWords_eq_showUntil, showUntil_gather, List.append_nil,
    List.reverse_reverse]

/-- A visitor is shown the members, until it answers false. -/
theorem visit_eq_showUntil (a : α) : s.visit f a = (showUntil f a s.toList).1 := by
  rw [visit, visitWords_eq_showUntil, toList_eq_keysFrom]

/-- What a visitor has gathered after it was shown some keys. -/
def gathered (a : α) (shown : List Nat) : α := shown.foldl (fun a k => (f a k).1) a

/-- Of `keys` a visitor is shown `shown`, in order: it answers true to all but the last, and if it
does not come to the end of the keys, false to the last. -/
structure Tour (a : α) (keys shown : List Nat) : Prop where
  initial : shown <+: keys
  accepted : ∀ front k back, shown = front ++ k :: back → back ≠ [] →
    (f (gathered f a front) k).2 = true
  finished : shown = keys ∨
    ∃ front k, shown = front ++ [k] ∧ (f (gathered f a front) k).2 = false

variable {f}

theorem Tour.nil (a : α) : Tour f a [] [] :=
  ⟨List.prefix_refl _, fun _ _ _ h => by simp at h, .inl rfl⟩

/-- A visitor that answers false sees no further key. -/
theorem Tour.stop {a : α} {k : Nat} (h : (f a k).2 = false) (keys : List Nat) :
    Tour f a (k :: keys) [k] := by
  refine ⟨⟨keys, rfl⟩, ?_, .inr ⟨[], k, rfl, h⟩⟩
  intro front k' back heq hback
  have hlen := congrArg List.length heq
  simp only [List.length_append, List.length_cons, List.length_nil] at hlen
  exact absurd (List.eq_nil_of_length_eq_zero (by omega)) hback

/-- A visitor that answers true goes on. -/
theorem Tour.cons {a : α} {k : Nat} {keys shown : List Nat} (h : (f a k).2 = true)
    (hrest : Tour f (f a k).1 keys shown) : Tour f a (k :: keys) (k :: shown) := by
  refine ⟨(List.prefix_cons_inj k).mpr hrest.initial, ?_, ?_⟩
  · intro front k' back heq hback
    cases front with
    | nil =>
      obtain ⟨rfl, -⟩ := List.cons.inj heq
      exact h
    | cons k'' front =>
      obtain ⟨rfl, hshown⟩ := List.cons.inj heq
      exact hrest.accepted front k' back hshown hback
  · rcases hrest.finished with heq | ⟨front, k', heq, hfalse⟩
    · exact .inl (by rw [heq])
    · exact .inr ⟨k :: front, k', by rw [heq, List.cons_append], hfalse⟩

theorem showUntil_spec (a : α) (keys : List Nat) :
    ∃ shown, Tour f a keys shown ∧ (showUntil f a keys).1 = gathered f a shown := by
  induction keys generalizing a with
  | nil => exact ⟨[], .nil a, rfl⟩
  | cons k keys ih =>
    rw [showUntil]
    rcases hf : f a k with ⟨a', ok⟩
    cases ok with
    | false => exact ⟨[k], .stop (by rw [hf]) keys, by simp [gathered, hf]⟩
    | true =>
      obtain ⟨shown, htour, hshow⟩ := ih a'
      refine ⟨k :: shown, .cons (by rw [hf]) (by rw [hf]; exact htour), ?_⟩
      rw [gathered, List.foldl_cons, hf]
      exact hshow

end Visit

/-! ## Enumeration -/

theorem wordKeys_eq_filter (i : Nat) :
    wordKeys (i * 64) (s.word i) =
      (List.range' (64 * i) 64).filter fun k => s.contains (k : Nat) := by
  rw [wordKeys, List.range'_eq_map_range, List.filter_map, Nat.mul_comm]
  congr 1
  apply List.filter_congr
  intro j hj
  rw [List.mem_range] at hj
  rw [Function.comp_apply, contains_natCast, and_bit_ne_zero,
    show (64 * i + j) / 64 = i by omega, show (64 * i + j) % 64 = j % 64 by omega]

theorem keysFrom_eq_filter (i : Nat) (ws : List UInt64)
    (h : ∀ n, ws[n]?.getD 0 = s.word (i + n)) :
    keysFrom i ws = (List.range' (64 * i) (64 * ws.length)).filter fun k => s.contains (k : Nat) := by
  induction ws generalizing i with
  | nil => rfl
  | cons w ws ih =>
    have hw : w = s.word i := h 0
    have hws : ∀ n, ws[n]?.getD 0 = s.word (i + 1 + n) := by
      intro n
      rw [Nat.add_assoc, Nat.add_comm 1 n]
      exact h (n + 1)
    rw [keysFrom, ih (i + 1) hws, hw, wordKeys_eq_filter, ← List.filter_append, List.length_cons,
      Nat.mul_succ, Nat.mul_succ, Nat.add_comm (64 * ws.length), List.range'_append_1]

/-- The members are the keys of a range that the set contains. -/
theorem toList_eq_filter :
    s.toList = (List.range (64 * s.words.size)).filter fun k => s.contains (k : Nat) := by
  have hwords : ∀ n, s.words.toList[n]?.getD 0 = s.word (0 + n) := by
    intro n
    rw [Nat.zero_add, word, Array.getElem?_toList]
  rw [toList_eq_keysFrom, keysFrom_eq_filter 0 _ hwords, Array.length_toList, List.range_eq_range']

theorem mem_toList {k : Nat} : k ∈ s.toList ↔ s.contains k = true := by
  rw [toList_eq_filter, List.mem_filter, List.mem_range]
  refine ⟨And.right, fun hk => ⟨?_, hk⟩⟩
  -- a word that the set does not have contains no key
  by_contra hge
  have hword : s.word (k / 64) = 0 := by
    unfold word
    rw [Array.getElem?_eq_none (by omega)]
    rfl
  rw [contains_natCast, hword] at hk
  simp at hk

theorem pairwise_toList : s.toList.Pairwise (· < ·) := by
  rw [toList_eq_filter]
  exact List.pairwise_lt_range.filter _

/-! ## Size -/

theorem popCount_eq_length (base : Nat) (w : UInt64) : popCount w = (wordKeys base w).length := by
  unfold popCount wordKeys
  split
  · rename_i hzero
    simp [hzero]
  · rw [List.length_map, List.countP_eq_length_filter]

theorem foldl_popCount (i : Nat) (ws : List UInt64) (n : Nat) :
    ws.foldl (fun n w => n + popCount w) n = n + (keysFrom i ws).length := by
  induction ws generalizing i n with
  | nil => rfl
  | cons w ws ih =>
    rw [List.foldl_cons, ih (i + 1), keysFrom, List.length_append, popCount_eq_length (i * 64)]
    omega

/-- The size is the number of members. -/
theorem size_eq_length : s.size = s.toList.length := by
  rw [size, ← Array.foldl_toList, foldl_popCount 0, toList_eq_keysFrom, Nat.zero_add]

/-! ## Representation -/

/-- The dense set answers as the finite set does: no negative key is a member, the size is the
number of members, and a visitor is shown the members in ascending order. -/
structure Represents (s : BitSet) (M : Finset Nat) : Prop where
  contains : ∀ k : Int, s.contains k = true ↔ ∃ n ∈ M, k = (n : Nat)
  size : s.size = M.card
  visit : ∀ {α : Type} (f : α → Nat → α × Bool) (a : α),
    ∃ shown, Tour f a M.sort shown ∧ s.visit f a = gathered f a shown

/-- What a dense set contains decides which finite set it stands for. -/
theorem represents_of_contains {M : Finset Nat} (h : ∀ k : Nat, s.contains k = true ↔ k ∈ M) :
    s.Represents M := by
  have hnodup : s.toList.Nodup := pairwise_toList.imp ne_of_lt
  have hM : M = s.toList.toFinset := by
    ext k
    rw [List.mem_toFinset, mem_toList, h]
  have hsort : M.sort = s.toList := by
    rw [hM]
    exact (List.toFinset_sort _ hnodup).mpr (pairwise_toList.imp le_of_lt)
  refine ⟨fun k => ?_, ?_, fun f a => ?_⟩
  · cases k with
    | ofNat k => simp [h]
    | negSucc k =>
      rw [contains_of_neg (Int.negSucc_lt_zero k)]
      simp
  · rw [size_eq_length, hM, List.toFinset_card_of_nodup hnodup]
  · rw [hsort, visit_eq_showUntil]
    exact showUntil_spec a s.toList

theorem Represents.mem {M : Finset Nat} (h : s.Represents M) (k : Nat) :
    s.contains k = true ↔ k ∈ M := by
  rw [h.contains]
  simp

end BitSet

end Straightline
