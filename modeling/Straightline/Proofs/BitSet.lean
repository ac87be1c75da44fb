import Mathlib
import Straightline.BitSet

/-!
# Members of dense sets

Membership is a bit of a word, and words that a set does not have count as zero. Making room changes
no member; inserting a key adds that key and no other, and the other operations change the members
as their names say. Each is one lemma about `contains`, from one about the words.
-/

namespace Straightline
namespace BitSet

variable {s s' : BitSet}

/-! ## Bits of words -/

theorem getLsbD_bit (k i : Nat) : (bit k).toBitVec.getLsbD i = decide (i = k % 64) := by
  have hk : k % 64 < 64 := Nat.mod_lt k (by decide)
  have hword : (bit k).toBitVec = BitVec.twoPow 64 (k % 64) := by
    rw [← BitVec.toNat_inj, BitVec.toNat_twoPow]
    show (bit k).toNat = _
    unfold bit
    rw [UInt64.toNat_shiftLeft, UInt64.toNat_one, UInt64.toNat_ofNat', Nat.shiftLeft_eq, one_mul]
    congr 2
    omega
  rw [hword, BitVec.getLsbD_twoPow]
  simp [hk, eq_comm]

/-- A word has the bit of a key. -/
theorem and_bit_ne_zero (w : UInt64) (k : Nat) :
    (w &&& bit k != 0) = w.toBitVec.getLsbD (k % 64) := by
  have hk : k % 64 < 64 := Nat.mod_lt k (by decide)
  cases hbit : w.toBitVec.getLsbD (k % 64) with
  | true =>
    rw [bne_iff_ne]
    intro hzero
    have h := congrArg (fun x : UInt64 => x.toBitVec.getLsbD (k % 64)) hzero
    simp [getLsbD_bit, hbit] at h
  | false =>
    rw [bne_eq_false_iff_eq, ← UInt64.toBitVec_inj]
    apply BitVec.eq_of_getLsbD_eq
    intro i hi
    rw [UInt64.toBitVec_and, BitVec.getLsbD_and, getLsbD_bit]
    by_cases h : i = k % 64
    · simp [h, hbit]
    · simp [h]

/-! ## Words of sets -/

/-- The word with index `i`, zero if there is none. -/
def word (s : BitSet) (i : Nat) : UInt64 := s.words[i]?.getD 0

theorem contains_natCast (k : Nat) : s.contains k = (s.word (k / 64)).toBitVec.getLsbD (k % 64) :=
  and_bit_ne_zero _ _

theorem contains_of_neg {k : Int} (hk : k < 0) : s.contains k = false := by
  obtain ⟨n, rfl⟩ := Int.eq_negSucc_of_lt_zero hk
  rfl

theorem word_reserve (i j : Nat) : (s.reserve i).word j = s.word j := by
  unfold reserve word
  rw [Array.getElem?_append]
  split
  · rfl
  · rename_i hj
    rw [Array.getElem?_eq_none (by omega : s.words.size ≤ j), Array.getElem?_replicate]
    -- the new words are zero, like the ones that a set does not have
    split_ifs <;> rfl

theorem lt_size_reserve (i : Nat) : i < (s.reserve i).words.size := by
  unfold reserve
  rw [Array.size_append, Array.size_replicate]
  omega

theorem contains_ofCapacity (n k : Int) : (ofCapacity n).contains k = false := by
  cases k with
  | negSucc k => rfl
  | ofNat k =>
    have hword : (ofCapacity n).word (k / 64) = 0 := by
      unfold ofCapacity word
      rw [Array.getElem?_replicate]
      split_ifs <;> rfl
    rw [Int.ofNat_eq_natCast, contains_natCast, hword]
    simp

/-! ## Insertion -/

/-- Inserting a key adds that key and no other. -/
theorem contains_insert {k : Int} (h : s.insert k = .ok s') (j : Int) :
    s'.contains j = (decide (j = k) || s.contains j) := by
  cases k with
  | negSucc k => simp [insert] at h
  | ofNat k =>
    rw [insert, Except.ok.injEq] at h
    cases j with
    | negSucc j => simp [contains]
    | ofNat j =>
      -- only the word of `k` changes, by one bit
      have hword : s'.word (j / 64) =
          if k / 64 = j / 64 then s.word (j / 64) ||| bit k else s.word (j / 64) := by
        rw [← h, ← word_reserve (s := s) (k / 64)]
        unfold word
        rw [Array.getElem?_modify]
        split
        · rename_i heq
          have hlt := lt_size_reserve (s := s) (k / 64)
          rw [heq] at hlt ⊢
          rw [Array.getElem?_eq_getElem hlt]
          rfl
        · rfl
      have hbit := getLsbD_bit k (j % 64)
      rw [Int.ofNat_eq_natCast, Int.ofNat_eq_natCast, contains_natCast, contains_natCast, hword]
      by_cases heq : k / 64 = j / 64
      · rw [if_pos heq, UInt64.toBitVec_or, BitVec.getLsbD_or, hbit, Bool.or_comm]
        congr 1
        rw [decide_eq_decide]
        omega
      · rw [if_neg heq]
        have hne : ¬((j : Int) = k) := by
          intro hjk
          rw [Int.natCast_inj] at hjk
          exact heq (by rw [hjk])
        simp [hne]

/-- A key that is no negative number can be inserted. -/
theorem exists_insert (s : BitSet) {k : Int} (hk : 0 ≤ k) : ∃ s', s.insert k = .ok s' := by
  obtain ⟨n, rfl⟩ := Int.eq_ofNat_of_zero_le hk
  exact ⟨_, rfl⟩

/-! ## Other operations -/

theorem contains_empty (k : Int) : empty.contains k = false := by
  cases k with
  | negSucc k => rfl
  | ofNat k =>
    have hword : empty.word (k / 64) = 0 := rfl
    rw [Int.ofNat_eq_natCast, contains_natCast, hword]
    simp

theorem contains_copy (k : Int) : s.copy.contains k = s.contains k := by
  cases k with
  | negSucc k => rfl
  | ofNat k =>
    rw [Int.ofNat_eq_natCast, contains_natCast, contains_natCast, copy, word_reserve]

theorem contains_clear (k : Int) : s.clear.contains k = false := by
  cases k with
  | negSucc k => rfl
  | ofNat k =>
    have hword : s.clear.word (k / 64) = 0 := by
      unfold clear word
      rw [Array.getElem?_map]
      cases s.words[k / 64]? <;> rfl
    rw [Int.ofNat_eq_natCast, contains_natCast, hword]
    simp

/-- Erasing a key removes that key and no other. -/
theorem contains_erase {k : Nat} (h : s.erase k = .ok s') (j : Int) :
    s'.contains j = (!decide (j = k) && s.contains j) := by
  cases j with
  | negSucc j => simp [contains]
  | ofNat j =>
    rw [← Int.ofNat_eq_natCast, erase, Except.ok.injEq] at h
    have hword : s'.word (j / 64) =
        if k / 64 = j / 64 then s.word (j / 64) &&& ~~~bit k else s.word (j / 64) := by
      rw [← h]
      unfold word
      rw [Array.getElem?_modify]
      split
      · -- a word that the set does not have stays zero
        cases s.words[j / 64]? <;> simp
      · rfl
    rw [Int.ofNat_eq_natCast, contains_natCast, contains_natCast, hword]
    by_cases heq : k / 64 = j / 64
    · have hlt : j % 64 < 64 := Nat.mod_lt j (by decide)
      rw [if_pos heq, UInt64.toBitVec_and, UInt64.toBitVec_not, BitVec.getLsbD_and,
        BitVec.getLsbD_not, getLsbD_bit, Bool.and_comm, decide_eq_true hlt, Bool.true_and]
      congr 2
      rw [decide_eq_decide]
      omega
    · rw [if_neg heq]
      have hne : ¬((j : Int) = k) := by
        intro hjk
        rw [Int.natCast_inj] at hjk
        exact heq (by rw [hjk])
      simp [hne]

theorem word_union (s t : BitSet) (i : Nat) : (s.union t).word i = s.word i ||| t.word i := by
  rw [← word_reserve (s := s) (t.words.size - 1)]
  unfold union word
  rw [Array.getElem?_mapIdx]
  by_cases hi : i < (s.reserve (t.words.size - 1)).words.size
  · rw [Array.getElem?_eq_getElem hi]
    rfl
  · -- room was made for all words of `t`
    have hsize := lt_size_reserve (s := s) (t.words.size - 1)
    rw [Array.getElem?_eq_none (by omega : (s.reserve (t.words.size - 1)).words.size ≤ i),
      Array.getElem?_eq_none (by omega : t.words.size ≤ i)]
    rfl

/-- A union has the members of both sets. -/
theorem contains_union (s t : BitSet) (k : Int) :
    (s.union t).contains k = (s.contains k || t.contains k) := by
  cases k with
  | negSucc k => rfl
  | ofNat k =>
    rw [Int.ofNat_eq_natCast, contains_natCast, contains_natCast, contains_natCast, word_union,
      UInt64.toBitVec_or, BitVec.getLsbD_or]

end BitSet
end Straightline
