import Mathlib
import Straightline.Text.Numeral

/-!
# Numerals read back

The word that a numeral denotes, for the numerals that are written: decimal digits without leading
zeros, and hexadecimal digits behind `0x`.
-/

namespace Straightline
namespace Numeral

/-! ## Digits -/

theorem digit?_digitChar : ∀ d < 16, digit? d.digitChar = some d := by decide

theorem digitChar_ne_underscore : ∀ d < 16, d.digitChar ≠ '_' := by decide

theorem value_append (base n : Nat) (xs ys : List Char) :
    value base n (xs ++ ys) = (value base n xs).bind fun m => value base m ys := by
  induction xs generalizing n with
  | nil => rfl
  | cons c xs ih =>
    rw [List.cons_append, value, value]
    split
    · exact ih n
    · cases push base n c with
      | error f => rfl
      | ok m => exact ih m

theorem value_digit {base n d : Nat} (hd : d < base) (hbase : base ≤ 16)
    (h : n * base + d < UInt64.size) : value base n [d.digitChar] = .ok (n * base + d) := by
  have hpush : push base n d.digitChar = .ok (n * base + d) := by
    rw [push, digit?_digitChar d (by omega)]
    simp [Nat.not_le.mpr hd, Nat.not_le.mpr h]
  rw [value, if_neg (digitChar_ne_underscore d (by omega)), hpush]
  rfl

/-- The digits of a number that fits a word denote it. -/
theorem value_toDigits {base n : Nat} (hb : 1 < base) (hbase : base ≤ 16) (hn : n < UInt64.size) :
    value base 0 (Nat.toDigits base n) = .ok n := by
  induction n using Nat.strongRecOn with
  | _ n ih =>
    by_cases hlt : n < base
    · rw [Nat.toDigits_of_lt_base hlt]
      simpa using value_digit (n := 0) hlt hbase (by simpa using hn)
    · -- the last digit is the remainder, and the digits before it are those of the quotient
      have hpos : 0 < n := by omega
      have hq : n / base < n := Nat.div_lt_self hpos hb
      have hsum : n / base * base + n % base = n := Nat.div_add_mod' n base
      rw [Nat.toDigits_of_base_le hb (Nat.not_lt.mp hlt), value_append, ih _ hq (by omega)]
      have hdigit := value_digit (n := n / base) (Nat.mod_lt n (by omega)) hbase (by omega)
      rw [hsum] at hdigit
      exact hdigit

theorem separated_of_not_mem {behind : Bool} {cs : List Char} (hcs : '_' ∉ cs)
    (h : behind = true ∨ cs ≠ []) : separated behind cs = true := by
  induction cs generalizing behind with
  | nil => simpa [separated] using h
  | cons c cs ih =>
    rw [List.mem_cons, not_or] at hcs
    rw [separated, if_neg (Ne.symm hcs.1)]
    exact ih hcs.2 (.inl rfl)

theorem exists_of_mem_toDigits {base n : Nat} {c : Char} (hb : 1 < base)
    (hc : c ∈ Nat.toDigits base n) : ∃ d < base, c = d.digitChar := by
  induction n using Nat.strongRecOn with
  | _ n ih =>
    by_cases hlt : n < base
    · rw [Nat.toDigits_of_lt_base hlt, List.mem_singleton] at hc
      exact ⟨n, hlt, hc⟩
    · rw [Nat.toDigits_of_base_le hb (Nat.not_lt.mp hlt), List.mem_append, List.mem_singleton] at hc
      rcases hc with hc | hc
      · exact ih _ (Nat.div_lt_self (by omega) hb) hc
      · exact ⟨_, Nat.mod_lt n (by omega), hc⟩

theorem underscore_not_mem_toDigits {base n : Nat} (hb : 1 < base) (hbase : base ≤ 16) :
    '_' ∉ Nat.toDigits base n := by
  intro hmem
  obtain ⟨d, hd, heq⟩ := exists_of_mem_toDigits hb hmem
  exact digitChar_ne_underscore d (by omega) heq.symm

/-- A positive number is written without a leading zero. -/
theorem exists_toDigits_cons {n : Nat} (hn : 0 < n) :
    ∃ c cs, Nat.toDigits 10 n = c :: cs ∧ c ≠ '0' := by
  induction n using Nat.strongRecOn with
  | _ n ih =>
    by_cases hlt : n < 10
    · refine ⟨_, [], Nat.toDigits_of_lt_base hlt, ?_⟩
      rw [Ne, Nat.digitChar_eq_zero]
      omega
    · obtain ⟨c, cs, hcs, hc⟩ := ih (n / 10) (by omega) (by omega)
      refine ⟨c, cs ++ [(n % 10).digitChar], ?_, hc⟩
      rw [Nat.toDigits_of_base_le (by decide) (Nat.not_lt.mp hlt), hcs, List.cons_append]

/-! ## Numerals -/

theorem split_of_ne {c : Char} {cs : List Char} (hc : c ≠ '0') :
    split (c :: cs) = (10, false, c :: cs) := by
  unfold split
  split
  · simp_all
  · simp_all
  · rfl

/-- A word written in decimal digits is read back. -/
theorem read_toDigits (v : UInt64) : read (String.ofList (Nat.toDigits 10 v.toNat)) = .ok v := by
  have hvalue : value 10 0 (Nat.toDigits 10 v.toNat) = .ok v.toNat :=
    value_toDigits (by decide) (by decide) v.toNat_lt
  by_cases hv : v.toNat = 0
  · have hzero : v = 0 := UInt64.toNat_inj.mp hv
    rw [hzero]
    rfl
  · obtain ⟨c, cs, hcs, hc⟩ := exists_toDigits_cons (Nat.pos_of_ne_zero hv)
    have hsep : separated false (c :: cs) = true := by
      refine separated_of_not_mem ?_ (.inr (by simp))
      rw [← hcs]
      exact underscore_not_mem_toDigits (by decide) (by decide)
    rw [read, String.toList_ofList, hcs, split_of_ne hc]
    rw [hcs] at hvalue
    simp [hvalue, hsep, bind, Except.bind]

/-- A word written in hexadecimal is read back. -/
theorem read_hex (v : UInt64) : read (hex v) = .ok v := by
  have hvalue : value 16 0 (Nat.toDigits 16 v.toNat) = .ok v.toNat :=
    value_toDigits (by decide) (by decide) v.toNat_lt
  have hsep : separated true (Nat.toDigits 16 v.toNat) = true :=
    separated_of_not_mem (underscore_not_mem_toDigits (by decide) (by decide)) (.inl rfl)
  obtain ⟨d, ds, hds⟩ := List.exists_cons_of_ne_nil (Nat.toDigits_ne_nil (n := v.toNat) (b := 16))
  have hsplit : split (hex v).toList = (16, true, Nat.toDigits 16 v.toNat) := by
    simp only [hex, String.toList_append, String.toList_ofList, hds]
    rfl
  rw [read, hsplit]
  simp [hvalue, hsep, bind, Except.bind]

/-- The digits of a number have the number as their value. -/
theorem decimalValue_toDigits (n : Nat) : decimalValue (Nat.toDigits 10 n) = n := by
  have h := Nat.ofDigitChars_ten_toDigits (n := n)
  rw [Nat.ofDigitChars_eq_foldl] at h
  rw [decimalValue]
  simpa [Nat.mul_comm] using h

end Numeral
end Straightline
