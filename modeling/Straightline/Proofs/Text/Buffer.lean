import Mathlib
import Straightline.Text.Buffer
import Straightline.Proofs.Text.Lexer
import Straightline.Proofs.Text.Progress

/-!
# Reading at an index never crashes

A reading in a buffer and the reading of the rest of the text as a list go on side by side: they
succeed together, with the same result and the index at which the rest begins, or are refused
together, with the same error at the same place (`Tracks`). No crash is tracked, so none happens.
Every index that a reader looks at is the one it was called with, one that it has compared with the
size of the buffer, or one behind a mark that it has found: so no step goes beyond the end.
-/

namespace Straightline

theorem ok_bind {ε α β : Type} (a : α) (f : α → Except ε β) : (Except.ok a >>= f) = f a := rfl

/-! ## Checked accesses -/

section Checked

variable {α ε : Type}

theorem fetch_of_lt {xs : Array α} {i : Nat} (hi : i < xs.size) :
    fetch xs i = (.ok xs[i] : Except (Halt ε) α) := by
  rw [fetch, Array.getElem?_eq_getElem hi]

theorem slice_of_le {xs : Array α} {i j : Nat} (hij : i ≤ j) (hj : j ≤ xs.size) :
    slice xs i j = (.ok ((xs.toList.drop i).take (j - i)) : Except (Halt ε) (List α)) := by
  rw [slice, if_pos ⟨hij, hj⟩, Array.toList_extract, List.extract_eq_take_drop]

/-- The loop over entries that satisfy `p` ends where the entries that do are taken away. -/
theorem passWhile_eq (p : α → Bool) {xs : Array α} {i : Nat} (hi : i ≤ xs.size) :
    ∃ j, passWhile p xs i = (.ok j : Except (Halt ε) Nat) ∧ i ≤ j ∧ j ≤ xs.size ∧
      (xs.toList.drop i).takeWhile p = (xs.toList.drop i).take (j - i) ∧
      (xs.toList.drop i).dropWhile p = xs.toList.drop j := by
  induction hn : xs.size - i generalizing i with
  | zero =>
    have hend : xs.toList.drop i = [] := List.drop_eq_nil_of_le (by rw [Array.length_toList]; omega)
    refine ⟨i, ?_, le_refl i, hi, ?_, ?_⟩
    · rw [passWhile.eq_def, dif_neg (by omega)]
    · rw [hend, List.take_nil]
      rfl
    · rw [hend]
      rfl
  | succ n ih =>
    have hlt : i < xs.size := by omega
    have hcons : xs.toList.drop i = xs[i] :: xs.toList.drop (i + 1) :=
      List.drop_eq_getElem_cons (by rw [Array.length_toList]; exact hlt)
    rw [passWhile.eq_def, dif_pos hlt, fetch_of_lt hlt, ok_bind]
    by_cases hp : p xs[i]
    · obtain ⟨j, hj, hle, hsize, htake, hdrop⟩ := ih (i := i + 1) (by omega) (by omega)
      refine ⟨j, by rw [if_pos hp, hj], by omega, hsize, ?_, ?_⟩
      · rw [hcons, List.takeWhile_cons_of_pos hp, htake, show j - i = (j - (i + 1)) + 1 by omega,
          List.take_succ_cons]
      · rw [hcons, List.dropWhile_cons_of_pos hp, hdrop]
    · refine ⟨i, by rw [if_neg hp], le_refl i, hi, ?_, ?_⟩
      · rw [hcons, List.takeWhile_cons_of_neg hp, Nat.sub_self, List.take_zero]
      · rw [hcons, List.dropWhile_cons_of_neg hp]

end Checked

/-! ## Readings side by side -/

/-- What is left of a buffer from index `i` on. -/
def Buffer.rest (b : Buffer) (i : Nat) : Input := b.toList.drop i

/-- `s` is what is left from index `i` on. -/
def Buffer.At (b : Buffer) (i : Nat) (s : Input) : Prop := i ≤ b.size ∧ s = b.rest i

/-- The same result, with an index and with what is left there. -/
def Buffer.Both {α : Type} (b : Buffer) (x : α × Nat) (y : α × Input) : Prop :=
  x.1 = y.1 ∧ b.At x.2 y.2

/-- A reading in a buffer does what a reading of the rest of a text does: it has a result that
corresponds, or refuses the text for the same reason at the same place. -/
inductive Tracks {α β : Type} (b : Buffer) (R : α → β → Prop) : Scan α → Except Stop β → Prop
  | ok {x : α} {y : β} (h : R x y) : Tracks b R (.ok x) (.ok y)
  | stop {i : Nat} (e : SyntaxError) (hi : i ≤ b.size) :
    Tracks b R (.error (.stop ⟨i, e⟩)) (.error ⟨b.rest i, e⟩)

namespace Tracks

variable {α β γ δ : Type} {b : Buffer} {R : α → β → Prop} {S : γ → δ → Prop} {x : Scan α}
  {y : Except Stop β}

theorem bind (h : Tracks b R x y) {f : α → Scan γ} {g : β → Except Stop δ}
    (hfg : ∀ u v, R u v → Tracks b S (f u) (g v)) : Tracks b S (x >>= f) (y >>= g) := by
  cases h with
  | ok huv => exact hfg _ _ huv
  | stop e hi => exact .stop e hi

theorem inside (h : Tracks b R x y) (p : Place) : Tracks b R (Scan.inside p x) (within p y) := by
  cases h with
  | ok huv => exact .ok huv
  | stop e hi => exact .stop _ hi

/-- The reading of an index and a result goes on. -/
theorem bindBoth {x : Scan (α × Nat)} {y : Except Stop (α × Input)} (h : Tracks b b.Both x y)
    {f : α × Nat → Scan γ} {g : α × Input → Except Stop δ}
    (hfg : ∀ a i, i ≤ b.size → Tracks b S (f (a, i)) (g (a, b.rest i))) :
    Tracks b S (x >>= f) (y >>= g) := by
  refine h.bind fun u v huv => ?_
  obtain ⟨a, i⟩ := u
  obtain ⟨a', s⟩ := v
  obtain ⟨rfl, hi, rfl⟩ := huv
  exact hfg a i hi

/-- The reading of an index goes on. -/
theorem bindAt {x : Scan Nat} {y : Except Stop Input} (h : Tracks b b.At x y) {f : Nat → Scan γ}
    {g : Input → Except Stop δ} (hfg : ∀ i, i ≤ b.size → Tracks b S (f i) (g (b.rest i))) :
    Tracks b S (x >>= f) (y >>= g) := by
  refine h.bind fun i s his => ?_
  obtain ⟨hi, rfl⟩ := his
  exact hfg i hi

theorem both {i : Nat} (a : α) (hi : i ≤ b.size) :
    Tracks b b.Both (.ok (a, i)) (.ok (a, b.rest i)) := .ok ⟨rfl, hi, rfl⟩

theorem at_ {i : Nat} (hi : i ≤ b.size) : Tracks b b.At (.ok i) (.ok (b.rest i)) := .ok ⟨hi, rfl⟩

end Tracks

namespace Buffer

variable {b : Buffer} {i : Nat}

theorem length_rest (b : Buffer) (i : Nat) : (b.rest i).length = b.size - i := by
  rw [rest, List.length_drop, Array.length_toList]

theorem rest_inj {j : Nat} (hi : i ≤ b.size) (hj : j ≤ b.size) (h : b.rest i = b.rest j) :
    i = j := by
  have hlen := congrArg List.length h
  rw [length_rest, length_rest] at hlen
  omega

/-- Two readings that track the same one are the same. -/
theorem eq_of_tracks {α : Type} {x x' : Scan (α × Nat)} {y : Except Stop (α × Input)}
    (h : Tracks b b.Both x y) (h' : Tracks b b.Both x' y) : x = x' := by
  cases h with
  | @ok u v huv =>
    cases h' with
    | @ok u' v' huv' =>
      obtain ⟨hfst, hle, hrest⟩ := huv
      obtain ⟨hfst', hle', hrest'⟩ := huv'
      rw [Prod.ext (hfst.trans hfst'.symm) (rest_inj hle hle' (hrest.symm.trans hrest'))]
  | @stop i e hi =>
    generalize hrest : b.rest i = r at h'
    cases h' with
    | @stop j e hj => rw [rest_inj hi hj hrest]

/-! ## Words and marks -/

theorem skip_eq {ε : Type} (hi : i ≤ b.size) :
    ∃ j, b.skip i = (.ok j : Except (Halt ε) Nat) ∧ i ≤ j ∧ j ≤ b.size ∧
      Lexer.skip (b.rest i) = b.rest j := by
  obtain ⟨j, hj, hij, hle, -, hdrop⟩ := passWhile_eq (ε := ε) Lexer.isBlank hi
  exact ⟨j, hj, hij, hle, hdrop⟩

theorem word_eq (hi : i ≤ b.size) :
    ∃ w j, b.word i = .ok (w, j) ∧ Lexer.word (b.rest i) = (w, b.rest j) ∧ j ≤ b.size := by
  obtain ⟨k, hk, -, hkle, hskip⟩ := skip_eq (ε := Refusal) hi
  obtain ⟨j, hj, hkj, hjle, htake, hdrop⟩ := passWhile_eq (ε := Refusal) Lexer.isWordByte hkle
  refine ⟨Lexer.ascii ((b.toList.drop k).take (j - k)), j, ?_, ?_, hjle⟩
  · rw [word, hk, ok_bind, hj, ok_bind, slice_of_le hkj hjle, ok_bind]
  · rw [Lexer.word, hskip, rest, htake, hdrop]
    rfl

theorem rest_of_lt (hi : i < b.size) : b.rest i = b[i] :: b.rest (i + 1) :=
  List.drop_eq_getElem_cons (by rw [Array.length_toList]; exact hi)

theorem rest_of_le (hi : b.size ≤ i) : b.rest i = [] :=
  List.drop_eq_nil_of_le (by rw [Array.length_toList]; exact hi)

/-- A mark is found by index where it is found in the rest; the end is no mark. -/
theorem eat_eq {c : Char} (hc : c.toUInt8 ≠ 0) (i : Nat) :
    (b.eat c i = .ok none ∧ Lexer.eat c (b.rest i) = none) ∨
      (b.eat c i = .ok (some (i + 1)) ∧ i < b.size ∧
        Lexer.eat c (b.rest i) = some (b.rest (i + 1))) := by
  by_cases hi : i < b.size
  · rw [eat, peek, if_pos hi, fetch_of_lt hi, ok_bind, rest_of_lt hi, Lexer.eat]
    by_cases heq : b[i] = c.toUInt8
    · exact .inr ⟨by rw [if_pos heq], hi, by rw [if_pos heq]⟩
    · exact .inl ⟨by rw [if_neg heq], by rw [if_neg heq]⟩
  · rw [eat, peek, if_neg hi, ok_bind, if_neg (Ne.symm hc), rest_of_le (by omega)]
    exact .inl ⟨rfl, rfl⟩

theorem expect_tracks (c : Char) (hi : i ≤ b.size) :
    Tracks b b.At (b.expect c i) (Lexer.expect c (b.rest i)) := by
  obtain ⟨j, hj, -, hle, hskip⟩ := skip_eq (ε := Refusal) hi
  rw [expect, hj, ok_bind, Lexer.expect, hskip]
  by_cases hend : j = b.size
  · have hnone : Lexer.eat c (b.rest j) = none := by
      rw [rest_of_le (by omega)]
      rfl
    rw [if_pos hend, hnone]
    exact .stop _ hle
  · have hlt : j < b.size := by omega
    have heat : Lexer.eat c (b.rest j) = if b[j] = c.toUInt8 then some (b.rest (j + 1)) else none := by
      rw [rest_of_lt hlt]
      rfl
    rw [if_neg hend, fetch_of_lt hlt, ok_bind, heat]
    split
    · exact .at_ hlt
    · exact .stop _ hle

theorem expectHere_tracks {c : Char} (hc : c.toUInt8 ≠ 0) (hi : i ≤ b.size) :
    Tracks b b.At (b.expectHere c i) (Lexer.expectHere c (b.rest i)) := by
  rw [expectHere, Lexer.expectHere]
  obtain ⟨hbuf, hlex⟩ | ⟨hbuf, hlt, hlex⟩ := b.eat_eq hc i
  · rw [hbuf, hlex]
    exact .stop _ hi
  · rw [hbuf, hlex]
    exact .at_ hlt

theorem refuseBehind_tracks {α β : Type} {R : α → β → Prop} (e : SyntaxError) (hi : i ≤ b.size) :
    Tracks b R (b.refuseBehind i e) (.error ⟨Lexer.skip (b.rest i), e⟩) := by
  obtain ⟨j, hj, -, hle, hskip⟩ := skip_eq (ε := Refusal) hi
  rw [refuseBehind, hj, hskip]
  exact .stop _ hle

theorem keyword_tracks (kw : String) (hi : i ≤ b.size) :
    Tracks b b.At (b.keyword kw i) (Lexer.keyword kw (b.rest i)) := by
  obtain ⟨w, j, hbuf, hlex, hj⟩ := word_eq hi
  rw [keyword, Lexer.keyword, hbuf, hlex, ok_bind]
  simp only
  split
  · exact .at_ hj
  · exact refuseBehind_tracks _ hi

/-! ## Temporaries -/

theorem tempDigits?_of_toList {w : String} {c d : Char} {cs : List Char}
    (h : w.toList = c :: d :: cs) :
    Lexer.tempDigits? w =
      if c = 't' then if (d :: cs).all Lexer.isDigit then some (d :: cs) else none else none := by
  rw [Lexer.tempDigits?, h]
  by_cases hc : c = 't'
  · subst hc
    rfl
  · rw [if_neg hc]
    split
    · rename_i heq
      exact absurd (List.cons.inj heq).1 hc
    · rfl

/-- A word names a temporary if it has the digits of one, and these stand behind the first
character. -/
theorem isTemp_eq (w : String) :
    isTemp w = .ok (Lexer.tempDigits? w).isSome ∧
      ∀ ds, Lexer.tempDigits? w = some ds → slice (chars w) 1 (chars w).size = (.ok ds : Scan _) := by
  rcases h : w.toList with _ | ⟨c, _ | ⟨d, cs⟩⟩
  · have hnone : Lexer.tempDigits? w = none := by rw [Lexer.tempDigits?, h]
    rw [isTemp, chars, h, hnone]
    exact ⟨rfl, fun ds hds => by cases hds⟩
  · have hnone : Lexer.tempDigits? w = none := by
      rw [Lexer.tempDigits?, h]
      split
      · rename_i heq
        cases heq
      · rfl
    rw [isTemp, chars, h, hnone]
    exact ⟨rfl, fun ds hds => by cases hds⟩
  · have hslice : slice (c :: d :: cs).toArray 1 (c :: d :: cs).toArray.size =
        (.ok (d :: cs) : Scan _) := by
      rw [slice_of_le (by simp) (le_refl _)]
      simp
    have hfetch : fetch (c :: d :: cs).toArray 0 = (.ok c : Scan _) := rfl
    rw [isTemp, chars, h, if_neg (by simp), hfetch, ok_bind, hslice, tempDigits?_of_toList h]
    constructor
    · split
      · rw [ok_bind]
        cases (d :: cs).all Lexer.isDigit <;> rfl
      · rfl
    · intro ds hds
      split at hds
      · split at hds
        · rw [Option.some.inj hds]
        · cases hds
      · cases hds

/-- A word that names a temporary is read again, and the reading goes on behind it. -/
theorem temp_tracks {γ δ : Type} {S : γ → δ → Prop} (hi : i ≤ b.size) {w : String} {j : Nat}
    {ds : List Char} (hbuf : b.word i = .ok (w, j)) (hds : Lexer.tempDigits? w = some ds)
    {f : Temp × Nat → Scan γ} {g : Temp → Except Stop δ}
    (hfg : ∀ t, Tracks b S (f (t, j)) (g t)) :
    Tracks b S (b.temp i >>= f) (Lexer.tempOf ds (b.rest i) >>= g) := by
  obtain ⟨htemp, hslice⟩ := isTemp_eq w
  rw [temp, Lexer.tempOf]
  simp only [hbuf, htemp, hds, ok_bind, Option.isSome_some, ↓reduceIte, hslice ds hds]
  split
  · exact hfg _
  · -- what is refused does not go on
    exact (refuseBehind_tracks (R := fun _ _ => False) _ hi).bind fun _ _ h => h.elim

/-! ## Numbers and names -/

theorem type_tracks (hi : i ≤ b.size) : Tracks b b.Both (b.type i) (Lexer.type (b.rest i)) := by
  obtain ⟨w, j, hbuf, hlex, hj⟩ := word_eq hi
  rw [type, Lexer.type, hbuf, hlex, ok_bind]
  simp only
  cases Ty.ofName? w with
  | some t => exact .both _ hj
  | none => exact refuseBehind_tracks _ hi

theorem unsigned_tracks (hi : i ≤ b.size) :
    Tracks b b.Both (b.unsigned i) (Lexer.unsigned (b.rest i)) := by
  obtain ⟨w, j, hbuf, hlex, hj⟩ := word_eq hi
  rw [unsigned, Lexer.unsigned, hbuf, hlex, ok_bind]
  simp only
  cases Numeral.read w with
  | ok v => exact .both _ hj
  | error f => exact refuseBehind_tracks _ hi

theorem number_tracks (hi : i ≤ b.size) :
    Tracks b b.Both (b.number i) (Lexer.number (b.rest i)) := by
  obtain ⟨k, hk, -, hle, hskip⟩ := skip_eq (ε := Refusal) hi
  rw [number, Lexer.number, hk, ok_bind, hskip]
  obtain ⟨heat, hnone⟩ | ⟨heat, hlt, hsome⟩ := b.eat_eq (c := '-') (by decide) k
  · -- without a sign the word is read from where the blanks begin, or from behind them
    have hsame : Lexer.word (b.rest i) = Lexer.word (b.rest k) := by
      rw [Lexer.word, Lexer.word, ← hskip, Lexer.skip_skip]
    obtain ⟨w, j, hbuf, hlex, hj⟩ := word_eq hle
    simp only [heat, hnone, ok_bind, Option.getD_none, hbuf, hsame, hlex]
    cases Numeral.read w with
    | ok v => exact .both _ hj
    | error f => exact hskip ▸ refuseBehind_tracks _ hi
  · obtain ⟨w, j, hbuf, hlex, hj⟩ := word_eq (Nat.succ_le_of_lt hlt)
    simp only [heat, hsome, ok_bind, Option.getD_some, hbuf, hlex]
    cases Numeral.read w with
    | ok v => exact .both _ hj
    | error f => exact hskip ▸ refuseBehind_tracks _ hi

theorem parenthesized_tracks (hi : i ≤ b.size) :
    Tracks b b.Both (b.parenthesized i) (Lexer.parenthesized (b.rest i)) := by
  rw [parenthesized, Lexer.parenthesized]
  refine (expect_tracks _ hi).bindAt fun j hj => ?_
  refine (number_tracks hj).bindBoth fun v k hk => ?_
  exact (expect_tracks _ hk).bindAt fun _ hl => .both _ hl

theorem jumpKind_tracks (hi : i ≤ b.size) :
    Tracks b b.Both (b.jumpKind i) (Lexer.jumpKind (b.rest i)) := by
  rw [jumpKind, Lexer.jumpKind]
  refine (expect_tracks _ hi).bindAt fun j hj => ?_
  obtain ⟨w, k, hbuf, hlex, hk⟩ := word_eq hj
  rw [hbuf, hlex, ok_bind]
  simp only
  cases JumpKind.ofName? w with
  | none => exact refuseBehind_tracks _ hi
  | some kind => exact (expect_tracks _ hk).bindAt fun _ hl => .both _ hl

theorem constant_tracks (hi : i ≤ b.size) :
    Tracks b b.Both (b.constant i) (Lexer.constant (b.rest i)) := by
  rw [constant, Lexer.constant]
  refine (unsigned_tracks hi).bindBoth fun v j hj => ?_
  obtain ⟨heat, hnone⟩ | ⟨heat, hlt, hsome⟩ := b.eat_eq (c := ':') (by decide) j
  · simp only [heat, hnone, ok_bind]
    exact .stop _ hj
  · obtain ⟨w, k, hbuf, hlex, hk⟩ := word_eq (Nat.succ_le_of_lt hlt)
    simp only [heat, hsome, ok_bind, hbuf, hlex]
    cases Tag.ofName? w with
    | none => exact .stop _ hk
    | some tag =>
      simp only
      split
      · exact .both _ hk
      · exact refuseBehind_tracks _ hi

theorem touch_tracks (hi : i ≤ b.size) : Tracks b b.Both (b.touch i) (Lexer.touch (b.rest i)) := by
  obtain ⟨w, j, hbuf, hlex, hj⟩ := word_eq hi
  rw [touch, Lexer.touch, hbuf, hlex, ok_bind]
  simp only
  have hcolon (t : Touch) : Tracks b b.Both (b.expectHere ':' j >>= fun k => .ok (t, k))
      (Lexer.expectHere ':' (b.rest j) >>= fun r => .ok (t, r)) :=
    (expectHere_tracks (by decide) hj).bindAt fun _ hk => .both _ hk
  cases Touch.ofName? w with
  | none => exact refuseBehind_tracks _ hi
  | some t =>
    cases t with
    | none => exact refuseBehind_tracks _ hi
    | _ => exact hcolon _

/-! ## Expressions -/

section Operands

variable {read : Nat → Scan (Expr × Nat)} {read' : Input → Except Stop (Expr × Input)}

/-- A mark is looked for behind blanks. -/
theorem expect_skip (c : Char) (s : Input) : Lexer.expect c (Lexer.skip s) = Lexer.expect c s := by
  rw [Lexer.expect, Lexer.skip_skip, Lexer.expect]

theorem argsFrom_tracks
    (hread : ∀ {i}, i ≤ b.size → Tracks b b.Both (read i) (read' (b.rest i))) (n k : Nat)
    (hi : i ≤ b.size) :
    Tracks b b.Both (b.argsFrom read n k i) (Reader.argsFrom read' n k (b.rest i)) := by
  induction n generalizing k i with
  | zero => exact .stop _ hi
  | succ n ih =>
    rw [argsFrom, Reader.argsFrom]
    refine ((hread hi).inside _).bindBoth fun x j hj => ?_
    obtain ⟨l, hl, -, hle, hskip⟩ := skip_eq (ε := Refusal) hj
    simp only [hl, ok_bind, hskip]
    obtain ⟨heat, hnone⟩ | ⟨heat, hlt, hsome⟩ := b.eat_eq (c := ',') (by decide) l
    · simp only [heat, hnone, ok_bind]
      rw [← expect_skip, hskip]
      exact (expect_tracks _ hle).bindAt fun _ hm => .both _ hm
    · simp only [heat, hsome, ok_bind]
      exact (ih (k + 1) hlt).bindBoth fun _ _ hm => .both _ hm

theorem argList_tracks
    (hread : ∀ {i}, i ≤ b.size → Tracks b b.Both (read i) (read' (b.rest i))) (hi : i ≤ b.size) :
    Tracks b b.Both (b.argList read i) (Reader.args read' (b.rest i)) := by
  rw [argList, Reader.args]
  refine (expect_tracks _ hi).bindAt fun j hj => ?_
  obtain ⟨l, hl, -, hle, hskip⟩ := skip_eq (ε := Refusal) hj
  simp only [hl, ok_bind, hskip]
  obtain ⟨heat, hnone⟩ | ⟨heat, hlt, hsome⟩ := b.eat_eq (c := ')') (by decide) l
  · simp only [heat, hnone, ok_bind, length_rest]
    exact argsFrom_tracks hread _ 0 hj
  · simp only [heat, hsome, ok_bind]
    exact .both _ hlt

/-- A list of a given length, whatever is made of its entries. -/
theorem args_tracks {γ δ : Type} {S : γ → δ → Prop}
    (hread : ∀ {i}, i ≤ b.size → Tracks b b.Both (read i) (read' (b.rest i))) (hi : i ≤ b.size)
    {n : Nat} {f : List Expr × Nat → Scan γ} {g : List Expr × Input → Except Stop δ}
    (hwrong : ∀ xs r, xs.length ≠ n → g (xs, r) = .error (Reader.wrongCount n xs (b.rest i)))
    (hfg : ∀ xs j, j ≤ b.size → xs.length = n → Tracks b S (f (xs, j)) (g (xs, b.rest j))) :
    Tracks b S (b.args read n i >>= f) (Reader.args read' (b.rest i) >>= g) := by
  have hassoc : b.args read n i >>= f = b.argList read i >>= fun x =>
      (if x.1.length = n then .ok x else Scan.refuse i (.argCount n x.1.length)) >>= f := by
    rw [args, bind_assoc]
  rw [hassoc]
  refine (argList_tracks hread hi).bindBoth fun xs j hj => ?_
  by_cases hlen : xs.length = n
  · simp only [hlen, ↓reduceIte, ok_bind]
    exact hfg xs j hj hlen
  · simp only [hlen, ↓reduceIte]
    rw [hwrong xs _ hlen]
    exact .stop _ hi

theorem oneArg_tracks
    (hread : ∀ {i}, i ≤ b.size → Tracks b b.Both (read i) (read' (b.rest i))) (hi : i ≤ b.size) :
    Tracks b b.Both (b.oneArg read i) (Reader.oneArg read' (b.rest i)) := by
  rw [oneArg, Reader.oneArg]
  refine args_tracks hread hi (fun xs r hlen => ?_) fun xs j hj hlen => ?_
  · rcases xs with _ | ⟨a, _ | ⟨a', xs⟩⟩
    · rfl
    · exact absurd rfl hlen
    · rfl
  · obtain ⟨a, rfl⟩ := List.length_eq_one_iff.mp hlen
    exact .both _ hj

/-- The count of a shape is read as the number that its digits are. -/
theorem count_eq {ds : List Char} (hne : ds ≠ []) (hds : ∀ c ∈ ds, Lexer.isDigit c = true) :
    Scan.refusedAt i (count ds) =
      match Numeral.read (String.ofList ds) with
      | .ok n => .ok n
      | .error _ => Scan.refuse i (.numberExpected (String.ofList ds)) := by
  have hchars : ∀ c ∈ ds, Lexer.isWordChar c = true := by
    intro c hc
    have hdigit : c.isDigit = true := hds c hc
    simp [Lexer.isWordChar, Char.isAlphanum, hdigit]
  have hword : Lexer.IsWord (String.ofList ds) := by
    refine ⟨fun hempty => hne ?_, ?_⟩
    · rw [← String.toList_ofList (l := ds), hempty]
      rfl
    · rw [String.toList_ofList, List.all_eq_true]
      exact hchars
  let d : Buffer := (ds.map Char.toUInt8).toArray
  have hrest : d.rest 0 = bytesOf (String.ofList ds) ++ [] := by
    rw [List.append_nil, Lexer.bytesOf_word hchars]
    rfl
  have htracks := unsigned_tracks (b := d) (Nat.zero_le _)
  have hlex : Lexer.word (d.rest 0) = (String.ofList ds, []) := by
    rw [hrest, hword.word (fun b hb => by cases hb)]
  rw [Lexer.unsigned, hlex] at htracks
  simp only at htracks
  show Scan.refusedAt i (d.unsigned 0 >>= fun x => .ok x.1) = _
  generalize d.unsigned 0 = u at htracks
  cases hnum : Numeral.read (String.ofList ds) with
  | ok n =>
    rw [hnum] at htracks
    cases htracks with
    | ok h =>
      rw [ok_bind, h.1]
      rfl
  | error f =>
    rw [hnum] at htracks
    generalize Lexer.skip (d.rest 0) = r at htracks
    cases htracks with
    | stop e h => rfl

/-- Where the digits that a word starts with end. -/
theorem digits_eq (w : String) : ∃ x, passWhile Lexer.isDigit (chars w) 0 = (.ok x : Scan Nat) ∧
    x ≤ w.toList.length ∧ w.toList.takeWhile Lexer.isDigit = w.toList.take x ∧
      w.toList.dropWhile Lexer.isDigit = w.toList.drop x := by
  obtain ⟨x, hx, -, hle, htake, hdrop⟩ :=
    passWhile_eq (ε := Refusal) Lexer.isDigit (Nat.zero_le (chars w).size)
  exact ⟨x, hx, by simpa [chars] using hle, htake, hdrop⟩

theorem window_tracks (hi : i ≤ b.size) :
    Tracks b b.Both (b.window i) (Reader.window (b.rest i)) := by
  rw [window, Reader.window]
  refine (expect_tracks _ hi).bindAt fun i hi => ?_
  refine (number_tracks hi).bindBoth fun base i hi => ?_
  refine (expect_tracks _ hi).bindAt fun i hi => ?_
  obtain ⟨w, j, hbuf, hlex, hj⟩ := word_eq hi
  obtain ⟨x, hx, hxle, hds, hcs⟩ := digits_eq w
  have hsize : (chars w).size = w.toList.length := by simp [chars]
  have htaken : (w.toList.take x).length = x := List.length_take_of_le hxle
  have hleft : (w.toList.drop x).length = w.toList.length - x := List.length_drop
  have hall : ∀ c ∈ w.toList.take x, Lexer.isDigit c = true := by
    intro c hc
    rw [← hds] at hc
    exact List.mem_takeWhile_imp hc
  simp only [hbuf, hlex, ok_bind, hx, hds, hcs]
  by_cases hshape : x = 0 ∨ (chars w).size ≤ x + 1
  · -- no digits, or one character at most behind them
    rw [if_pos hshape]
    split
    · rename_i hd hc
      rw [hd, List.length_cons] at htaken
      rw [hc, List.length_cons, List.length_cons] at hleft
      omega
    · exact .stop _ hi
  · have hlt : x < w.toList.length := by omega
    have hcons := List.drop_eq_getElem_cons hlt
    have hfetch : fetch (chars w) x = (.ok w.toList[x] : Scan _) := by
      rw [fetch_of_lt (by omega)]
      simp [chars]
    rw [if_neg hshape, hfetch, ok_bind]
    by_cases hmark : w.toList[x] = 'x'
    · obtain ⟨d, ds, hd⟩ := List.exists_cons_of_length_pos (show 0 < (w.toList.take x).length by omega)
      obtain ⟨c, cs, hc⟩ := List.exists_cons_of_length_pos
        (show 0 < (w.toList.drop (x + 1)).length by rw [List.length_drop]; omega)
      have hfirst : slice (chars w) 0 x = (.ok (d :: ds) : Scan _) := by
        rw [slice_of_le (Nat.zero_le x) (by omega), ← hd]
        rfl
      have hlast : slice (chars w) (x + 1) (chars w).size = (.ok (c :: cs) : Scan _) := by
        rw [slice_of_le (by omega) (le_refl _), List.take_of_length_le (by simp [chars]), ← hc]
        rfl
      rw [hd] at hall
      rw [hcons, hmark, hc, hd, if_pos rfl, hfirst, ok_bind,
        count_eq (List.cons_ne_nil d ds) hall, hlast]
      simp only
      cases Numeral.read (String.ofList (d :: ds)) with
      | error f => exact .stop _ hi
      | ok n =>
        rw [ok_bind, ok_bind]
        simp only
        cases Ty.ofName? (String.ofList (c :: cs)) with
        | none => exact .stop _ hi
        | some elem => exact (expect_tracks _ hj).bindAt fun _ hk => .both _ hk
    · rw [if_neg hmark]
      split
      · rename_i hc
        rw [hcons] at hc
        exact absurd (List.cons.inj hc).1 hmark
      · exact .stop _ hi

theorem indexed_tracks
    (hread : ∀ {i}, i ≤ b.size → Tracks b b.Both (read i) (read' (b.rest i))) (hi : i ≤ b.size) :
    Tracks b b.Both (b.indexed read i) (Reader.indexed read' (b.rest i)) := by
  rw [indexed, Reader.indexed]
  refine (window_tracks hi).bindBoth fun w i hi => ?_
  refine (expect_tracks _ hi).bindAt fun i hi => ?_
  refine ((hread hi).inside _).bindBoth fun ix i hi => ?_
  refine (expect_tracks _ hi).bindAt fun i hi => ?_
  refine (number_tracks hi).bindBoth fun bias i hi => ?_
  exact (expect_tracks _ hi).bindAt fun _ hj => .both _ hj

/-- What cannot be refused may stand outside of the construct that is named. -/
theorem inside_bind {α β : Type} {x : Scan α} {f : α → Scan β} (p : Place)
    (hf : ∀ u, x = .ok u → ∃ v, f u = .ok v) :
    Scan.inside p (x >>= f) = Scan.inside p x >>= f := by
  rcases x with (_ | r) | u
  · rfl
  · rfl
  · obtain ⟨v, hv⟩ := hf u rfl
    rw [ok_bind, hv]
    exact hv.symm

theorem length_of_args {n : Nat} {u : List Expr × Nat} (h : b.args read n i = .ok u) :
    u.1.length = n := by
  rw [args] at h
  cases hlist : b.argList read i with
  | error e =>
    rw [hlist] at h
    cases h
  | ok x =>
    rw [hlist, ok_bind] at h
    simp only at h
    split at h
    · rename_i hlen
      rw [← Except.ok.inj h]
      exact hlen
    · cases h

/-- Every operator has one argument or two. -/
theorem arity_of_ofName? {w : String} {op : Op} (h : Op.ofName? w = some op) :
    op.arity = 1 ∨ op.arity = 2 := by
  have htable : ∀ op ∈ Op.table, op.arity = 1 ∨ op.arity = 2 := by decide
  exact htable op (List.mem_of_find?_eq_some h)

theorem exprAt_tracks
    (hread : ∀ {i}, i ≤ b.size → Tracks b b.Both (read i) (read' (b.rest i))) (w : String) {j : Nat}
    (hi : i ≤ b.size) (hj : j ≤ b.size) :
    Tracks b b.Both (b.exprAt read w i j) (Reader.exprAt read' w (b.rest i) (b.rest j)) := by
  unfold exprAt
  split
  · refine (expect_tracks _ hj).bindAt fun j hj => ?_
    refine (type_tracks hj).bindBoth fun ty j hj => ?_
    exact (parenthesized_tracks hj).bindBoth fun _ _ hk => .both _ hk
  · exact ((indexed_tracks hread hj).inside _).bindBoth fun _ _ hk => .both _ hk
  · refine (expect_tracks _ hj).bindAt fun j hj => ?_
    refine (type_tracks hj).bindBoth fun ty j hj => ?_
    exact ((oneArg_tracks hread hj).inside _).bindBoth fun _ _ hk => .both _ hk
  · obtain ⟨callee, k, hbuf, hlex, hk⟩ := word_eq hj
    simp only [Reader.exprAt, hbuf, hlex, ok_bind]
    split
    · exact .stop _ hk
    · refine (expect_tracks _ hk).bindAt fun j hj => ?_
      refine (type_tracks hj).bindBoth fun ty j hj => ?_
      exact ((argList_tracks hread hj).inside _).bindBoth fun _ _ hk => .both _ hk
  · rw [← inside_bind]
    · refine Tracks.inside (args_tracks hread hj (fun xs r hlen => ?_) fun xs k hk hlen => ?_) _
      · rcases xs with _ | ⟨c, _ | ⟨z, _ | ⟨x, _ | ⟨y, xs⟩⟩⟩⟩
        · rfl
        · rfl
        · rfl
        · exact absurd rfl hlen
        · rfl
      · obtain ⟨c, z, x, rfl⟩ := List.length_eq_three.mp hlen
        exact .both _ hk
    · rintro ⟨xs, k⟩ hargs
      obtain ⟨c, z, x, rfl⟩ := List.length_eq_three.mp (length_of_args hargs)
      exact ⟨_, rfl⟩
  · rename_i hget hgeti hld hcall hselect
    generalize hright : Reader.exprAt read' w (b.rest i) (b.rest j) = right
    unfold Reader.exprAt at hright
    split at hright
    · exact absurd rfl hget
    · exact absurd rfl hgeti
    · exact absurd rfl hld
    · exact absurd rfl hcall
    · exact absurd rfl hselect
    subst hright
    cases hop : Op.ofName? w with
    | none => exact .stop _ hi
    | some op =>
      simp only
      rw [← inside_bind]
      · refine Tracks.inside (args_tracks hread hj (fun xs r hlen => ?_) fun xs k hk hlen => ?_) _
        · rcases xs with _ | ⟨a, _ | ⟨a', _ | ⟨x, xs⟩⟩⟩
          · rfl
          · exact if_neg fun h => hlen h.symm
          · exact if_neg fun h => hlen h.symm
          · rfl
        · rcases arity_of_ofName? hop with hone | htwo
          · obtain ⟨a, rfl⟩ := List.length_eq_one_iff.mp (hlen.trans hone)
            simp only [hone, ↓reduceIte]
            exact .both _ hk
          · obtain ⟨a, a', rfl⟩ := List.length_eq_two.mp (hlen.trans htwo)
            simp only [htwo, ↓reduceIte]
            exact .both _ hk
      · rintro ⟨xs, k⟩ hargs
        rcases arity_of_ofName? hop with hone | htwo
        · obtain ⟨a, rfl⟩ := List.length_eq_one_iff.mp ((length_of_args hargs).trans hone)
          exact ⟨_, by simp only [hone, ↓reduceIte]; rfl⟩
        · obtain ⟨a, a', rfl⟩ := List.length_eq_two.mp ((length_of_args hargs).trans htwo)
          exact ⟨_, by simp only [htwo]; rfl⟩

end Operands

theorem eq_empty_iff_toList {w : String} : w = "" ↔ w.toList = [] := by
  constructor
  · rintro rfl
    rfl
  · intro h
    rw [← String.ofList_toList (s := w), h]

theorem exprUpTo_tracks (n : Nat) (hi : i ≤ b.size) :
    Tracks b b.Both (b.exprUpTo n i) (Reader.exprUpTo n (b.rest i)) := by
  induction n generalizing i with
  | zero => exact refuseBehind_tracks _ hi
  | succ n ih =>
    obtain ⟨k, hk, -, hkle, hskip⟩ := skip_eq (ε := Refusal) hi
    obtain ⟨w, j, hbuf, hlex, hj⟩ := word_eq hkle
    obtain ⟨htemp, -⟩ := isTemp_eq w
    rw [exprUpTo, Reader.exprUpTo]
    simp only [hk, ok_bind, hskip, hbuf, hlex, htemp]
    cases hw : w.toList with
    | nil =>
      rw [if_pos (eq_empty_iff_toList.mpr hw)]
      exact .stop _ hkle
    | cons c cs =>
      have hne : w ≠ "" := fun h => by simp [eq_empty_iff_toList.mp h] at hw
      have hfetch : fetch (chars w) 0 = (.ok c : Scan _) := by
        rw [fetch, chars, hw]
        rfl
      rw [if_neg hne]
      simp only
      cases hds : Lexer.tempDigits? w with
      | some ds =>
        simp only [Option.isSome_some, ↓reduceIte]
        exact temp_tracks hkle hbuf hds fun t => .both _ hj
      | none =>
        simp only [Option.isSome_none, Bool.false_eq_true, ↓reduceIte, hfetch, ok_bind]
        obtain ⟨heat, hnone⟩ | ⟨heat, hlt, hsome⟩ := b.eat_eq (c := ':') (by decide) j
        · simp only [heat, hnone, ok_bind, Option.isSome_none, Bool.and_false, Bool.false_eq_true,
            ↓reduceIte]
          exact exprAt_tracks ih w hkle hj
        · simp only [heat, hsome, ok_bind, Option.isSome_some, Bool.and_true]
          split
          · exact (constant_tracks hkle).bindBoth fun _ _ hm => .both _ hm
          · exact exprAt_tracks ih w hkle hj

theorem expr_tracks (hi : i ≤ b.size) : Tracks b b.Both (b.expr i) (Reader.expr (b.rest i)) := by
  rw [expr, Reader.expr, length_rest]
  exact exprUpTo_tracks _ hi

/-! ## Statements -/

theorem rhs_tracks (hi : i ≤ b.size) : Tracks b b.Both (b.rhs i) (Reader.rhs (b.rest i)) := by
  rw [rhs, Reader.rhs]
  exact (expect_tracks _ hi).bindAt fun _ hj => expr_tracks hj

theorem attributes_tracks (n : Nat) (e : Effect) (hi : i ≤ b.size) :
    Tracks b b.Both (b.attributes n e i) (Reader.attributes n e (b.rest i)) := by
  induction n generalizing e i with
  | zero => exact .both _ hi
  | succ n ih =>
    obtain ⟨w, j, hbuf, hlex, hj⟩ := word_eq hi
    -- the two sides choose by the same word, one after the other
    generalize hright : Reader.attributes (n + 1) e (b.rest i) = right
    rw [attributes]
    rw [Reader.attributes] at hright
    simp only [hbuf, hlex, ok_bind] at hright ⊢
    by_cases hw : w = ""
    · simp only [hw, ↓reduceIte] at hright ⊢
      exact hright ▸ .both _ hi
    · simp only [hw, ↓reduceIte] at hright ⊢
      obtain ⟨heat, hnone⟩ | ⟨heat, hlt, hsome⟩ := b.eat_eq (c := '=') (by decide) j
      · simp only [heat, hnone, ok_bind] at hright ⊢
        exact hright ▸ .both _ hi
      · simp only [heat, hsome, ok_bind] at hright ⊢
        have hj' : j + 1 ≤ b.size := hlt
        split
        · subst hright
          exact ((expr_tracks hj').inside _).bindBoth fun _ _ hk => ih _ hk
        · subst hright
          refine (touch_tracks hj').bindBoth fun t k hk => ?_
          refine ((expr_tracks hk).inside _).bindBoth fun a k hk => ?_
          refine (expectHere_tracks (by decide) hk).bindAt fun k hk => ?_
          exact (number_tracks hk).bindBoth fun _ _ hl => ih _ hl
        · subst hright
          refine (touch_tracks hj').bindBoth fun t k hk => ?_
          refine (number_tracks hk).bindBoth fun off k hk => ?_
          refine (expectHere_tracks (by decide) hk).bindAt fun k hk => ?_
          exact (number_tracks hk).bindBoth fun _ _ hl => ih _ hl
        · rename_i hguard hmem hfx
          split at hright
          · exact absurd rfl hguard
          · exact absurd rfl hmem
          · exact absurd rfl hfx
          · exact hright ▸ refuseBehind_tracks _ hi

theorem effect_tracks (result : Option Temp) (hi : i ≤ b.size) :
    Tracks b b.Both (b.effect result i) (Reader.effect result (b.rest i)) := by
  obtain ⟨callee, j, hbuf, hlex, hj⟩ := word_eq hi
  rw [effect, Reader.effect]
  simp only [hbuf, hlex, ok_bind]
  split
  · exact .stop _ hj
  · refine ((argList_tracks expr_tracks hj).inside _).bindBoth fun xs k hk => ?_
    simp only [length_rest]
    refine (attributes_tracks _ _ hk).bindBoth fun e l hl => ?_
    simp only
    split
    · exact .stop _ hl
    · exact .both _ hl

theorem exit_tracks (hi : i ≤ b.size) : Tracks b b.Both (b.exit i) (Reader.exit (b.rest i)) := by
  rw [exit, Reader.exit]
  refine (expect_tracks _ hi).bindAt fun i hi => ?_
  refine ((expr_tracks hi).inside _).bindBoth fun guard i hi => ?_
  refine (expect_tracks _ hi).bindAt fun i hi => ?_
  refine (keyword_tracks _ hi).bindAt fun i hi => ?_
  refine (jumpKind_tracks hi).bindBoth fun kind i hi => ?_
  exact ((constant_tracks hi).inside _).bindBoth fun _ _ hj => .both _ hj

theorem mark_tracks (hi : i ≤ b.size) : Tracks b b.Both (b.mark i) (Reader.mark (b.rest i)) := by
  rw [mark, Reader.mark]
  refine (expect_tracks _ hi).bindAt fun i hi => ?_
  refine (unsigned_tracks hi).bindBoth fun addr i hi => ?_
  refine (expect_tracks _ hi).bindAt fun i hi => ?_
  refine (number_tracks hi).bindBoth fun len i hi => ?_
  exact (expect_tracks _ hi).bindAt fun _ hj => .both _ hj

/-- An assignment or an effect behind the word that names its temporary. -/
theorem definition_tracks (hi : i ≤ b.size) {w : String} {j : Nat} {ds : List Char}
    (hbuf : b.word i = .ok (w, j)) (hj : j ≤ b.size) (hds : Lexer.tempDigits? w = some ds) :
    Tracks b b.Both (b.definition i)
      (Lexer.tempOf ds (b.rest i) >>= fun t => Reader.definition t (b.rest j)) := by
  rw [definition]
  refine temp_tracks hi hbuf hds fun t => ?_
  rw [Reader.definition]
  refine (expect_tracks _ hj).bindAt fun k hk => ?_
  obtain ⟨w, l, hbuf, hlex, hl⟩ := word_eq hk
  simp only [hbuf, hlex, ok_bind]
  split
  · exact effect_tracks _ hl
  · exact ((expr_tracks hk).inside _).bindBoth fun _ _ hm => .both _ hm

theorem stmt_tracks (hi : i ≤ b.size) : Tracks b b.Both (b.stmt i) (Reader.stmt (b.rest i)) := by
  obtain ⟨k, hk, -, hkle, hskip⟩ := skip_eq (ε := Refusal) hi
  obtain ⟨w, j, hbuf, hlex, hj⟩ := word_eq hkle
  obtain ⟨htemp, -⟩ := isTemp_eq w
  generalize hright : Reader.stmt (b.rest i) = right
  rw [stmt]
  rw [Reader.stmt] at hright
  simp only [hk, ok_bind, hskip, hbuf, hlex, htemp] at hright ⊢
  cases hds : Lexer.tempDigits? w with
  | some ds =>
    simp only [hds, Option.isSome_some, ↓reduceIte] at hright ⊢
    exact hright ▸ definition_tracks hkle hbuf hj hds
  | none =>
    simp only [hds, Option.isSome_none, Bool.false_eq_true, ↓reduceIte] at hright ⊢
    split
    · exact hright ▸ .both _ hj
    · exact hright ▸ .both _ hj
    · exact hright ▸ mark_tracks hj
    · subst hright
      refine (parenthesized_tracks hj).bindBoth fun off j hj => ?_
      exact ((rhs_tracks hj).inside _).bindBoth fun _ _ hm => .both _ hm
    · subst hright
      refine ((indexed_tracks expr_tracks hj).inside _).bindBoth fun w j hj => ?_
      exact ((rhs_tracks hj).inside _).bindBoth fun _ _ hm => .both _ hm
    · subst hright
      refine ((oneArg_tracks expr_tracks hj).inside _).bindBoth fun a j hj => ?_
      exact ((rhs_tracks hj).inside _).bindBoth fun _ _ hm => .both _ hm
    · exact hright ▸ effect_tracks _ hj
    · exact hright ▸ exit_tracks hj
    · rename_i hnoop hfence hmark hput hputi hst heffect hif
      split at hright
      · exact absurd rfl hnoop
      · exact absurd rfl hfence
      · exact absurd rfl hmark
      · exact absurd rfl hput
      · exact absurd rfl hputi
      · exact absurd rfl hst
      · exact absurd rfl heffect
      · exact absurd rfl hif
      · exact hright ▸ .stop _ hkle

/-! ## Blocks -/

/-- Behind blanks there are none. -/
theorem skip_behind {k : Nat} (hi : i ≤ b.size) (h : b.skip i = (.ok k : Scan Nat)) :
    b.skip k = (.ok k : Scan Nat) := by
  obtain ⟨k', hk', -, hle, hskip⟩ := skip_eq (ε := Refusal) hi
  obtain rfl : k' = k := Except.ok.inj (hk'.symm.trans h)
  obtain ⟨l, hl, hkl, hlle, hskip'⟩ := skip_eq (ε := Refusal) hle
  rw [← hskip, Lexer.skip_skip, hskip] at hskip'
  rw [hl, rest_inj hle hlle hskip']

theorem word_behind {k : Nat} (hi : i ≤ b.size) (h : b.skip i = (.ok k : Scan Nat)) :
    b.word k = b.word i := by
  rw [word, word, h, skip_behind hi h]

/-- A temporary that is not preceded by blanks is refused where it stands. -/
theorem refusedAt_temp (h : b.skip i = (.ok i : Scan Nat)) {w : String} {j : Nat} {ds : List Char}
    (hbuf : b.word i = .ok (w, j)) (hds : Lexer.tempDigits? w = some ds) :
    Scan.refusedAt i (b.temp i) = b.temp i := by
  obtain ⟨htemp, hslice⟩ := isTemp_eq w
  rw [temp]
  simp only [hbuf, htemp, hds, ok_bind, Option.isSome_some, ↓reduceIte, hslice ds hds]
  split
  · rfl
  · rw [refuseBehind, h]
    rfl

theorem declaration_tracks (n : Nat) (hi : i ≤ b.size) {w : String} {j : Nat} {ds : List Char}
    (hbuf : b.word i = .ok (w, j)) (hj : j ≤ b.size) (hds : Lexer.tempDigits? w = some ds) :
    Tracks b b.Both (b.declaration n i) (Reader.declaration ds n (b.rest i) (b.rest j)) := by
  obtain ⟨k, hk, -, hkle, hskip⟩ := skip_eq (ε := Refusal) hi
  have hword : b.word k = .ok (w, j) := (word_behind hi hk).trans hbuf
  have hof : Lexer.tempOf ds (b.rest i) = Lexer.tempOf ds (b.rest k) := by
    rw [Lexer.tempOf, Lexer.tempOf, ← hskip, Lexer.skip_skip]
  rw [declaration, Reader.declaration, hk, ok_bind, refusedAt_temp (skip_behind hi hk) hword hds,
    hof, hskip]
  refine temp_tracks hkle hword hds fun t => ?_
  simp only
  split
  · exact (expect_tracks _ hj).bindAt fun _ hl => type_tracks hl
  · exact .stop _ hkle

theorem jump_tracks (temps : Array Ty) (hi : i ≤ b.size) :
    Tracks b b.Both (b.jump temps i) (Reader.jump temps (b.rest i)) := by
  rw [jump, Reader.jump]
  refine (jumpKind_tracks hi).bindBoth fun kind i hi => ?_
  refine ((expr_tracks hi).inside _).bindBoth fun next i hi => ?_
  exact (expect_tracks _ hi).bindAt fun _ hj => .both _ hj

theorem body_tracks (n : Nat) (temps : Array Ty) (k : Nat) (hi : i ≤ b.size) :
    Tracks b b.Both (b.body n temps k i) (Reader.body n temps k (b.rest i)) := by
  induction n generalizing temps k i with
  | zero => exact refuseBehind_tracks _ hi
  | succ n ih =>
    obtain ⟨w, j, hbuf, hlex, hj⟩ := word_eq hi
    obtain ⟨htemp, -⟩ := isTemp_eq w
    have hstmt : Tracks b b.Both
        (Scan.inside (.stmt k) (b.stmt i) >>= fun x => b.body n temps (k + 1) x.2 >>= fun y =>
          .ok ({ y.1 with stmts := x.1 :: y.1.stmts }, y.2))
        (within (.stmt k) (Reader.stmt (b.rest i)) >>= fun x =>
          Reader.body n temps (k + 1) x.2 >>= fun y =>
            .ok ({ y.1 with stmts := x.1 :: y.1.stmts }, y.2)) := by
      refine ((stmt_tracks hi).inside _).bindBoth fun x l hl => ?_
      exact (ih temps (k + 1) hl).bindBoth fun _ _ hm => .both _ hm
    rw [body, Reader.body]
    simp only [hbuf, hlex, ok_bind, htemp]
    split
    · exact .stop _ hj
    · split
      · exact jump_tracks temps hj
      · obtain ⟨heat, hnone⟩ | ⟨heat, hlt, hsome⟩ := b.eat_eq (c := ':') (by decide) j
        · simp only [heat, hnone, ok_bind, Option.isSome_none, Bool.and_false, Bool.false_eq_true,
            ↓reduceIte]
          exact hstmt
        · simp only [heat, hsome, ok_bind, Option.isSome_some, Bool.and_true, ↓reduceIte]
          cases hds : Lexer.tempDigits? w with
          | none =>
            simp only [Option.isSome_none, Bool.false_eq_true, ↓reduceIte]
            exact hstmt
          | some ds =>
            simp only [Option.isSome_some, ↓reduceIte]
            refine (declaration_tracks temps.size hi hbuf hj hds).bindBoth fun ty l hl => ?_
            exact ih _ _ hl

theorem block_tracks (hi : i ≤ b.size) : Tracks b b.Both (b.block i) (Reader.block (b.rest i)) := by
  rw [block, Reader.block]
  refine (keyword_tracks _ hi).bindAt fun i hi => ?_
  refine (expect_tracks _ hi).bindAt fun i hi => ?_
  rw [length_rest]
  exact body_tracks _ _ _ hi

/-! ## Whole texts -/

/-- A refusal is located where the stop is that it corresponds to. -/
theorem locate_eq {ε : Type} (e : SyntaxError) (hi : i ≤ b.size) :
    b.locate ⟨i, e⟩ = (.ok (.ofStop b.toList ⟨b.rest i, e⟩) : Except (Halt ε) Located) := by
  have hbefore : b.toList.take (b.toList.length - (b.rest i).length) = b.toList.take i := by
    rw [length_rest, Array.length_toList, show b.size - (b.size - i) = i by omega]
  have hcol : i - ((b.toList.take i).reverse.dropWhile (· != 10)).length =
      ((b.toList.take i).reverse.takeWhile (· != 10)).length := by
    have hlen : (b.toList.take i).length = i := List.length_take_of_le hi
    have hsplit := congrArg List.length
      (List.takeWhile_append_dropWhile (p := (· != 10)) (l := (b.toList.take i).reverse))
    rw [List.length_append, List.length_reverse, hlen] at hsplit
    omega
  rw [locate, Nat.min_eq_left hi, slice_of_le (Nat.zero_le i) hi, List.drop_zero, Nat.sub_zero,
    ok_bind, Located.ofStop, hbefore, ← hcol]

/-- What is read from a buffer is what is read from its bytes as a list, and no crash. -/
theorem read_eq (b : Buffer) : b.read = (Block.read b.toList).mapError .stop := by
  have htracks : Tracks b b.Both (b.block 0) (Reader.block b.toList) := block_tracks (Nat.zero_le _)
  rw [read, Block.read]
  generalize b.block 0 = x at htracks
  generalize Reader.block b.toList = y at htracks
  cases htracks with
  | stop e hi =>
    simp only [locate_eq e hi]
    rfl
  | @ok x y h =>
    obtain ⟨x, i⟩ := x
    obtain ⟨x', s⟩ := y
    obtain ⟨rfl, hi, rfl⟩ := h
    obtain ⟨k, hk, -, hkle, hskip⟩ := skip_eq (ε := Located) hi
    simp only [hk, ok_bind, hskip]
    by_cases hend : k = b.size
    · rw [if_pos hend, rest_of_le (le_of_eq hend.symm)]
      rfl
    · have hcons := rest_of_lt (show k < b.size by omega)
      simp only [if_neg hend, locate_eq _ hkle, ok_bind]
      rw [hcons]
      rfl

theorem readFrom_eq (n k : Nat) (hi : i ≤ b.size) :
    b.readFrom n k i = (Block.readFrom b.toList n k (b.rest i)).mapError .stop := by
  induction n generalizing k i with
  | zero => rfl
  | succ n ih =>
    obtain ⟨l, hl, -, hle, hskip⟩ := skip_eq (ε := Nat × Located) hi
    rw [readFrom, Block.readFrom, hl, ok_bind, hskip]
    by_cases hend : l < b.size
    · rw [if_pos hend]
      have hcons := rest_of_lt hend
      have htracks : Tracks b b.Both (b.block l) (Reader.block (b.rest l)) := block_tracks hle
      rw [hcons] at htracks ⊢
      simp only
      generalize b.block l = x at htracks
      generalize Reader.block (b[l] :: b.rest (l + 1)) = y at htracks
      cases htracks with
      | stop e hj =>
        simp only [locate_eq e hj]
        rfl
      | @ok x y h =>
        obtain ⟨x, j⟩ := x
        obtain ⟨x', s⟩ := y
        obtain ⟨rfl, hj, rfl⟩ := h
        simp only [ih (k + 1) hj]
        cases Block.readFrom b.toList n (k + 1) (b.rest j) <;> rfl
    · rw [if_neg hend, rest_of_le (Nat.le_of_not_lt hend)]
      rfl

/-- What is read from a buffer is what is read from its bytes as a list, and no crash. -/
theorem readAll_eq (b : Buffer) : b.readAll = (Block.readAll b.toList).mapError .stop := by
  rw [readAll, Block.readAll, Array.length_toList]
  exact readFrom_eq _ _ (Nat.zero_le _)

end Buffer
end Straightline
