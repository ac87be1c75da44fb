import Mathlib
import Straightline.Proofs.Text.Buffer

/-!
# Places of errors

A line and a column name an offset of a text. Since readers move forward, the place of an error is
one in the text, and that of an error in the block with number `k` is behind the `k` blocks before
it. Readers in a buffer track readers of the rest of a text, so what the latter leave says where the
former end: behind the index they were called with, and not beyond the end.
-/

namespace Straightline

open Lexer

/-! ## Parts -/

namespace Buffer

/-- The parts of a text that have a reader of their own. -/
inductive Part where
  | symbol (c : Char)
  | keyword (kw : String) (h : kw ≠ "")
  | temp
  | type
  | unsigned
  | number
  | parenthesized
  | jumpKind
  | constant
  | touch
  | argList
  | args (n : Nat)
  | window
  | indexed
  | expr
  | rhs
  | effect (result : Option Temp)
  | definition
  | exit
  | mark
  | stmt
  | declaration (n : Nat)
  | jump (temps : Array Ty)
  | body (temps : Array Ty) (k : Nat)
  | block

/-- Where the reader of a part ends that is called at index `i`. -/
def Part.leave (b : Buffer) (i : Nat) : Part → Scan Nat
  | symbol c => b.expect c i
  | keyword kw _ => b.keyword kw i
  | temp => (b.temp i).map Prod.snd
  | type => (b.type i).map Prod.snd
  | unsigned => (b.unsigned i).map Prod.snd
  | number => (b.number i).map Prod.snd
  | parenthesized => (b.parenthesized i).map Prod.snd
  | jumpKind => (b.jumpKind i).map Prod.snd
  | constant => (b.constant i).map Prod.snd
  | touch => (b.touch i).map Prod.snd
  | argList => (b.argList b.expr i).map Prod.snd
  | args n => (b.args b.expr n i).map Prod.snd
  | window => (b.window i).map Prod.snd
  | indexed => (b.indexed b.expr i).map Prod.snd
  | expr => (b.expr i).map Prod.snd
  | rhs => (b.rhs i).map Prod.snd
  | effect result => (b.effect result i).map Prod.snd
  | definition => (b.definition i).map Prod.snd
  | exit => (b.exit i).map Prod.snd
  | mark => (b.mark i).map Prod.snd
  | stmt => (b.stmt i).map Prod.snd
  | declaration n => (b.declaration n i).map Prod.snd
  | jump temps => (b.jump temps i).map Prod.snd
  | body temps k => (b.body (b.size - i) temps k i).map Prod.snd
  | block => (b.block i).map Prod.snd

/-- A reading from index `i` on that ends behind it or is refused there or behind it, within the
buffer. In particular it does not crash. -/
def Moves (b : Buffer) (i : Nat) (x : Scan Nat) : Prop :=
  (∃ j, x = .ok j ∧ i < j ∧ j ≤ b.size) ∨
    ∃ j e, x = .error (.stop ⟨j, e⟩) ∧ i ≤ j ∧ j ≤ b.size

variable {b : Buffer} {i : Nat}

theorem le_of_suffix {j : Nat} (hi : i ≤ b.size) (hj : j ≤ b.size) (h : b.rest j <:+ b.rest i) :
    i ≤ j := by
  have hlen := h.length_le
  rw [length_rest, length_rest] at hlen
  omega

theorem lt_of_beyond {j : Nat} (h : Beyond (b.rest j) (b.rest i)) : i < j := by
  have hlen := h.length_lt
  rw [length_rest, length_rest] at hlen
  omega

/-- A reading moves forward if the one it tracks does. -/
theorem moves_of_both {α : Type} {x : Scan (α × Nat)} {y : Except Stop (α × Input)}
    (hi : i ≤ b.size) (h : Tracks b b.Both x y) (hy : Advances Prod.snd (b.rest i) y) :
    b.Moves i (x.map Prod.snd) := by
  cases h with
  | @ok x y hxy =>
    obtain ⟨-, hj, hrest⟩ := hxy
    have hbeyond := hy.beyond y rfl
    rw [hrest] at hbeyond
    exact .inl ⟨x.2, rfl, lt_of_beyond hbeyond, hj⟩
  | @stop j e hj => exact .inr ⟨j, e, rfl, le_of_suffix hi hj (hy.stop _ rfl), hj⟩

theorem moves_of_at {x : Scan Nat} {y : Except Stop Input} (hi : i ≤ b.size)
    (h : Tracks b b.At x y) (hy : Advances id (b.rest i) y) : b.Moves i x := by
  cases h with
  | @ok j s hs =>
    obtain ⟨hj, rfl⟩ := hs
    exact .inl ⟨j, rfl, lt_of_beyond (hy.beyond _ rfl), hj⟩
  | @stop j e hj => exact .inr ⟨j, e, rfl, le_of_suffix hi hj (hy.stop _ rfl), hj⟩

/-- Where a word is no name, there is no temporary. -/
theorem temp_of_tempDigits?_eq_none {k : Nat} (hk : b.skip i = (.ok k : Scan Nat)) {w : String}
    {j : Nat} (hbuf : b.word i = .ok (w, j)) (hds : tempDigits? w = none) :
    b.temp i = Scan.refuse k (.keywordExpected "temp") := by
  obtain ⟨htemp, -⟩ := isTemp_eq w
  rw [temp]
  simp only [hbuf, htemp, hds, ok_bind, Option.isSome_none, Bool.false_eq_true, ↓reduceIte,
    refuseBehind, hk]

theorem ne_empty_of_tempDigits? {w : String} {ds : List Char} (h : tempDigits? w = some ds) :
    w ≠ "" := by
  rintro rfl
  cases h

theorem temp_moves (hi : i ≤ b.size) : b.Moves i ((b.temp i).map Prod.snd) := by
  obtain ⟨k, hk, hik, hkle, -⟩ := skip_eq (ε := Refusal) hi
  obtain ⟨w, j, hbuf, hlex, hj⟩ := word_eq hi
  cases hds : tempDigits? w with
  | none =>
    rw [temp_of_tempDigits?_eq_none hk hbuf hds]
    exact .inr ⟨k, _, rfl, hik, hkle⟩
  | some ds =>
    have htracks := temp_tracks (S := b.Both) hi hbuf hds fun t => .both t hj
    have hid : (b.temp i >>= fun x => .ok (x.1, x.2)) = b.temp i := by
      cases b.temp i <;> rfl
    rw [← hid]
    refine moves_of_both hi htracks ?_
    cases ht : tempOf ds (b.rest i) with
    | error e => exact .error (tempOf_stop ht)
    | ok t => exact .ok (word_beyond hlex (ne_empty_of_tempDigits? hds))

theorem definition_moves (hi : i ≤ b.size) : b.Moves i ((b.definition i).map Prod.snd) := by
  obtain ⟨k, hk, hik, hkle, -⟩ := skip_eq (ε := Refusal) hi
  obtain ⟨w, j, hbuf, hlex, hj⟩ := word_eq hi
  cases hds : tempDigits? w with
  | none =>
    rw [definition, temp_of_tempDigits?_eq_none hk hbuf hds]
    exact .inr ⟨k, _, rfl, hik, hkle⟩
  | some ds =>
    refine moves_of_both hi (definition_tracks hi hbuf hj hds) ?_
    cases ht : tempOf ds (b.rest i) with
    | error e => exact .error (tempOf_stop ht)
    | ok t => exact (Reader.definition_advances t _).trans_suffix (word_suffix hlex)

theorem declaration_moves (n : Nat) (hi : i ≤ b.size) :
    b.Moves i ((b.declaration n i).map Prod.snd) := by
  obtain ⟨k, hk, hik, hkle, -⟩ := skip_eq (ε := Refusal) hi
  obtain ⟨w, j, hbuf, hlex, hj⟩ := word_eq hi
  cases hds : tempDigits? w with
  | none =>
    have hword := (word_behind hi hk).trans hbuf
    rw [declaration, hk, ok_bind, temp_of_tempDigits?_eq_none (skip_behind hi hk) hword hds]
    exact .inr ⟨k, _, rfl, hik, hkle⟩
  | some ds =>
    exact moves_of_both hi (declaration_tracks n hi hbuf hj hds)
      (Reader.declaration_advances ds n (word_suffix hlex))

theorem args_moves (n : Nat) (hi : i ≤ b.size) :
    b.Moves i ((b.args b.expr n i).map Prod.snd) := by
  have hid : (b.args b.expr n i >>= fun x => .ok x) = b.args b.expr n i := by
    cases b.args b.expr n i <;> rfl
  have htracks := args_tracks (S := b.Both) expr_tracks hi (n := n) (f := fun x => .ok x)
    (g := fun x => if x.1.length = n then .ok x else .error (Reader.wrongCount n x.1 (b.rest i)))
    (fun xs r hlen => if_neg hlen) fun xs j hj hlen => by
      rw [if_pos hlen]
      exact .both xs hj
  rw [← hid]
  refine moves_of_both hi htracks ?_
  refine (Reader.args_advances Reader.expr_advances _).bind fun x hx => ?_
  split
  · exact .ok hx
  · exact .error (List.suffix_refl _)

/-- Every reader moves forward within the buffer, and none crashes. -/
theorem Part.leave_moves (p : Part) (hi : i ≤ b.size) : b.Moves i (p.leave b i) := by
  cases p with
  | symbol c => exact moves_of_at hi (expect_tracks c hi) (expect_advances c _)
  | keyword kw h => exact moves_of_at hi (keyword_tracks kw hi) (keyword_advances h _)
  | temp => exact temp_moves hi
  | type => exact moves_of_both hi (type_tracks hi) (type_advances _)
  | unsigned => exact moves_of_both hi (unsigned_tracks hi) (unsigned_advances _)
  | number => exact moves_of_both hi (number_tracks hi) (number_advances _)
  | parenthesized => exact moves_of_both hi (parenthesized_tracks hi) (parenthesized_advances _)
  | jumpKind => exact moves_of_both hi (jumpKind_tracks hi) (jumpKind_advances _)
  | constant => exact moves_of_both hi (constant_tracks hi) (constant_advances _)
  | touch => exact moves_of_both hi (touch_tracks hi) (touch_advances _)
  | argList =>
    exact moves_of_both hi (argList_tracks expr_tracks hi)
      (Reader.args_advances Reader.expr_advances _)
  | args n => exact args_moves n hi
  | window => exact moves_of_both hi (window_tracks hi) (Reader.window_advances _)
  | indexed =>
    exact moves_of_both hi (indexed_tracks expr_tracks hi)
      (Reader.indexed_advances Reader.expr_advances _)
  | expr => exact moves_of_both hi (expr_tracks hi) (Reader.expr_advances _)
  | rhs => exact moves_of_both hi (rhs_tracks hi) (Reader.rhs_advances _)
  | effect result =>
    exact moves_of_both hi (effect_tracks result hi) (Reader.effect_advances result _)
  | definition => exact definition_moves hi
  | exit => exact moves_of_both hi (exit_tracks hi) (Reader.exit_advances _)
  | mark => exact moves_of_both hi (mark_tracks hi) (Reader.mark_advances _)
  | stmt => exact moves_of_both hi (stmt_tracks hi) (Reader.stmt_advances _)
  | declaration n => exact declaration_moves n hi
  | jump temps => exact moves_of_both hi (jump_tracks temps hi) (Reader.jump_advances temps _)
  | body temps k =>
    exact moves_of_both hi (body_tracks _ temps k hi) (Reader.body_advances _ temps k _)
  | block => exact moves_of_both hi (block_tracks hi) (Reader.block_advances _)

end Buffer

/-! ## Places -/

namespace Located

/-- `e` names the offset `i` of `t`: the line breaks before it are those of `lines`, and `line` is
what stands between the last of them and the offset. -/
def Names (e : Located) (t : Input) (i : Nat) : Prop :=
  i ≤ t.length ∧ ∃ lines line, t.take i = lines ++ line ∧ 10 ∉ line ∧
    (lines = [] ∨ lines.getLast? = some 10) ∧ e.line = lines.count 10 + 1 ∧ e.col = line.length + 1

/-- The bytes behind the last line break, from the end. -/
theorem Names.takeWhile_reverse {e : Located} {t : Input} {i : Nat} (h : e.Names t i) :
    e.line = (t.take i).count 10 + 1 ∧
      e.col = ((t.take i).reverse.takeWhile (· != 10)).length + 1 := by
  obtain ⟨-, lines, line, hsplit, hline, hend, hl, hc⟩ := h
  have hcount : line.count 10 = 0 := List.count_eq_zero.mpr hline
  have hall : ∀ b ∈ line.reverse, (b != 10) = true := by
    intro b hb
    rw [List.mem_reverse] at hb
    exact bne_iff_ne.mpr fun heq => hline (heq ▸ hb)
  have hstop : lines.reverse.takeWhile (· != 10) = [] := by
    rcases hend with rfl | hlast
    · rfl
    · rw [← List.head?_reverse] at hlast
      obtain ⟨r, hr⟩ := List.head?_eq_some_iff.mp hlast
      rw [hr, List.takeWhile_cons_of_neg (by decide)]
  rw [hsplit, List.count_append, hcount, List.reverse_append, List.takeWhile_append_of_pos hall,
    hstop, List.append_nil, List.length_reverse]
  exact ⟨hl, hc⟩

/-- A line and a column name one offset only. -/
theorem Names.unique {e : Located} {t : Input} {i j : Nat} (hi : e.Names t i) (hj : e.Names t j) :
    i = j := by
  wlog hle : i ≤ j generalizing i j
  · exact (this hj hi (by omega)).symm
  obtain ⟨hline, hcol⟩ := hi.takeWhile_reverse
  obtain ⟨hline', hcol'⟩ := hj.takeWhile_reverse
  -- no line break stands between the two, so the column of the second is larger by their distance
  have hsplit : t.take j = t.take i ++ (t.take j).drop i := by
    conv_lhs => rw [← List.take_append_drop i (t.take j)]
    rw [List.take_take, Nat.min_eq_left hle]
  have hnone : 10 ∉ (t.take j).drop i := by
    rw [hsplit, List.count_append] at hline'
    exact List.count_eq_zero.mp (by omega)
  have hall : ∀ b ∈ ((t.take j).drop i).reverse, (b != 10) = true := by
    intro b hb
    rw [List.mem_reverse] at hb
    exact bne_iff_ne.mpr fun heq => hnone (heq ▸ hb)
  rw [hsplit, List.reverse_append, List.takeWhile_append_of_pos hall, List.length_append,
    List.length_reverse, List.length_drop, List.length_take] at hcol'
  have hlen := hj.1
  omega

/-- A stop in a text is named by its offset. -/
theorem ofStop_names {t : Input} {e : Stop} (h : e.rest <:+ t) :
    (ofStop t e).Names t (t.length - e.rest.length) := by
  have hlen := h.length_le
  set u := (t.take (t.length - e.rest.length)).reverse with hu
  have hsplit : t.take (t.length - e.rest.length) =
      (u.dropWhile (· != 10)).reverse ++ (u.takeWhile (· != 10)).reverse := by
    rw [← List.reverse_append, List.takeWhile_append_dropWhile, hu, List.reverse_reverse]
  have hline : 10 ∉ (u.takeWhile (· != 10)).reverse := by
    rw [List.mem_reverse]
    intro hmem
    exact absurd (List.mem_takeWhile_imp hmem) (by decide)
  refine ⟨by omega, _, _, hsplit, hline, ?_, ?_, ?_⟩
  · cases hdrop : u.dropWhile (· != 10) with
    | nil => exact .inl rfl
    | cons b r =>
      have hb := List.head?_dropWhile_not (· != 10) u
      rw [hdrop] at hb
      simp only [List.head?_cons] at hb
      right
      simpa using hb
  · rw [ofStop, hsplit, List.count_append, List.count_eq_zero.mpr hline]
  · rw [ofStop, List.length_reverse]

end Located

namespace Block

/-- What is left of a text behind its first `k` blocks, if they can be read. -/
def after : Nat → Input → Option Input
  | 0, s => some s
  | k + 1, s =>
    match Reader.block (skip s) with
    | .error _ => none
    | .ok (_, r) => after k r

/-- An error in the block with number `k` is where the reader of blocks stops, behind the blocks
before it. -/
theorem readFrom_error {t : Input} {n i : Nat} {s : Input} {k : Nat} {e : Located}
    (h : readFrom t n i s = .error (k, e)) :
    ∃ j r stop, k = i + j ∧ after j s = some r ∧ Reader.block (skip r) = .error stop ∧
      e = .ofStop t stop := by
  induction n generalizing i s with
  | zero => cases h
  | succ n ih =>
    rw [readFrom] at h
    split at h
    · cases h
    · split at h
      · next stop hstop =>
        obtain ⟨rfl, rfl⟩ := Prod.mk.inj (Except.error.inj h)
        exact ⟨0, s, stop, rfl, rfl, hstop, rfl⟩
      · next b r hb =>
        cases hrest : readFrom t n (i + 1) r with
        | ok bs =>
          rw [hrest] at h
          cases h
        | error e' =>
          rw [hrest] at h
          obtain rfl := Except.error.inj h
          obtain ⟨j, u, stop, rfl, hu, hstop, rfl⟩ := ih hrest
          refine ⟨j + 1, u, stop, by omega, ?_, hstop, rfl⟩
          rw [after, hb]
          exact hu

theorem readFrom_nil (t : Input) (n i : Nat) : readFrom t n i [] = .ok [] := by
  cases n with
  | zero => rfl
  | succ n => rfl

theorem readFrom_congr (t : Input) {s : Input} {n m : Nat} (hn : s.length ≤ n)
    (hm : s.length ≤ m) (i : Nat) : readFrom t n i s = readFrom t m i s := by
  induction n generalizing m s i with
  | zero =>
    obtain rfl := List.length_eq_zero_iff.mp (Nat.le_zero.mp hn)
    rw [readFrom_nil, readFrom_nil]
  | succ n ih =>
    cases m with
    | zero =>
      obtain rfl := List.length_eq_zero_iff.mp (Nat.le_zero.mp hm)
      rw [readFrom_nil, readFrom_nil]
    | succ m =>
      rw [readFrom, readFrom]
      split
      · rfl
      · split
        · rfl
        · next b r hb =>
          have hr := ((Reader.block_advances _).beyond _ hb).trans_suffix (skip_suffix s)
          have hlt : r.length < s.length := hr.length_lt
          rw [ih (by omega) (by omega : r.length ≤ m)]

theorem read_error {t : Input} {e : Located} (h : read t = .error e) :
    ∃ stop : Stop, stop.rest <:+ t ∧ e = .ofStop t stop := by
  rw [read] at h
  split at h
  · next stop hstop =>
    exact ⟨stop, (Reader.block_advances t).stop stop hstop, (Except.error.inj h).symm⟩
  · next b r hb =>
    have hr : r <:+ t := ((Reader.block_advances t).beyond _ hb).suffix
    split at h
    · cases h
    · exact ⟨_, (skip_suffix r).trans hr, (Except.error.inj h).symm⟩

end Block

namespace Buffer

/-- The index behind the first `k` blocks from index `i` on. -/
def behind (b : Buffer) : Nat → Nat → Scan Nat
  | 0, i => .ok i
  | k + 1, i => do
    let i ← b.skip i
    let (_, j) ← b.block i
    b.behind k j

variable {b : Buffer} {i : Nat}

theorem behind_of_after {k : Nat} {r : Input} (hi : i ≤ b.size)
    (h : Block.after k (b.rest i) = some r) :
    ∃ j, b.behind k i = .ok j ∧ j ≤ b.size ∧ r = b.rest j := by
  induction k generalizing i with
  | zero => exact ⟨i, rfl, hi, (Option.some.inj h).symm⟩
  | succ k ih =>
    obtain ⟨l, hl, -, hle, hskip⟩ := skip_eq (ε := Refusal) hi
    have htracks : Tracks b b.Both (b.block l) (Reader.block (b.rest l)) := block_tracks hle
    rw [Block.after, hskip] at h
    rw [behind, hl, ok_bind]
    generalize b.block l = x at htracks
    generalize Reader.block (b.rest l) = y at htracks h
    cases htracks with
    | stop e hj => cases h
    | @ok x y hxy =>
      obtain ⟨-, hj, hrest⟩ := hxy
      simp only [hrest] at h
      exact ih hj h

/-- An error in the block with number `k` is named by an offset behind the blocks before it. -/
theorem readAll_error {k : Nat} {e : Located} (h : Block.readAll b.toList = .error (k, e)) :
    ∃ j l, b.behind k 0 = .ok j ∧ j ≤ l ∧ e.Names b.toList l := by
  obtain ⟨k, r, stop, rfl, hafter, hstop, rfl⟩ := Block.readFrom_error h
  obtain ⟨j, hbehind, hj, rfl⟩ := behind_of_after (Nat.zero_le _) hafter
  have hrest := ((Reader.block_advances _).stop stop hstop).trans (skip_suffix _)
  have hlen := hrest.length_le
  rw [length_rest] at hlen
  have hsuffix : b.rest j <:+ b.toList := List.drop_suffix _ _
  refine ⟨j, _, by rwa [Nat.zero_add], ?_, Located.ofStop_names (hrest.trans hsuffix)⟩
  rw [Array.length_toList]
  omega

/-- A word ends behind the index where it is looked for, and beyond it unless there is none. -/
theorem word_moves (hi : i ≤ b.size) :
    ∃ w j, b.word i = .ok (w, j) ∧ i ≤ j ∧ j ≤ b.size ∧ (w ≠ "" → i < j) := by
  obtain ⟨w, j, hbuf, hlex, hj⟩ := word_eq hi
  exact ⟨w, j, hbuf, le_of_suffix hi hj (word_suffix hlex), hj,
    fun hne => lt_of_beyond (word_beyond hlex hne)⟩

end Buffer

/-- A buffer is read in full, or refused at a place in it, and reading it never goes beyond its end.
A reader that is called at an index stops at that index or behind it, and moves forward if it
succeeds, so an error in a block is located at the end of the block before it or behind that. No
bound on the number of steps cuts a reading short. What is read is what is read of the text as a
list. -/
theorem readers_stay_in_text (b : Buffer) :
    ((∃ x, b.read = .ok x) ∨ ∃ e, b.read = .error (.stop e) ∧ ∃! i, e.Names b.toList i) ∧
    ((∃ xs, b.readAll = .ok xs) ∨
      ∃ k e j, b.readAll = .error (.stop (k, e)) ∧ (∃! i, e.Names b.toList i) ∧
        b.behind k 0 = .ok j ∧ ∀ i, e.Names b.toList i → j ≤ i) ∧
    (∀ i ≤ b.size, ∀ p : Buffer.Part,
      (∃ j, p.leave b i = .ok j ∧ i < j ∧ j ≤ b.size) ∨
        ∃ j e, p.leave b i = .error (.stop ⟨j, e⟩) ∧ i ≤ j ∧ j ≤ b.size) ∧
    (∀ i ≤ b.size, ∃ w j, b.word i = .ok (w, j) ∧ i ≤ j ∧ j ≤ b.size ∧ (w ≠ "" → i < j)) ∧
    (∀ i ≤ b.size, ∀ n, b.size - i ≤ n →
      b.exprUpTo n i = b.expr i ∧
      (∀ k, b.argsFrom b.expr n k i = b.argsFrom b.expr (b.size - i) k i) ∧
      (∀ e, b.attributes n e i = b.attributes (b.size - i) e i) ∧
      (∀ temps k, b.body n temps k i = b.body (b.size - i) temps k i) ∧
      ∀ k, b.readFrom n k i = b.readFrom (b.size - i) k i) ∧
    b.read = (Block.read b.toList).mapError .stop ∧
    b.readAll = (Block.readAll b.toList).mapError .stop := by
  refine ⟨?_, ?_, fun i hi p => p.leave_moves hi, fun i hi => Buffer.word_moves hi, ?_,
    b.read_eq, b.readAll_eq⟩
  · rw [b.read_eq]
    cases hread : Block.read b.toList with
    | ok x => exact .inl ⟨x, rfl⟩
    | error e =>
      obtain ⟨stop, hstop, rfl⟩ := Block.read_error hread
      have hnames := Located.ofStop_names hstop
      exact .inr ⟨_, rfl, _, hnames, fun _ h => h.unique hnames⟩
  · rw [b.readAll_eq]
    cases hread : Block.readAll b.toList with
    | ok xs => exact .inl ⟨xs, rfl⟩
    | error ke =>
      obtain ⟨j, l, hbehind, hle, hnames⟩ := Buffer.readAll_error hread
      refine .inr ⟨ke.1, ke.2, j, rfl, ⟨l, hnames, fun _ h => h.unique hnames⟩, hbehind, ?_⟩
      intro i hi
      rwa [hi.unique hnames]
  · intro i hi n hn
    have hlen := b.length_rest i
    refine ⟨?_, fun k => ?_, fun e => ?_, fun temps k => ?_, fun k => ?_⟩
    · have hexpr := Buffer.exprUpTo_tracks n hi
      rw [Reader.exprUpTo_eq (by omega)] at hexpr
      exact Buffer.eq_of_tracks hexpr (Buffer.expr_tracks hi)
    · have hargs := Buffer.argsFrom_tracks Buffer.expr_tracks n k hi
      rw [Reader.argsFrom_congr Reader.expr_operands Reader.expr_operands (fun _ _ => rfl)
        (by omega) (le_of_eq hlen) k] at hargs
      exact Buffer.eq_of_tracks hargs (Buffer.argsFrom_tracks Buffer.expr_tracks _ k hi)
    · have hattributes := Buffer.attributes_tracks n e hi
      rw [Reader.attributes_congr (by omega) (le_of_eq hlen) e] at hattributes
      exact Buffer.eq_of_tracks hattributes (Buffer.attributes_tracks _ e hi)
    · have hbody := Buffer.body_tracks n temps k hi
      rw [Reader.body_congr (by omega) (le_of_eq hlen) temps k] at hbody
      exact Buffer.eq_of_tracks hbody (Buffer.body_tracks _ temps k hi)
    · rw [Buffer.readFrom_eq n k hi, Buffer.readFrom_eq _ k hi,
        Block.readFrom_congr _ (by omega) (le_of_eq hlen)]

/-- Two blocks, the second of which ends without a jump. -/
def cutShort : Buffer :=
  (bytesOf "IRBlock \x7bgoto \x7bBoring\x7d 0x0:U64 \x7d\nIRBlock \x7bNoOp \x7d").toArray

theorem readers_stay_in_text_cutShort :
    cutShort.readAll = .error (.stop (1, ⟨2, 15, .stmtExpected⟩)) ∧
      ∃ j, cutShort.behind 1 0 = .ok j ∧
        ∀ i, Located.Names ⟨2, 15, .stmtExpected⟩ cutShort.toList i → j ≤ i := by
  have hlist : Block.readAll cutShort.toList = .error (1, ⟨2, 15, .stmtExpected⟩) := by rfl
  have hread : cutShort.readAll = .error (.stop (1, ⟨2, 15, .stmtExpected⟩)) := by
    rw [Buffer.readAll_eq, hlist]
    rfl
  refine ⟨hread, ?_⟩
  obtain ⟨-, hall, -⟩ := readers_stay_in_text cutShort
  rw [hread] at hall
  rcases hall with ⟨xs, hxs⟩ | ⟨k, e, j, he, -, hbehind, hle⟩
  · cases hxs
  · obtain ⟨rfl, rfl⟩ := Prod.mk.inj (Halt.stop.inj (Except.error.inj he))
    exact ⟨j, hbehind, hle⟩

end Straightline
