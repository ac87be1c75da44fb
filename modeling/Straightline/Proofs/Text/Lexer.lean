import Mathlib
import Straightline.Proofs.Text.Numeral
import Straightline.Text.Printer
import Straightline.Text.Reader

/-!
# Words and marks read back

The readers of words, numbers, names and constants give back what was written, and stop right behind
it. A word ends where no byte of a word follows, so what stands behind a written word has to satisfy
`EndsWord`. For a closed mark that is decided.
-/

namespace Straightline

/-! ## Bytes -/

theorem bytesOf_append (s t : String) : bytesOf (s ++ t) = bytesOf s ++ bytesOf t := by
  simp [bytesOf, String.toByteArray_append]

theorem bytesOf_ofList (cs : List Char) :
    bytesOf (String.ofList cs) = cs.flatMap String.utf8EncodeChar := by
  simp [bytesOf, List.utf8Encode]

namespace Lexer

/-- The characters of words. -/
def isWordChar (c : Char) : Bool := c.isAlphanum || c == '_'

/-- Words: letters, digits and underscores, at least one. -/
def IsWord (w : String) : Prop := w ≠ "" ∧ w.toList.all isWordChar = true

instance (w : String) : Decidable (IsWord w) := inferInstanceAs (Decidable (_ ∧ _))

/-- No byte of a word comes next. -/
def EndsWord (s : Input) : Prop := ∀ b, s.head? = some b → isWordByte b = false

theorem endsWord_cons {b : UInt8} {s : Input} : EndsWord (b :: s) ↔ isWordByte b = false := by
  simp [EndsWord]

/-! ## Words -/

theorem val_le_of_isWordChar {c : Char} (h : isWordChar c = true) : c.val ≤ 127 := by
  simp only [isWordChar, Char.isAlphanum, Char.isAlpha, Char.isUpper, Char.isLower, Char.isDigit,
    Bool.or_eq_true, Bool.and_eq_true, decide_eq_true_eq, beq_iff_eq] at h
  rcases h with ((h | h) | h) | rfl
  · exact UInt32.le_trans h.2 (by decide)
  · exact UInt32.le_trans h.2 (by decide)
  · exact UInt32.le_trans h.2 (by decide)
  · decide

/-- A character of a word is one byte, a byte of a word that stands for it. -/
theorem byte_of_isWordChar {c : Char} (h : isWordChar c = true) :
    String.utf8EncodeChar c = [c.toUInt8] ∧ isWordByte c.toUInt8 = true ∧
      Char.ofNat c.toUInt8.toNat = c := by
  have hle := val_le_of_isWordChar h
  have hnat : c.toNat ≤ 127 := UInt32.le_iff_toNat_le.mp hle
  have hbyte : c.toUInt8.toNat = c.toNat := by
    rw [Char.toUInt8, UInt32.toNat_toUInt8]
    exact Nat.mod_eq_of_lt (by simp only [Char.toNat] at hnat; omega)
  refine ⟨?_, ?_, by rw [hbyte, Char.ofNat_toNat]⟩
  · exact String.utf8EncodeChar_eq_singleton (Char.utf8Size_eq_one_iff.mpr hle)
  · -- characters and bytes of words are told apart by their codes, so each code is looked at
    have hall : ∀ k ≤ 127, isWordChar (Char.ofNat k) = true → isWordByte (.ofNat k) = true := by
      decide
    have hself := hall c.toNat hnat (by rwa [Char.ofNat_toNat])
    have heq : UInt8.ofNat c.toNat = c.toUInt8 := by
      rw [← UInt8.toNat_inj, hbyte]
      simp only [UInt8.toNat_ofNat']
      omega
    rwa [heq] at hself

theorem not_isBlank_of_isWordByte {b : UInt8} (h : isWordByte b = true) : isBlank b = false := by
  by_contra hb
  simp only [Bool.not_eq_false, isBlank, Bool.or_eq_true, beq_iff_eq] at hb
  rcases hb with ((rfl | rfl) | rfl) | rfl <;> exact absurd h (by decide)

theorem bytesOf_word {cs : List Char} (h : ∀ c ∈ cs, isWordChar c = true) :
    bytesOf (String.ofList cs) = cs.map Char.toUInt8 := by
  rw [bytesOf_ofList]
  induction cs with
  | nil => rfl
  | cons c cs ih =>
    rw [List.forall_mem_cons] at h
    rw [List.flatMap_cons, (byte_of_isWordChar h.1).1, ih h.2]
    rfl

theorem ascii_map {cs : List Char} (h : ∀ c ∈ cs, isWordChar c = true) :
    ascii (cs.map Char.toUInt8) = String.ofList cs := by
  rw [ascii, List.map_map]
  congr 1
  conv_rhs => rw [← List.map_id cs]
  exact List.map_congr_left fun c hc => (byte_of_isWordChar (h c hc)).2.2

/-- The bytes of a word are bytes of words. -/
theorem IsWord.exists_bytes {w : String} (h : IsWord w) :
    ∃ b bs, bytesOf w = b :: bs ∧ (∀ x ∈ b :: bs, isWordByte x = true) ∧ ascii (b :: bs) = w := by
  obtain ⟨hne, hall⟩ := h
  rw [List.all_eq_true] at hall
  have hw : String.ofList w.toList = w := String.ofList_toList
  have hbytes : bytesOf w = w.toList.map Char.toUInt8 := by
    rw [← bytesOf_word hall, hw]
  have hcons : w.toList ≠ [] := by
    intro hnil
    exact hne (by rw [← hw, hnil])
  obtain ⟨c, cs, hcs⟩ := List.exists_cons_of_ne_nil hcons
  refine ⟨c.toUInt8, cs.map Char.toUInt8, by rw [hbytes, hcs]; rfl, ?_, ?_⟩
  · intro x hx
    rw [← List.map_cons, ← hcs] at hx
    obtain ⟨d, hd, rfl⟩ := List.mem_map.mp hx
    exact (byte_of_isWordChar (hall d hd)).2.1
  · rw [← List.map_cons, ← hcs, ascii_map hall, hw]

theorem skip_cons {b : UInt8} {s : Input} (h : isBlank b = false) : skip (b :: s) = b :: s := by
  simp [skip, List.dropWhile, h]

theorem skip_blank {b : UInt8} {s : Input} (h : isBlank b = true) : skip (b :: s) = skip s := by
  simp [skip, List.dropWhile, h]

/-- A written word has no blanks in front. -/
theorem IsWord.skip {w : String} (h : IsWord w) (r : Input) :
    skip (bytesOf w ++ r) = bytesOf w ++ r := by
  obtain ⟨b, bs, hbs, hall, -⟩ := h.exists_bytes
  rw [hbs, List.cons_append, skip_cons (not_isBlank_of_isWordByte (hall b List.mem_cons_self))]

/-- A written word is read back. -/
theorem IsWord.word {w : String} (h : IsWord w) {r : Input} (hr : EndsWord r) :
    word (bytesOf w ++ r) = (w, r) := by
  obtain ⟨b, bs, hbs, hall, hascii⟩ := h.exists_bytes
  -- the scan takes the whole word, and nothing of what follows
  have hstop : r.takeWhile isWordByte = [] ∧ r.dropWhile isWordByte = r := by
    cases r with
    | nil => exact ⟨rfl, rfl⟩
    | cons x r =>
      have hx := hr x rfl
      simp [hx]
  rw [Lexer.word, h.skip, hbs, List.takeWhile_append_of_pos hall, List.dropWhile_append_of_pos hall,
    hstop.1, hstop.2, List.append_nil, hascii]

theorem word_blank {b : UInt8} {s : Input} (h : isBlank b = true) : word (b :: s) = word s := by
  rw [word, word, skip_blank h]

/-! ## Marks -/

theorem eat_cons (c : Char) (s : Input) : eat c (c.toUInt8 :: s) = some s := by
  simp [eat]

theorem eat_of_ne {c : Char} {b : UInt8} {s : Input} (h : b ≠ c.toUInt8) :
    eat c (b :: s) = none := by
  simp [eat, h]

theorem expect_cons {c : Char} {s : Input} (h : isBlank c.toUInt8 = false) :
    expect c (c.toUInt8 :: s) = .ok s := by
  rw [expect, skip_cons h, eat_cons]

theorem expect_blank {c : Char} {b : UInt8} {s : Input} (h : isBlank b = true) :
    expect c (b :: s) = expect c s := by
  rw [expect, expect, skip_blank h]

theorem expectHere_cons (c : Char) (s : Input) : expectHere c (c.toUInt8 :: s) = .ok s := by
  rw [expectHere, eat_cons]

theorem IsWord.keyword {kw : String} (h : IsWord kw) {r : Input} (hr : EndsWord r) :
    keyword kw (bytesOf kw ++ r) = .ok r := by
  rw [Lexer.keyword, h.word hr]
  simp

theorem keyword_blank {kw : String} {b : UInt8} {s : Input} (h : isBlank b = true) :
    keyword kw (b :: s) = keyword kw s := by
  rw [keyword, keyword, word_blank h, skip_blank h]

/-! ## Numbers -/

theorem isWordChar_digitChar : ∀ d < 16, isWordChar d.digitChar = true := by decide

theorem isWord_toDigits {base n : Nat} (hb : 1 < base) (hbase : base ≤ 16) :
    IsWord (String.ofList (Nat.toDigits base n)) := by
  refine ⟨?_, List.all_eq_true.mpr fun c hc => ?_⟩
  · intro hempty
    have hnil := congrArg String.toList hempty
    rw [String.toList_ofList] at hnil
    exact Nat.toDigits_ne_nil hnil
  · rw [String.toList_ofList] at hc
    obtain ⟨d, hd, rfl⟩ := Numeral.exists_of_mem_toDigits hb hc
    exact isWordChar_digitChar d (by omega)

theorem isWord_hex (v : UInt64) : IsWord (Numeral.hex v) := by
  obtain ⟨-, hdigits⟩ := isWord_toDigits (n := v.toNat) (by decide : 1 < 16) (Nat.le_refl 16)
  refine ⟨?_, ?_⟩
  · intro hempty
    have hnil := congrArg String.toList hempty
    simp [Numeral.hex] at hnil
  · rw [Numeral.hex, String.toList_append, List.all_append, hdigits]
    rfl

theorem unsigned_hex (v : UInt64) {r : Input} (hr : EndsWord r) :
    unsigned (bytesOf (Numeral.hex v) ++ r) = .ok (v, r) := by
  rw [unsigned, (isWord_hex v).word hr]
  simp only [Numeral.read_hex]

/-- A number that is not negative is its digits. -/
theorem decimal_of_nonneg {n : Int} (h : 0 ≤ n) :
    Numeral.decimal n = String.ofList (Nat.toDigits 10 n.toNat) := by
  rw [Numeral.decimal, Int.toString_eq_repr, Int.repr_eq_if, if_pos h, Nat.repr_eq_ofList_toDigits]

theorem decimal_of_neg {n : Int} (h : n < 0) :
    Numeral.decimal n = "-" ++ String.ofList (Nat.toDigits 10 (-n).toNat) := by
  rw [Numeral.decimal, Int.toString_eq_repr, Int.repr_eq_if, if_neg (Int.not_le.mpr h),
    Nat.repr_eq_ofList_toDigits]

/-- Digits are read as the word that they denote. -/
theorem read_digits {k : Nat} (hk : k < 2 ^ 64) :
    Numeral.read (String.ofList (Nat.toDigits 10 k)) = .ok (.ofNat k) := by
  have h := Numeral.read_toDigits (.ofNat k)
  have hnat : (UInt64.ofNat k).toNat = k := by
    rw [UInt64.toNat_ofNat']
    exact Nat.mod_eq_of_lt hk
  rwa [hnat] at h

/-- A number is read back. -/
theorem number_decimal (n : Int64) {r : Input} (hr : EndsWord r) :
    number (bytesOf (Numeral.decimal n.toInt) ++ r) = .ok (n, r) := by
  have hlo := n.le_toInt
  have hhi := n.toInt_lt
  have hword {k : Nat} : IsWord (String.ofList (Nat.toDigits 10 k)) :=
    isWord_toDigits (by decide) (by decide)
  by_cases hn : 0 ≤ n.toInt
  · -- the first byte is a digit and no sign
    obtain ⟨b, bs, hbs, hall, -⟩ := (hword (k := n.toInt.toNat)).exists_bytes
    have hminus : b ≠ '-'.toUInt8 := by
      rintro rfl
      exact absurd (hall _ List.mem_cons_self) (by decide)
    have heat (s : Input) : eat '-' (skip (bytesOf (String.ofList
        (Nat.toDigits 10 n.toInt.toNat)) ++ s)) = none := by
      rw [hword.skip, hbs]
      exact eat_of_ne hminus
    rw [decimal_of_nonneg hn, number, heat]
    simp only [hword.word hr, read_digits (by omega : n.toInt.toNat < 2 ^ 64)]
    have hval : (UInt64.ofNat n.toInt.toNat).toInt64 = n := by
      rw [UInt64.toInt64_ofNat', ← Int64.ofInt_eq_ofNat, Int.toNat_of_nonneg hn, Int64.ofInt_toInt]
    simp only [hval, Bool.false_eq_true, if_false]
  · -- the digits of the least number are past the signed words: they wrap to it, and so does
    -- its negation
    have hneg : n.toInt < 0 := Int.not_le.mp hn
    rw [decimal_of_neg hneg, bytesOf_append, List.append_assoc]
    have heat : ∀ s, eat '-' (skip (bytesOf "-" ++ s)) = some s := by
      intro s
      rw [show bytesOf "-" = ['-'.toUInt8] from rfl, List.singleton_append, skip_cons (by decide),
        eat_cons]
    rw [number, heat]
    simp only [hword.word hr, read_digits (by omega : (-n.toInt).toNat < 2 ^ 64)]
    have hval : -(UInt64.ofNat (-n.toInt).toNat).toInt64 = n := by
      rw [UInt64.toInt64_ofNat', ← Int64.ofInt_eq_ofNat, Int.toNat_of_nonneg (by omega),
        Int64.ofInt_neg, Int64.ofInt_toInt, Int64.neg_neg]
    simp only [hval, if_true]

theorem parenthesized_decimal (n : Int64) (r : Input) :
    parenthesized ('('.toUInt8 :: (bytesOf (Numeral.decimal n.toInt) ++ ')'.toUInt8 :: r)) =
      .ok (n, r) := by
  simp +decide only [parenthesized, bind, Except.bind, expect_cons, number_decimal, endsWord_cons]

/-! ## Names -/

theorem ty_name {T : Ty} (h : T ≠ .invalid) : IsWord T.name ∧ Ty.ofName? T.name = some T := by
  cases T with
  | invalid => exact absurd rfl h
  | _ => exact ⟨⟨by decide, rfl⟩, rfl⟩

theorem type_name {T : Ty} (h : T ≠ .invalid) {r : Input} (hr : EndsWord r) :
    type (bytesOf T.name ++ r) = .ok (T, r) := by
  obtain ⟨hword, hname⟩ := ty_name h
  rw [type, hword.word hr]
  simp only [hname]

theorem tag_name {t : Tag} (h : t ≠ .invalid) : IsWord t.name ∧ Tag.ofName? t.name = some t := by
  cases t with
  | invalid => exact absurd rfl h
  | _ => exact ⟨⟨by decide, rfl⟩, rfl⟩

theorem bytesOf_constText (c : Const) (r : Input) :
    bytesOf (Expr.constText c) ++ r =
      bytesOf (Numeral.hex c.bits) ++ ':'.toUInt8 :: (bytesOf c.tag.name ++ r) := by
  rw [Expr.constText, bytesOf_append, bytesOf_append, List.append_assoc, List.append_assoc]
  rfl

/-- A constant that fits its tag is read back. -/
theorem constant_text {c : Const} (htag : c.tag ≠ .invalid) (hfits : c.fits = true) {r : Input}
    (hr : EndsWord r) : constant (bytesOf (Expr.constText c) ++ r) = .ok (c, r) := by
  obtain ⟨hword, hname⟩ := tag_name htag
  rw [bytesOf_constText, constant, unsigned_hex _ (endsWord_cons.mpr (by decide))]
  simp only [bind, Except.bind, eat_cons, hword.word hr, hname, hfits, if_true]

theorem constant_blank {b : UInt8} {s : Input} (h : isBlank b = true) :
    constant (b :: s) = constant s := by
  rw [constant, constant, unsigned, unsigned, word_blank h, skip_blank h]

theorem kind_name {k : JumpKind} (h : k.isValid = true) :
    IsWord k.name ∧ JumpKind.ofName? k.name = some k := by
  cases k with
  | other i => exact nomatch h
  | _ => exact ⟨⟨by decide, rfl⟩, rfl⟩

theorem jumpKind_text {k : JumpKind} (h : k.isValid = true) (r : Input) :
    jumpKind ('\x7b'.toUInt8 :: (bytesOf k.name ++ '\x7d'.toUInt8 :: r)) = .ok (k, r) := by
  obtain ⟨hword, hname⟩ := kind_name h
  simp +decide only [jumpKind, bind, Except.bind, expect_cons, hword.word, hname, endsWord_cons]

theorem jumpKind_blank {b : UInt8} {s : Input} (h : isBlank b = true) :
    jumpKind (b :: s) = jumpKind s := by
  rw [jumpKind, jumpKind, expect_blank h, skip_blank h]

theorem touch_text {t : Touch} (h : t ≠ .none) (hvalid : t.isValid = true) (r : Input) :
    touch (bytesOf t.name ++ ':'.toUInt8 :: r) = .ok (t, r) := by
  obtain ⟨hword, hname⟩ : IsWord t.name ∧ Touch.ofName? t.name = some t := by
    cases t with
    | other i => exact nomatch hvalid
    | _ => exact ⟨⟨by decide, rfl⟩, rfl⟩
  rw [touch, hword.word (endsWord_cons.mpr (by decide))]
  cases t with
  | none => exact absurd rfl h
  | _ => simp only [hname, expectHere_cons, bind, Except.bind]

/-! ## Keywords and temporaries -/

/-- The words that the language gives a meaning. -/
def keywords : List String :=
  ["IRBlock", "GET", "GETI", "LD", "CALL", "Select", "NoOp", "Fence", "Mark", "PUT", "PUTI", "ST",
    "EFFECT", "guard", "mem", "fx", "if", "goto"]

/-- Keywords are words that start like neither a temporary nor a constant. -/
theorem keyword_spec : ∀ w ∈ keywords,
    IsWord w ∧ tempDigits? w = none ∧ w.toList.head?.any isDigit = false := by decide +kernel

/-- The digits of a temporary. -/
def digitsOf (t : Temp) : List Char := Nat.toDigits 10 t.toInt.toNat

theorem tempText_eq {t : Temp} (h : 0 ≤ t.toInt) :
    Expr.tempText t = String.ofList ('t' :: digitsOf t) := by
  rw [Expr.tempText, decimal_of_nonneg h, ← String.toList_inj]
  simp [digitsOf]

theorem isWord_tempText {t : Temp} (h : 0 ≤ t.toInt) : IsWord (Expr.tempText t) := by
  obtain ⟨-, hdigits⟩ := isWord_toDigits (n := t.toInt.toNat) (by decide : 1 < 10) (by decide)
  rw [String.toList_ofList] at hdigits
  rw [tempText_eq h, IsWord, String.toList_ofList, List.all_cons, digitsOf, hdigits]
  refine ⟨?_, rfl⟩
  intro hempty
  have hnil := congrArg String.toList hempty
  simp at hnil

theorem all_isDigit (n : Nat) : (Nat.toDigits 10 n).all isDigit = true := by
  rw [List.all_eq_true]
  intro c hc
  obtain ⟨d, hd, rfl⟩ := Numeral.exists_of_mem_toDigits (by decide) hc
  have hall : ∀ d < 10, isDigit d.digitChar = true := by decide
  exact hall d hd

theorem tempDigits?_text {t : Temp} (h : 0 ≤ t.toInt) :
    tempDigits? (Expr.tempText t) = some (digitsOf t) := by
  obtain ⟨c, cs, hcs⟩ :=
    List.exists_cons_of_ne_nil (Nat.toDigits_ne_nil (n := t.toInt.toNat) (b := 10))
  have hall := all_isDigit t.toInt.toNat
  rw [hcs] at hall
  rw [tempText_eq h, tempDigits?, String.toList_ofList, digitsOf, hcs]
  simp only [hall, if_true]

theorem tempText_ne_keyword {t : Temp} (h : 0 ≤ t.toInt) {w : String} (hw : w ∈ keywords) :
    Expr.tempText t ≠ w := by
  rintro rfl
  have hnone := (keyword_spec _ hw).2.1
  rw [tempDigits?_text h] at hnone
  exact nomatch hnone

theorem tempOf_digits {t : Temp} (h : 0 ≤ t.toInt) (s : Input) : tempOf (digitsOf t) s = .ok t := by
  have hhi := t.toInt_lt
  have hlt : t.toInt.toNat < 0x80000000 := by omega
  have hval : Int32.ofNat t.toInt.toNat = t := by
    rw [← Int32.ofInt_eq_ofNat, Int.toNat_of_nonneg h, Int32.ofInt_toInt]
  rw [tempOf, digitsOf, Numeral.decimalValue_toDigits]
  simp only [hlt, if_true, hval]

end Lexer
end Straightline
