import Mathlib
import Straightline.Proofs.Text.Legible

/-!
# Expressions read back

The text of a legible expression is read as that expression, whatever separator comes behind it.
The induction is on the tree: `exprAt` is followed form by form, with operands that are read back
by the number of bytes one below.
-/

namespace Straightline

open Lexer

/-! ## Texts -/

namespace Expr

theorem bytesOf_argsText (ts : List String) (r : Input) :
    bytesOf (argsText ts) ++ r =
      '('.toUInt8 :: (bytesOf (",".intercalate ts) ++ ')'.toUInt8 :: r) := by
  rw [argsText, bytesOf_append, bytesOf_append, List.append_assoc, List.append_assoc]
  rfl

theorem endsWord_argsText (ts : List String) (r : Input) :
    EndsWord (bytesOf (argsText ts) ++ r) := by
  rw [bytesOf_argsText]
  exact endsWord_cons.mpr (by decide)

theorem bytesOf_intercalate (t u : String) (ts : List String) (r : Input) :
    bytesOf (",".intercalate (t :: u :: ts)) ++ r =
      bytesOf t ++ ','.toUInt8 :: (bytesOf (",".intercalate (u :: ts)) ++ r) := by
  rw [String.intercalate_cons_cons, bytesOf_append, bytesOf_append, List.append_assoc,
    List.append_assoc]
  rfl

theorem length_le_intercalate {t : String} {ts : List String} (h : t ∈ ts) :
    (bytesOf t).length ≤ (bytesOf (",".intercalate ts)).length := by
  induction ts with
  | nil => simp at h
  | cons u ts ih =>
    cases ts with
    | nil =>
      rw [List.mem_singleton] at h
      rw [String.intercalate_singleton, h]
    | cons v ts =>
      rw [String.intercalate_cons_cons, bytesOf_append, bytesOf_append, List.length_append,
        List.length_append]
      rcases List.mem_cons.mp h with rfl | h
      · omega
      · have hle := ih h
        omega

/-- There is a separator between any two texts. -/
theorem length_le_separated {sep : String} (hsep : (bytesOf sep).length = 1) (t : String)
    (ts : List String) : ts.length ≤ (bytesOf (sep.intercalate (t :: ts))).length := by
  induction ts generalizing t with
  | nil => exact Nat.zero_le _
  | cons u ts ih =>
    have hle := ih u
    rw [String.intercalate_cons_cons, bytesOf_append, bytesOf_append, List.length_append,
      List.length_append, List.length_cons]
    omega

theorem bytesOf_get (off : Int64) (ty : Ty) (r : Input) :
    bytesOf (get off ty).text ++ r = bytesOf "GET" ++ ':'.toUInt8 ::
      (bytesOf ty.name ++ '('.toUInt8 :: (bytesOf (Numeral.decimal off.toInt) ++
        ')'.toUInt8 :: r)) := by
  change bytesOf ("GET:" ++ ty.name ++ "(" ++ Numeral.decimal off.toInt ++ ")") ++ r = _
  simp only [bytesOf_append, List.append_assoc]
  rfl

theorem bytesOf_getIx (w : Window) (ix : Expr) (bias : Int64) (r : Input) :
    bytesOf (getIx w ix bias).text ++ r =
      bytesOf "GETI" ++ (bytesOf (indexedText w ix.text bias) ++ r) := by
  change bytesOf ("GETI" ++ indexedText w ix.text bias) ++ r = _
  rw [bytesOf_append, List.append_assoc]

theorem bytesOf_load (ty : Ty) (a : Expr) (r : Input) :
    bytesOf (load ty a).text ++ r = bytesOf "LD" ++ ':'.toUInt8 ::
      (bytesOf ty.name ++ (bytesOf (argsText [a.text]) ++ r)) := by
  change bytesOf ("LD:" ++ ty.name ++ argsText [a.text]) ++ r = _
  simp only [bytesOf_append, List.append_assoc]
  rfl

theorem bytesOf_call (callee : String) (ty : Ty) (args : List Expr) (r : Input) :
    bytesOf (call callee ty args).text ++ r = bytesOf "CALL" ++ ' '.toUInt8 ::
      (bytesOf callee ++ ':'.toUInt8 :: (bytesOf ty.name ++
        (bytesOf (argsText (texts args)) ++ r))) := by
  change bytesOf ("CALL " ++ callee ++ ":" ++ ty.name ++ argsText (texts args)) ++ r = _
  simp only [bytesOf_append, List.append_assoc]
  rfl

theorem bytesOf_select (c z x : Expr) (r : Input) :
    bytesOf (select c z x).text ++ r =
      bytesOf "Select" ++ (bytesOf (argsText [c.text, z.text, x.text]) ++ r) := by
  change bytesOf ("Select" ++ argsText [c.text, z.text, x.text]) ++ r = _
  rw [bytesOf_append, List.append_assoc]

theorem bytesOf_indexedText (w : Window) (t : String) (bias : Int64) (r : Input) :
    bytesOf (indexedText w t bias) ++ r =
      '('.toUInt8 :: (bytesOf (Numeral.decimal w.base.toInt) ++ ':'.toUInt8 ::
        (bytesOf (Numeral.decimal w.count.toInt ++ "x" ++ w.elem.name) ++ ')'.toUInt8 ::
        '['.toUInt8 :: (bytesOf t ++ ','.toUInt8 ::
        (bytesOf (Numeral.decimal bias.toInt) ++ ']'.toUInt8 :: r)))) := by
  simp only [indexedText, bytesOf_append, List.append_assoc]
  rfl

theorem endsWord_indexedText (w : Window) (t : String) (bias : Int64) (r : Input) :
    EndsWord (bytesOf (indexedText w t bias) ++ r) := by
  rw [bytesOf_indexedText]
  exact endsWord_cons.mpr (by decide)

end Expr

/-- The operators have names that start nothing else. -/
theorem op_names : ∀ op ∈ Op.table, IsWord op.name ∧ Op.ofName? op.name = some op ∧
    tempDigits? op.name = none ∧ op.name ∉ ["GET", "GETI", "LD", "CALL", "Select", "EFFECT"] := by
  decide +kernel

theorem mem_opTable {op : Op} (h : op.arity ≠ 0) : op ∈ Op.table := by
  cases op with
  | invalid => exact absurd rfl h
  | arith f w => cases f <;> cases w <;> decide
  | shift f w => cases f <;> cases w <;> decide
  | equal w | differ w | not w => cases w <;> decide
  | order32 o | order64 o => cases o <;> decide
  | convert c => cases c <;> decide
  | float f => cases f <;> decide
  | mullS32 | mullU32 | join32 | not1 | negF64 | bitsOfF64 | f64OfBits => decide

/-- The text `t` starts with the word `w`. -/
structure FirstWord (w t : String) : Prop where
  isWord : IsWord w
  split : ∀ r, EndsWord r → ∃ u, bytesOf t ++ r = bytesOf w ++ u ∧ EndsWord u

theorem FirstWord.word {w t : String} (h : FirstWord w t) {r : Input} (hr : EndsWord r) :
    (word (bytesOf t ++ r)).1 = w := by
  obtain ⟨u, hu, hsep⟩ := h.split r hr
  rw [hu, h.isWord.word hsep]

theorem FirstWord.length_pos {w t : String} (h : FirstWord w t) : 0 < (bytesOf t).length := by
  -- the first byte behind an empty text would have to be a byte of the word
  obtain ⟨u, hu, -⟩ := h.split [' '.toUInt8] (endsWord_cons.mpr (by decide))
  obtain ⟨b, bs, hbs, hall, -⟩ := h.isWord.exists_bytes
  by_contra hlen
  have hnil : bytesOf t = [] := List.length_eq_zero_iff.mp (by omega)
  rw [hnil, hbs, List.nil_append, List.cons_append, List.cons.injEq] at hu
  have hb := hall b List.mem_cons_self
  rw [← hu.1] at hb
  exact absurd hb (by decide)

/-- A text that starts with a word does not start with a mark. -/
theorem FirstWord.eat_skip {w t : String} (h : FirstWord w t) {r : Input} (hr : EndsWord r)
    {c : Char} (hc : isWordByte c.toUInt8 = false) : eat c (skip (bytesOf t ++ r)) = none := by
  obtain ⟨u, hu, -⟩ := h.split r hr
  obtain ⟨b, bs, hbs, hall, -⟩ := h.isWord.exists_bytes
  have hne : b ≠ c.toUInt8 := by
    rintro rfl
    rw [hall _ List.mem_cons_self] at hc
    exact Bool.noConfusion hc
  rw [hu, h.isWord.skip, hbs]
  exact eat_of_ne hne

namespace Reader

/-- The reader gives back the expression `e` from its text and stops behind it. -/
def ReadsBack (read : Input → Except Stop (Expr × Input)) (e : Expr) : Prop :=
  ∀ r, EndsWord r → read (bytesOf e.text ++ r) = .ok (e, r)

/-- An expression that starts with a word other than a temporary or a constant takes the form that
the word names. -/
theorem exprUpTo_word {w : String} (hw : IsWord w) (htemp : tempDigits? w = none) {r : Input}
    (hr : EndsWord r) (hconst : w.toList.head?.any isDigit = false ∨ eat ':' r = none) (n : Nat) :
    exprUpTo (n + 1) (bytesOf w ++ r) = exprAt (exprUpTo n) w (bytesOf w ++ r) r := by
  have hne : w.toList ≠ [] := by
    intro hnil
    exact hw.1 (String.toList_eq_nil_iff.mp hnil)
  obtain ⟨c, cs, hcs⟩ := List.exists_cons_of_ne_nil hne
  -- what starts with a digit is a constant only if a colon follows
  have hcond : (isDigit c && (eat ':' r).isSome) = false := by
    rcases hconst with hdigit | hcolon
    · rw [hcs] at hdigit
      simp only [List.head?_cons, Option.any_some] at hdigit
      rw [hdigit, Bool.false_and]
    · rw [hcolon, Option.isSome_none, Bool.and_false]
  rw [exprUpTo]
  simp only [hw.skip, hw.word hr, hcs, htemp, hcond, Bool.false_eq_true, if_false]

theorem exprUpTo_keyword {w : String} (hw : w ∈ keywords) {r : Input} (hr : EndsWord r) (n : Nat) :
    exprUpTo (n + 1) (bytesOf w ++ r) = exprAt (exprUpTo n) w (bytesOf w ++ r) r := by
  obtain ⟨hword, htemp, hdigit⟩ := keyword_spec w hw
  exact exprUpTo_word hword htemp hr (.inl hdigit) n

theorem exprUpTo_blank {b : UInt8} {s : Input} (h : isBlank b = true) (n : Nat) :
    exprUpTo n (b :: s) = exprUpTo n s := by
  cases n with
  | zero => rw [exprUpTo, exprUpTo, skip_blank h]
  | succ n => rw [exprUpTo, exprUpTo, skip_blank h]

/-! ## Argument lists -/

section Args

variable {read : Input → Except Stop (Expr × Input)}

theorem argsFrom_texts {e : Expr} {es : List Expr} (h : ∀ x ∈ e :: es, ReadsBack read x) {n : Nat}
    (hn : es.length < n) (k : Nat) (r : Input) :
    argsFrom read n k (bytesOf (",".intercalate (Expr.texts (e :: es))) ++ ')'.toUInt8 :: r) =
      .ok (e :: es, r) := by
  induction es generalizing e n k with
  | nil =>
    obtain ⟨n, rfl⟩ : ∃ m, n = m + 1 := ⟨n - 1, by omega⟩
    have he := h e List.mem_cons_self (')'.toUInt8 :: r) (endsWord_cons.mpr (by decide))
    have hcomma : eat ',' (skip (')'.toUInt8 :: r)) = none := by
      rw [skip_cons (by decide)]
      exact eat_of_ne (by decide)
    rw [Expr.texts, Expr.texts, String.intercalate_singleton, argsFrom, he]
    simp +decide only [within, bind, Except.bind, hcomma, expect_cons]
  | cons e' es ih =>
    obtain ⟨n, rfl⟩ : ∃ m, n = m + 1 := ⟨n - 1, by omega⟩
    rw [List.length_cons] at hn
    have hrest :=
      ih (fun x hx => h x (List.mem_cons_of_mem _ hx)) (by omega : es.length < n) (k + 1)
    rw [Expr.texts] at hrest
    rw [Expr.texts, Expr.texts, Expr.bytesOf_intercalate, argsFrom,
      h e List.mem_cons_self _ (endsWord_cons.mpr (by decide))]
    simp +decide only [within, bind, Except.bind, skip_cons, eat_cons, hrest]

/-- A list whose first argument starts with a word is not taken for an empty one. -/
theorem args_cons {e : Expr} {es : List Expr} (hhead : ∃ w, FirstWord w e.text) (r : Input) :
    args read (bytesOf (Expr.argsText (Expr.texts (e :: es))) ++ r) =
      argsFrom read (bytesOf (",".intercalate (Expr.texts (e :: es))) ++ ')'.toUInt8 :: r).length 0
        (bytesOf (",".intercalate (Expr.texts (e :: es))) ++ ')'.toUInt8 :: r) := by
  obtain ⟨w, hw⟩ := hhead
  have hclose : eat ')' (skip (bytesOf (",".intercalate (Expr.texts (e :: es))) ++
      ')'.toUInt8 :: r)) = none := by
    cases es with
    | nil =>
      rw [Expr.texts, Expr.texts, String.intercalate_singleton]
      exact hw.eat_skip (endsWord_cons.mpr (by decide)) (by decide)
    | cons e' es =>
      rw [Expr.texts, Expr.texts, Expr.bytesOf_intercalate]
      exact hw.eat_skip (endsWord_cons.mpr (by decide)) (by decide)
  rw [Expr.bytesOf_argsText, args, expect_cons (by decide)]
  simp only [bind, Except.bind, hclose]

/-- Argument lists are read back if the arguments are, and start with words. -/
theorem args_texts {es : List Expr} (h : ∀ x ∈ es, ReadsBack read x)
    (hhead : ∀ x ∈ es, ∃ w, FirstWord w x.text) (r : Input) :
    args read (bytesOf (Expr.argsText (Expr.texts es)) ++ r) = .ok (es, r) := by
  cases es with
  | nil =>
    rw [Expr.bytesOf_argsText, args, expect_cons (by decide), Expr.texts, String.intercalate_nil]
    rfl
  | cons e es =>
    -- with a comma between any two arguments, there are bytes enough to count them by
    have hlen : es.length < (bytesOf (",".intercalate (Expr.texts (e :: es))) ++
        ')'.toUInt8 :: r).length := by
      have hle := Expr.length_le_separated (rfl : (bytesOf ",").length = 1) e.text (Expr.texts es)
      rw [Expr.texts_eq, List.length_map] at hle
      rw [List.length_append, List.length_cons, Expr.texts_eq, List.map_cons]
      omega
    rw [args_cons (hhead e List.mem_cons_self), argsFrom_texts h hlen]

end Args

/-! ## Windows -/

/-- The digits of the count end at the `x`. -/
theorem shape_split {n : Nat} (T : Ty) :
    (String.ofList (Nat.toDigits 10 n) ++ "x" ++ T.name).toList.takeWhile isDigit =
        Nat.toDigits 10 n ∧
      (String.ofList (Nat.toDigits 10 n) ++ "x" ++ T.name).toList.dropWhile isDigit =
        'x' :: T.name.toList := by
  have hall := List.all_eq_true.mp (all_isDigit n)
  have hx : isDigit 'x' = false := by decide
  have hlist : (String.ofList (Nat.toDigits 10 n) ++ "x" ++ T.name).toList =
      Nat.toDigits 10 n ++ 'x' :: T.name.toList := by
    simp
  rw [hlist, List.takeWhile_append_of_pos hall, List.dropWhile_append_of_pos hall,
    List.takeWhile_cons_of_neg (by simp [hx]), List.dropWhile_cons_of_neg (by simp [hx]),
    List.append_nil]
  exact ⟨rfl, rfl⟩

theorem isWord_shape (n : Nat) {T : Ty} (hT : T ≠ .invalid) :
    IsWord (String.ofList (Nat.toDigits 10 n) ++ "x" ++ T.name) := by
  obtain ⟨-, hdigits⟩ := isWord_toDigits (n := n) (by decide : 1 < 10) (by decide)
  obtain ⟨⟨-, hname⟩, -⟩ := ty_name hT
  refine ⟨?_, ?_⟩
  · intro hempty
    have hnil := congrArg String.toList hempty
    simp at hnil
  · rw [String.toList_append, String.toList_append, List.all_append, List.all_append, hdigits,
      hname]
    rfl

theorem ty_name_cons {T : Ty} (hT : T ≠ .invalid) : ∃ c cs, T.name.toList = c :: cs := by
  obtain ⟨⟨hne, -⟩, -⟩ := ty_name hT
  exact List.exists_cons_of_ne_nil fun hnil => hne (String.toList_eq_nil_iff.mp hnil)

theorem window_text {w : Window} (hT : w.elem ≠ .invalid) (hcount : 0 ≤ w.count.toInt) (r : Input) :
    window ('('.toUInt8 :: (bytesOf (Numeral.decimal w.base.toInt) ++ ':'.toUInt8 ::
      (bytesOf (Numeral.decimal w.count.toInt ++ "x" ++ w.elem.name) ++ ')'.toUInt8 :: r))) =
      .ok (w, r) := by
  obtain ⟨hdigits, hrest⟩ := shape_split (n := w.count.toInt.toNat) w.elem
  obtain ⟨d, ds, hd⟩ := List.exists_cons_of_ne_nil
    (Nat.toDigits_ne_nil (n := w.count.toInt.toNat) (b := 10))
  obtain ⟨c, cs, hc⟩ := ty_name_cons hT
  have hhi := w.count.toInt_lt
  have hread := read_digits (by omega : w.count.toInt.toNat < 2 ^ 64)
  have hname : Ty.ofName? (String.ofList (c :: cs)) = some w.elem := by
    rw [← hc, String.ofList_toList]
    exact (ty_name hT).2
  have hval : (UInt64.ofNat w.count.toInt.toNat).toInt64 = w.count := by
    rw [UInt64.toInt64_ofNat', ← Int64.ofInt_eq_ofNat, Int.toNat_of_nonneg hcount,
      Int64.ofInt_toInt]
  -- count and type are one word, which is cut in two at the first character that is no digit
  rw [decimal_of_nonneg hcount, window]
  simp +decide only [bind, Except.bind, expect_cons, number_decimal, endsWord_cons,
    (isWord_shape w.count.toInt.toNat hT).word, hdigits, hrest, hc]
  rw [hd] at hread ⊢
  simp only [hread, hname, hval]

/-- A window and an index are read back if the index is. -/
theorem indexed_text {read : Input → Except Stop (Expr × Input)} {w : Window} {ix : Expr}
    (hT : w.elem ≠ .invalid) (hcount : 0 ≤ w.count.toInt) (hix : ReadsBack read ix) (bias : Int64)
    (r : Input) :
    indexed read (bytesOf (Expr.indexedText w ix.text bias) ++ r) = .ok ((w, ix, bias), r) := by
  rw [Expr.bytesOf_indexedText, indexed, window_text hT hcount]
  simp +decide only [bind, Except.bind, within, expect_cons, hix _, endsWord_cons, number_decimal]

end Reader

/-! ## Trees -/

namespace Expr

variable {e c : Expr}

theorem Legible.spelled (h : e.Legible) : e.Spelled := (h e (self_mem_nodes e)).1

theorem Legible.child (h : e.Legible) (hc : c ∈ e.children) : c.Legible :=
  fun n hn => h n (mem_nodes_of_child hc hn)

theorem firstWord_op {op : Op} (h : op.arity ≠ 0) (ts : List String) :
    op.name ≠ "EFFECT" ∧ FirstWord op.name (op.name ++ argsText ts) := by
  obtain ⟨hword, -, -, hkeywords⟩ := op_names op (mem_opTable h)
  refine ⟨fun heq => by simp [heq] at hkeywords, hword, fun r _ => ?_⟩
  exact ⟨_, by rw [bytesOf_append, List.append_assoc], endsWord_argsText ts r⟩

/-- Texts start with words, none of which is the one that effects start with. -/
theorem Spelled.exists_firstWord (h : e.Spelled) : ∃ w, w ≠ "EFFECT" ∧ FirstWord w e.text := by
  cases e with
  | missing => exact h.elim
  | tmp t =>
    exact ⟨tempText t, tempText_ne_keyword h (by decide), isWord_tempText h, fun r hr =>
      ⟨r, rfl, hr⟩⟩
  | const c =>
    refine ⟨Numeral.hex c.bits, ?_, isWord_hex _, fun r _ =>
      ⟨_, bytesOf_constText c r, endsWord_cons.mpr (by decide)⟩⟩
    intro heq
    have hlist := congrArg String.toList heq
    simp [Numeral.hex] at hlist
  | get off ty =>
    exact ⟨"GET", by decide, (keyword_spec _ (by decide)).1, fun r _ =>
      ⟨_, bytesOf_get off ty r, endsWord_cons.mpr (by decide)⟩⟩
  | getIx w ix bias =>
    exact ⟨"GETI", by decide, (keyword_spec _ (by decide)).1, fun r _ =>
      ⟨_, bytesOf_getIx w ix bias r, endsWord_indexedText _ _ _ _⟩⟩
  | unop op a => exact ⟨op.name, firstWord_op (by rw [h]; decide) _⟩
  | binop op a b => exact ⟨op.name, firstWord_op (by rw [h]; decide) _⟩
  | load ty a =>
    exact ⟨"LD", by decide, (keyword_spec _ (by decide)).1, fun r _ =>
      ⟨_, bytesOf_load ty a r, endsWord_cons.mpr (by decide)⟩⟩
  | call callee ty args =>
    exact ⟨"CALL", by decide, (keyword_spec _ (by decide)).1, fun r _ =>
      ⟨_, bytesOf_call callee ty args r, endsWord_cons.mpr (by decide)⟩⟩
  | select c z x =>
    exact ⟨"Select", by decide, (keyword_spec _ (by decide)).1, fun r _ =>
      ⟨_, bytesOf_select c z x r, endsWord_argsText _ _⟩⟩

/-- An operand in an argument list is shorter than the list. -/
theorem length_lt_argsText {es : List Expr} (h : e ∈ es) :
    (bytesOf e.text).length < (bytesOf (argsText (texts es))).length := by
  have hle := length_le_intercalate (List.mem_map_of_mem (f := text) h)
  have hbytes := congrArg List.length (bytesOf_argsText (texts es) [])
  rw [texts_eq] at hbytes ⊢
  simp only [List.append_nil, List.length_cons, List.length_append, List.length_nil] at hbytes
  omega

/-- An operand is shorter than the expression it is part of. -/
theorem length_lt_of_child (hc : c ∈ e.children) :
    (bytesOf c.text).length < (bytesOf e.text).length := by
  cases e with
  | missing | tmp | const | get => simp [children] at hc
  | getIx w ix bias =>
    rw [children, List.mem_singleton] at hc
    have hbytes := congrArg List.length (bytesOf_indexedText w ix.text bias [])
    simp only [List.append_nil, List.length_append, List.length_cons] at hbytes
    rw [text, bytesOf_append, List.length_append, hc]
    omega
  | unop | binop | load | call | select =>
    have hlt := length_lt_argsText hc
    rw [text, bytesOf_append, List.length_append]
    exact Nat.lt_add_left _ hlt

end Expr

namespace Reader

variable {e : Expr} {n : Nat}

/-- The name of an operator has no form of its own: operands follow. -/
theorem exprUpTo_opName {op : Op} (harity : op.arity ≠ 0) (ts : List String) (r : Input) :
    exprUpTo (n + 1) (bytesOf (op.name ++ Expr.argsText ts) ++ r) = within (.op op) (do
      let (xs, r') ← args (exprUpTo n) (bytesOf (Expr.argsText ts) ++ r)
      match xs with
      | [a] => if op.arity = 1 then .ok (.unop op a, r') else
          .error (wrongCount op.arity xs (bytesOf (Expr.argsText ts) ++ r))
      | [a, b] => if op.arity = 2 then .ok (.binop op a b, r') else
          .error (wrongCount op.arity xs (bytesOf (Expr.argsText ts) ++ r))
      | _ => .error (wrongCount op.arity xs (bytesOf (Expr.argsText ts) ++ r))) := by
  obtain ⟨hword, hname, htemp, hkeywords⟩ := op_names op (mem_opTable harity)
  have hcolon : eat ':' (bytesOf (Expr.argsText ts) ++ r) = none := by
    rw [Expr.bytesOf_argsText]
    exact eat_of_ne (by decide)
  rw [bytesOf_append, List.append_assoc, exprUpTo_word hword htemp
    (Expr.endsWord_argsText _ _) (.inr hcolon), exprAt]
  · exact hname ▸ rfl
  all_goals
    intro heq
    simp [heq] at hkeywords

/-- A node is read back if its operands are. -/
theorem exprUpTo_node (h : e.Spelled) (hcount : ∀ w, e.window? = some w → 0 ≤ w.count.toInt)
    (hchild : ∀ c ∈ e.children, ReadsBack (exprUpTo n) c)
    (hhead : ∀ c ∈ e.children, ∃ w, FirstWord w c.text) :
    ReadsBack (exprUpTo (n + 1)) e := by
  intro r hr
  cases e with
  | missing => exact h.elim
  | tmp t =>
    have hword := isWord_tempText h
    obtain ⟨c, cs, hcs⟩ : ∃ c cs, (Expr.tempText t).toList = c :: cs := by
      rw [tempText_eq h, String.toList_ofList]
      exact ⟨_, _, rfl⟩
    rw [Expr.text, exprUpTo]
    simp only [hword.skip, hword.word hr, hcs, tempDigits?_text h, tempOf_digits h, bind,
      Except.bind]
  | const c =>
    obtain ⟨cs, hcs⟩ : ∃ cs, (Numeral.hex c.bits).toList = '0' :: cs := by
      rw [Numeral.hex, String.toList_append]
      exact ⟨_, rfl⟩
    have htemp : tempDigits? (Numeral.hex c.bits) = none := by
      rw [tempDigits?, hcs]
      simp
    -- the bits start with a digit and have a colon behind them, which makes them a constant
    have hread := constant_text h.1 h.2 hr
    rw [bytesOf_constText] at hread
    rw [Expr.text, bytesOf_constText, exprUpTo]
    simp +decide only [(isWord_hex c.bits).skip, (isWord_hex c.bits).word, endsWord_cons, hcs,
      htemp, eat_cons, Option.isSome_some, if_true, hread, bind, Except.bind]
  | get off ty =>
    have hty : ty ≠ .invalid := h
    rw [Expr.bytesOf_get, exprUpTo_keyword (by decide) (endsWord_cons.mpr (by decide)), exprAt]
    simp +decide only [bind, Except.bind, expect_cons, type_name hty, endsWord_cons,
      parenthesized_decimal]
  | getIx w ix bias =>
    have hread := indexed_text h (hcount w rfl) (hchild ix (by simp [Expr.children])) bias r
    rw [Expr.bytesOf_getIx, exprUpTo_keyword (by decide) (Expr.endsWord_indexedText _ _ _ _),
      exprAt]
    simp only [bind, Except.bind, within, hread]
  | unop op a =>
    have hone : op.arity = 1 := h
    have hread := args_texts hchild hhead r
    rw [Expr.text, exprUpTo_opName (by omega)]
    simp only [Expr.children, Expr.texts] at hread
    simp only [bind, Except.bind, hread, hone, if_true, within]
  | binop op a b =>
    have htwo : op.arity = 2 := h
    have hread := args_texts hchild hhead r
    rw [Expr.text, exprUpTo_opName (by omega)]
    simp only [Expr.children, Expr.texts] at hread
    simp only [bind, Except.bind, hread, htwo, if_true, within]
  | load ty a =>
    have hty : ty ≠ .invalid := h
    have hread := args_texts hchild hhead r
    rw [Expr.bytesOf_load, exprUpTo_keyword (by decide) (endsWord_cons.mpr (by decide)), exprAt]
    simp only [Expr.children, Expr.texts] at hread
    simp +decide only [bind, Except.bind, expect_cons, type_name hty (Expr.endsWord_argsText _ _),
      oneArg, hread, within]
  | call callee ty args =>
    obtain ⟨hcallee, hty⟩ := h
    have hread := args_texts hchild hhead r
    rw [Expr.bytesOf_call, exprUpTo_keyword (by decide) (endsWord_cons.mpr (by decide)), exprAt]
    simp only [Expr.children] at hread
    simp +decide only [bind, Except.bind, word_blank, hcallee.word, endsWord_cons, hcallee.1,
      if_false, expect_cons, type_name hty (Expr.endsWord_argsText _ _), hread, within]
  | select c z x =>
    have hread := args_texts hchild hhead r
    rw [Expr.bytesOf_select, exprUpTo_keyword (by decide) (Expr.endsWord_argsText _ _), exprAt]
    simp only [Expr.children, Expr.texts] at hread
    simp only [bind, Except.bind, within, hread]

/-- The text of a legible expression is read back within its length. -/
theorem exprUpTo_text (h : e.Legible) (hn : (bytesOf e.text).length ≤ n) :
    ReadsBack (exprUpTo n) e := by
  induction e using Expr.childInduct generalizing n with
  | h e ih =>
    -- a text has a byte, so there is room for a node, and one byte less for each operand
    obtain ⟨w, -, hw⟩ := h.spelled.exists_firstWord
    have hpos := hw.length_pos
    obtain ⟨m, rfl⟩ : ∃ m, n = m + 1 := ⟨n - 1, by omega⟩
    refine exprUpTo_node h.spelled (h e (Expr.self_mem_nodes e)).2 (fun c hc => ?_) fun c hc => ?_
    · have hlt := Expr.length_lt_of_child hc
      exact ih c hc (h.child hc) (by omega)
    · obtain ⟨w, -, hw⟩ := (h.child hc).spelled.exists_firstWord
      exact ⟨w, hw⟩

end Reader
end Straightline
