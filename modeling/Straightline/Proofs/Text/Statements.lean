import Mathlib
import Straightline.Proofs.Text.Expressions

/-!
# Statements read back

The text of a legible statement is read as that statement. Effects end with a list of attributes
that nothing closes: it goes on while a word with an equals sign right behind it comes next. So what
follows a statement has to be `Quiet`, as the next line of a written block always is.
-/

namespace Straightline

open Lexer

/-- No attribute comes next. -/
def Quiet (r : Input) : Prop := eat '=' (word r).2 = none

namespace Reader

variable {e : Expr} {r : Input}

theorem expr_text (h : e.Legible) : ReadsBack expr e := by
  intro r hr
  refine exprUpTo_text h ?_ r hr
  rw [List.length_append]
  exact Nat.le_add_right _ _

theorem expr_blank (h : e.Legible) (hr : EndsWord r) :
    expr (' '.toUInt8 :: (bytesOf e.text ++ r)) = .ok (e, r) := by
  rw [expr, exprUpTo_blank (by decide)]
  refine exprUpTo_text h ?_ r hr
  rw [List.length_cons, List.length_append]
  omega

theorem args_legible {es : List Expr} (h : ∀ a ∈ es, a.Legible) (r : Input) :
    args expr (bytesOf (Expr.argsText (Expr.texts es)) ++ r) = .ok (es, r) := by
  refine args_texts (fun a ha => expr_text (h a ha)) (fun a ha => ?_) r
  obtain ⟨w, -, hw⟩ := (h a ha).spelled.exists_firstWord
  exact ⟨w, hw⟩

theorem oneArg_legible (h : e.Legible) (r : Input) :
    oneArg expr (bytesOf (Expr.argsText (Expr.texts [e])) ++ r) = .ok (e, r) := by
  rw [oneArg, args_legible (List.forall_mem_singleton.mpr h)]
  rfl

theorem rhs_text (h : e.Legible) (hr : EndsWord r) :
    rhs (bytesOf " = " ++ (bytesOf e.text ++ r)) = .ok (e, r) := by
  have hbytes : bytesOf " = " = [' '.toUInt8, '='.toUInt8, ' '.toUInt8] := rfl
  rw [hbytes, List.cons_append, List.cons_append, List.singleton_append, rhs,
    expect_blank (by decide), expect_cons (by decide)]
  simp only [bind, Except.bind, expr_blank h hr]

/-! ## Effects -/

section Attributes

variable {f : Effect} {n : Nat}

/-- An attribute starts with a word and an equals sign. -/
theorem attributes_guard (h : e.Legible) (hr : EndsWord r) :
    attributes (n + 1) f (bytesOf " guard=" ++ (bytesOf e.text ++ r)) =
      attributes n { f with guard := e } r := by
  have hbytes : bytesOf " guard=" = ' '.toUInt8 :: (bytesOf "guard" ++ ['='.toUInt8]) := rfl
  obtain ⟨hword, -, -⟩ := keyword_spec "guard" (by decide)
  rw [hbytes, List.cons_append, List.append_assoc, List.singleton_append, attributes]
  simp +decide only [word_blank, hword.word, endsWord_cons, if_false, eat_cons, expr_text h r hr,
    within, bind, Except.bind]

theorem bytesOf_mem (t : Touch) (e : Expr) (size : Int64) (r : Input) :
    bytesOf (" mem=" ++ t.name ++ ":" ++ e.text ++ ":" ++ Numeral.decimal size.toInt) ++ r =
      ' '.toUInt8 :: (bytesOf "mem" ++ '='.toUInt8 :: (bytesOf t.name ++ ':'.toUInt8 ::
        (bytesOf e.text ++ ':'.toUInt8 :: (bytesOf (Numeral.decimal size.toInt) ++ r)))) := by
  simp only [bytesOf_append, List.append_assoc]
  rfl

theorem attributes_mem {t : Touch} (ht : t.Spelled) (h : e.Legible) (size : Int64)
    (hr : EndsWord r) :
    attributes (n + 1) f (bytesOf (" mem=" ++ t.name ++ ":" ++ e.text ++ ":" ++
        Numeral.decimal size.toInt) ++ r) =
      attributes n { f with memTouch := t, memAddr := e, memSize := size } r := by
  obtain ⟨hword, -, -⟩ := keyword_spec "mem" (by decide)
  rw [bytesOf_mem, attributes]
  simp +decide only [word_blank, hword.word, endsWord_cons, if_false, eat_cons,
    touch_text ht.1 ht.2, expr_text h _, within, expectHere_cons, number_decimal, hr, bind,
    Except.bind]

/-- The text of a touch of registers. -/
def touchText (t : RegTouch) : String :=
  " fx=" ++ t.touch.name ++ ":" ++ Numeral.decimal t.off.toInt ++ ":" ++
    Numeral.decimal t.size.toInt

theorem bytesOf_touchText (t : RegTouch) (r : Input) :
    bytesOf (touchText t) ++ r = ' '.toUInt8 :: (bytesOf "fx" ++ '='.toUInt8 ::
      (bytesOf t.touch.name ++ ':'.toUInt8 :: (bytesOf (Numeral.decimal t.off.toInt) ++
        ':'.toUInt8 :: (bytesOf (Numeral.decimal t.size.toInt) ++ r)))) := by
  simp only [touchText, bytesOf_append, List.append_assoc]
  rfl

theorem attributes_fx {t : RegTouch} (ht : t.touch.Spelled) (hr : EndsWord r) :
    attributes (n + 1) f (bytesOf (touchText t) ++ r) =
      attributes n { f with state := f.state ++ [t] } r := by
  obtain ⟨hword, -, -⟩ := keyword_spec "fx" (by decide)
  rw [bytesOf_touchText, attributes]
  simp +decide only [word_blank, hword.word, endsWord_cons, if_false, eat_cons,
    touch_text ht.1 ht.2, expectHere_cons, number_decimal, hr, bind, Except.bind]

theorem endsWord_touches (ts : List RegTouch) (hr : EndsWord r) :
    EndsWord (bytesOf (String.join (ts.map touchText)) ++ r) := by
  cases ts with
  | nil => exact hr
  | cons t ts =>
    rw [List.map_cons, String.join_cons, bytesOf_append, List.append_assoc, bytesOf_touchText]
    exact endsWord_cons.mpr (by decide)

/-- Touches of registers are added in order. -/
theorem attributes_touches {ts : List RegTouch} (h : ∀ t ∈ ts, t.touch.Spelled)
    (hr : EndsWord r) :
    attributes (n + ts.length) f (bytesOf (String.join (ts.map touchText)) ++ r) =
      attributes n { f with state := f.state ++ ts } r := by
  induction ts generalizing f with
  | nil =>
    rw [List.append_nil]
    rfl
  | cons t ts ih =>
    rw [List.forall_mem_cons] at h
    rw [List.map_cons, String.join_cons, bytesOf_append, List.append_assoc, List.length_cons,
      ← Nat.add_assoc, attributes_fx h.1 (endsWord_touches ts hr), ih h.2, List.append_assoc]
    rfl

/-- Attributes end where none comes next. -/
theorem attributes_quiet (h : Quiet r) : attributes n f r = .ok (f, r) := by
  cases n with
  | zero => rfl
  | succ n =>
    rw [Quiet] at h
    rw [attributes]
    simp only [h, ite_self]

end Attributes

/-- The text of the memory attribute, if memory is touched. -/
def memText (f : Effect) : String :=
  if f.touchesMem then
    " mem=" ++ f.memTouch.name ++ ":" ++ f.memAddr.text ++ ":" ++ Numeral.decimal f.memSize.toInt
  else ""

theorem memText_of_touches {f : Effect} (h : f.memTouch ≠ .none) :
    memText f = " mem=" ++ f.memTouch.name ++ ":" ++ f.memAddr.text ++ ":" ++
      Numeral.decimal f.memSize.toInt := by
  simp [memText, Effect.touchesMem, h]

theorem endsWord_memText (f : Effect) (hr : EndsWord r) : EndsWord (bytesOf (memText f) ++ r) := by
  by_cases h : f.memTouch = .none
  · have htext : memText f = "" := by simp [memText, Effect.touchesMem, h]
    rw [htext]
    exact hr
  · rw [memText_of_touches h, bytesOf_mem]
    exact endsWord_cons.mpr (by decide)

/-- The text of the attributes of an effect. -/
def attributesText (f : Effect) : String :=
  " guard=" ++ f.guard.text ++ memText f ++ String.join (f.state.map touchText)

/-- The text of the result of an effect. -/
def resultText : Option Temp → String
  | none => ""
  | some t => Expr.tempText t ++ " = "

theorem effect_text_eq (f : Effect) :
    f.text = resultText f.result ++
      ("EFFECT " ++ f.callee ++ Expr.argsText (Expr.texts f.args) ++ attributesText f) := by
  unfold Effect.text attributesText memText touchText
  simp only [String.append_assoc]
  rfl

theorem bytesOf_effect_none {f : Effect} (h : f.result = none) (r : Input) :
    bytesOf f.text ++ r = bytesOf "EFFECT" ++ ' '.toUInt8 :: (bytesOf f.callee ++
      (bytesOf (Expr.argsText (Expr.texts f.args)) ++ (bytesOf (attributesText f) ++ r))) := by
  rw [effect_text_eq, h, resultText, String.empty_append]
  simp only [bytesOf_append, List.append_assoc]
  rfl

theorem bytesOf_effect_some {f : Effect} {t : Temp} (h : f.result = some t) (r : Input) :
    bytesOf f.text ++ r = bytesOf (Expr.tempText t) ++ (bytesOf " = " ++ (bytesOf "EFFECT" ++
      ' '.toUInt8 :: (bytesOf f.callee ++ (bytesOf (Expr.argsText (Expr.texts f.args)) ++
        (bytesOf (attributesText f) ++ r))))) := by
  rw [effect_text_eq, h, resultText]
  simp only [bytesOf_append, List.append_assoc]
  rfl

theorem length_le_touches (ts : List RegTouch) :
    ts.length ≤ (bytesOf (String.join (ts.map touchText))).length := by
  induction ts with
  | nil => exact Nat.zero_le _
  | cons t ts ih =>
    have hbytes := congrArg List.length (bytesOf_touchText t [])
    rw [List.append_nil, List.length_cons] at hbytes
    rw [List.map_cons, String.join_cons, bytesOf_append, List.length_append, List.length_cons]
    omega

theorem length_attributesText (f : Effect) :
    f.state.length + 2 ≤ (bytesOf (attributesText f)).length := by
  have hkey : (bytesOf " guard=").length = 7 := rfl
  have hle := length_le_touches f.state
  simp only [attributesText, bytesOf_append, List.length_append]
  omega

/-- The attributes of an effect are read back, from an effect that has none. -/
theorem attributes_text {f : Effect} (h : (Stmt.effect f).Legible) {n : Nat}
    (hn : f.state.length + 2 ≤ n) (hr : EndsWord r) (hq : Quiet r) :
    attributes n ⟨f.callee, .missing, f.args, f.result, .none, .missing, 0, []⟩
      (bytesOf (attributesText f) ++ r) = .ok (f, r) := by
  have hspelled : f.Spelled := h.spelled
  have hguard : f.guard.Legible := h.operands _ Effect.guard_mem_operands
  have htouches := endsWord_touches f.state hr
  rw [attributesText]
  simp only [bytesOf_append, List.append_assoc]
  by_cases htouch : f.memTouch = .none
  · -- nothing is written of memory, and an effect without attributes has the fields already
    obtain ⟨haddr, hsize⟩ := hspelled.untouched htouch
    have htext : memText f = "" := by simp [memText, Effect.touchesMem, htouch]
    obtain ⟨m, rfl⟩ : ∃ m, n = m + f.state.length + 1 := ⟨n - f.state.length - 1, by omega⟩
    rw [attributes_guard hguard (endsWord_memText f htouches), htext, show bytesOf "" = [] from rfl,
      List.nil_append, attributes_touches hspelled.state hr, attributes_quiet hq, List.nil_append]
    simp only [← haddr, ← hsize, ← htouch]
  · have haddr : f.memAddr.Legible := h.operands _ (Effect.memAddr_mem_operands htouch)
    obtain ⟨m, rfl⟩ : ∃ m, n = m + f.state.length + 1 + 1 := ⟨n - f.state.length - 2, by omega⟩
    rw [attributes_guard hguard (endsWord_memText f htouches), memText_of_touches htouch,
      attributes_mem (hspelled.touched htouch) haddr _ htouches,
      attributes_touches hspelled.state hr, attributes_quiet hq, List.nil_append]

/-- An effect is read back behind its keyword. -/
theorem effect_text {f : Effect} (h : (Stmt.effect f).Legible) (hr : EndsWord r) (hq : Quiet r) :
    effect f.result (' '.toUInt8 :: (bytesOf f.callee ++
      (bytesOf (Expr.argsText (Expr.texts f.args)) ++ (bytesOf (attributesText f) ++ r)))) =
      .ok (.effect f, r) := by
  have hcallee : IsWord f.callee := Effect.Spelled.callee h.spelled
  have hargs : ∀ a ∈ f.args, a.Legible := fun a ha =>
    h.operands a (Effect.arg_mem_operands ha)
  have hguard : f.guard.Legible := h.operands _ Effect.guard_mem_operands
  have hmissing : f.guard.isMissing = false := by
    have hne := hguard.spelled.ne_missing
    cases hg : f.guard <;> simp_all [Expr.isMissing]
  have hread := args_legible hargs (bytesOf (attributesText f) ++ r)
  -- each attribute takes a byte at least, so none is left over for lack of them
  have hlen : f.state.length + 2 ≤ (bytesOf (attributesText f) ++ r).length := by
    have hle := length_attributesText f
    rw [List.length_append]
    omega
  rw [effect]
  simp +decide only [word_blank, hcallee.word (Expr.endsWord_argsText _ _), hcallee.1, if_false,
    hread, within, bind, Except.bind, attributes_text h hlen hr hq, hmissing]

/-! ## Statements -/

theorem stmt_blank {b : UInt8} {s : Input} (h : isBlank b = true) : stmt (b :: s) = stmt s := by
  rw [stmt, stmt, skip_blank h]

theorem stmt_temp {t : Temp} (ht : 0 ≤ t.toInt) (hr : EndsWord r) :
    stmt (bytesOf (Expr.tempText t) ++ r) = definition t r := by
  have hword := isWord_tempText ht
  rw [stmt]
  simp only [hword.skip, hword.word hr, tempDigits?_text ht, tempOf_digits ht, bind, Except.bind]

theorem endsWord_equals (s : Input) : EndsWord (bytesOf " = " ++ s) :=
  endsWord_cons.mpr (by decide)

theorem definition_assign (t : Temp) (h : e.Legible) (hr : EndsWord r) :
    definition t (bytesOf " = " ++ (bytesOf e.text ++ r)) = .ok (.assign t e, r) := by
  have hbytes : bytesOf " = " = [' '.toUInt8, '='.toUInt8, ' '.toUInt8] := rfl
  obtain ⟨w, hne, hw⟩ := h.spelled.exists_firstWord
  rw [hbytes, List.cons_append, List.cons_append, List.singleton_append, definition,
    expect_blank (by decide), expect_cons (by decide)]
  simp +decide only [bind, Except.bind, word_blank, hw.word hr, hne, if_false, expr_blank h hr,
    within]

theorem definition_effect {f : Effect} {t : Temp} (h : (Stmt.effect f).Legible)
    (ht : f.result = some t) (hr : EndsWord r) (hq : Quiet r) :
    definition t (bytesOf " = " ++ (bytesOf "EFFECT" ++ ' '.toUInt8 :: (bytesOf f.callee ++
      (bytesOf (Expr.argsText (Expr.texts f.args)) ++ (bytesOf (attributesText f) ++ r))))) =
      .ok (.effect f, r) := by
  have hbytes : bytesOf " = " = [' '.toUInt8, '='.toUInt8, ' '.toUInt8] := rfl
  obtain ⟨hword, -, -⟩ := keyword_spec "EFFECT" (by decide)
  have hread := effect_text h hr hq
  rw [ht] at hread
  rw [hbytes, List.cons_append, List.cons_append, List.singleton_append, definition,
    expect_blank (by decide), expect_cons (by decide)]
  simp +decide only [bind, Except.bind, word_blank, hword.word, endsWord_cons, if_true, hread]

theorem bytesOf_mark (addr : UInt64) (len : Int64) (r : Input) :
    bytesOf (Stmt.mark addr len).text ++ r = bytesOf "Mark" ++ '('.toUInt8 ::
      (bytesOf (Numeral.hex addr) ++ ','.toUInt8 :: (bytesOf (Numeral.decimal len.toInt) ++
        ')'.toUInt8 :: r)) := by
  change bytesOf ("Mark(" ++ Numeral.hex addr ++ "," ++ Numeral.decimal len.toInt ++ ")") ++ r = _
  simp only [bytesOf_append, List.append_assoc]
  rfl

theorem bytesOf_assign (dst : Temp) (src : Expr) (r : Input) :
    bytesOf (Stmt.assign dst src).text ++ r = bytesOf (Expr.tempText dst) ++
      (bytesOf " = " ++ (bytesOf src.text ++ r)) := by
  change bytesOf (Expr.tempText dst ++ " = " ++ src.text) ++ r = _
  simp only [bytesOf_append, List.append_assoc]

theorem bytesOf_put (off : Int64) (data : Expr) (r : Input) :
    bytesOf (Stmt.put off data).text ++ r = bytesOf "PUT" ++ '('.toUInt8 ::
      (bytesOf (Numeral.decimal off.toInt) ++ ')'.toUInt8 ::
        (bytesOf " = " ++ (bytesOf data.text ++ r))) := by
  change bytesOf ("PUT(" ++ Numeral.decimal off.toInt ++ ") = " ++ data.text) ++ r = _
  simp only [bytesOf_append, List.append_assoc]
  rfl

theorem bytesOf_putIx (w : Window) (ix : Expr) (bias : Int64) (data : Expr) (r : Input) :
    bytesOf (Stmt.putIx w ix bias data).text ++ r = bytesOf "PUTI" ++
      (bytesOf (Expr.indexedText w ix.text bias) ++
        (bytesOf " = " ++ (bytesOf data.text ++ r))) := by
  change bytesOf ("PUTI" ++ Expr.indexedText w ix.text bias ++ " = " ++ data.text) ++ r = _
  simp only [bytesOf_append, List.append_assoc]

theorem bytesOf_store (addr data : Expr) (r : Input) :
    bytesOf (Stmt.store addr data).text ++ r = bytesOf "ST" ++
      (bytesOf (Expr.argsText (Expr.texts [addr])) ++
        (bytesOf " = " ++ (bytesOf data.text ++ r))) := by
  change bytesOf ("ST(" ++ addr.text ++ ") = " ++ data.text) ++ r = _
  rw [Expr.bytesOf_argsText, Expr.texts_eq, List.map_singleton, String.intercalate_singleton]
  simp only [bytesOf_append, List.append_assoc]
  rfl

theorem bytesOf_exit (guard : Expr) (kind : JumpKind) (dst : Const) (r : Input) :
    bytesOf (Stmt.exit guard kind dst).text ++ r = bytesOf "if" ++ ' '.toUInt8 ::
      '('.toUInt8 :: (bytesOf guard.text ++ ')'.toUInt8 :: ' '.toUInt8 :: (bytesOf "goto" ++
        ' '.toUInt8 :: '\x7b'.toUInt8 :: (bytesOf kind.name ++ '\x7d'.toUInt8 :: ' '.toUInt8 ::
          (bytesOf (Expr.constText dst) ++ r)))) := by
  change bytesOf ("if (" ++ guard.text ++ ") goto \x7b" ++ kind.name ++ "\x7d " ++
    Expr.constText dst) ++ r = _
  simp only [bytesOf_append, List.append_assoc]
  rfl

/-- A legible statement is read back. -/
theorem stmt_text {s : Stmt} (h : s.Legible) (hr : EndsWord r) (hq : Quiet r) :
    stmt (bytesOf s.text ++ r) = .ok (s, r) := by
  cases s with
  | missing => exact h.spelled.elim
  | noop =>
    obtain ⟨hword, htemp, -⟩ := keyword_spec "NoOp" (by decide)
    rw [Stmt.text, stmt]
    simp only [hword.skip, hword.word hr, htemp]
  | mark addr len =>
    obtain ⟨hword, htemp, -⟩ := keyword_spec "Mark" (by decide)
    rw [bytesOf_mark, stmt]
    simp +decide only [hword.skip, hword.word, endsWord_cons, htemp, mark, expect_cons,
      unsigned_hex, number_decimal, bind, Except.bind]
  | fence =>
    obtain ⟨hword, htemp, -⟩ := keyword_spec "Fence" (by decide)
    rw [Stmt.text, stmt]
    simp only [hword.skip, hword.word hr, htemp]
  | assign dst src =>
    have hsrc : src.Legible := h.operands src (by simp [Stmt.operands])
    rw [bytesOf_assign, stmt_temp h.spelled (endsWord_equals _), definition_assign dst hsrc hr]
  | put off data =>
    have hdata : data.Legible := h.operands data (by simp [Stmt.operands])
    obtain ⟨hword, htemp, -⟩ := keyword_spec "PUT" (by decide)
    rw [bytesOf_put, stmt]
    simp +decide only [hword.skip, hword.word, endsWord_cons, htemp, parenthesized_decimal,
      rhs_text hdata hr, within, bind, Except.bind]
  | putIx w ix bias data =>
    have hix : ix.Legible := h.operands ix (by simp [Stmt.operands])
    have hdata : data.Legible := h.operands data (by simp [Stmt.operands])
    obtain ⟨hword, htemp, -⟩ := keyword_spec "PUTI" (by decide)
    rw [bytesOf_putIx, stmt]
    simp only [hword.skip, hword.word (Expr.endsWord_indexedText _ _ _ _), htemp,
      indexed_text h.spelled (h.counted w rfl) (expr_text hix), rhs_text hdata hr, within, bind,
      Except.bind]
  | store addr data =>
    have haddr : addr.Legible := h.operands addr (by simp [Stmt.operands])
    have hdata : data.Legible := h.operands data (by simp [Stmt.operands])
    obtain ⟨hword, htemp, -⟩ := keyword_spec "ST" (by decide)
    rw [bytesOf_store, stmt]
    simp only [hword.skip, hword.word (Expr.endsWord_argsText _ _), htemp, oneArg_legible haddr,
      rhs_text hdata hr, within, bind, Except.bind]
  | effect f =>
    rw [Stmt.text]
    cases hres : f.result with
    | none =>
      obtain ⟨hword, htemp, -⟩ := keyword_spec "EFFECT" (by decide)
      have hread := effect_text h hr hq
      rw [hres] at hread
      rw [bytesOf_effect_none hres, stmt]
      simp +decide only [hword.skip, hword.word, endsWord_cons, htemp, hread]
    | some t =>
      have ht : 0 ≤ t.toInt := Effect.Spelled.result h.spelled t hres
      rw [bytesOf_effect_some hres, stmt_temp ht (endsWord_equals _),
        definition_effect h hres hr hq]
  | exit guard kind dst =>
    obtain ⟨hkind, hdst⟩ := h.spelled
    have hguard : guard.Legible := h.operands guard (by simp [Stmt.operands])
    obtain ⟨hword, htemp, -⟩ := keyword_spec "if" (by decide)
    obtain ⟨hgoto, -, -⟩ := keyword_spec "goto" (by decide)
    have hconst : constant (' '.toUInt8 :: (bytesOf (Expr.constText dst) ++ r)) = .ok (dst, r) := by
      rw [constant_blank (by decide)]
      exact constant_text hdst.1 hdst.2 hr
    rw [bytesOf_exit, stmt]
    simp +decide only [hword.skip, hword.word, endsWord_cons, htemp, exit, expect_blank,
      expect_cons, expr_text hguard _, keyword_blank, hgoto.keyword, jumpKind_blank,
      jumpKind_text hkind, hconst, within, bind, Except.bind]

end Reader
end Straightline
