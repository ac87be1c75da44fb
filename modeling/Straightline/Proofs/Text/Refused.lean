import Mathlib
import Straightline.Proofs.Text.Accepted
import Straightline.Proofs.Text.Blocks

/-!
# What is refused

A negative count is written with a sign, and a window is read without one: reading stops there. What
stands in front of the first such window is read back, so the text of a block that has one is
refused. The argument goes along with that of reading back: of each operand it is known that it is
either read back or refused, and the first one that is refused stops the rest.

So the blocks that are read back from their texts are known exactly: `Spelled.read_text_eq_ok_iff`.
-/

namespace Straightline

open Lexer

namespace Reader

variable {α β : Type}

/-- The reading fails. -/
def Stops (x : Except Stop α) : Prop := ∃ e, x = .error e

theorem Stops.bind {x : Except Stop α} (h : Stops x) (f : α → Except Stop β) : Stops (x >>= f) := by
  obtain ⟨e, rfl⟩ := h
  exact ⟨e, rfl⟩

theorem Stops.within {x : Except Stop α} (h : Stops x) (p : Place) : Stops (within p x) := by
  obtain ⟨e, rfl⟩ := h
  exact ⟨_, rfl⟩

/-- A reading fails that fails behind something that is read. -/
theorem stops_behind {x : Except Stop α} {a : α} (hx : x = .ok a) {f : α → Except Stop β}
    (h : Stops (f a)) : Stops (x >>= f) := by
  rw [hx]
  exact h

theorem stops_behind_within {x : Except Stop α} {a : α} (hx : x = .ok a) {p : Place}
    {f : α → Except Stop β} (h : Stops (f a)) : Stops (within p x >>= f) := by
  rw [hx]
  exact h

/-- The reader fails at the text of `e`. -/
def Refuses (read : Input → Except Stop (Expr × Input)) (e : Expr) : Prop :=
  ∀ r, EndsWord r → Stops (read (bytesOf e.text ++ r))

/-! ## Operands -/

section Operands

variable {read : Input → Except Stop (Expr × Input)}

/-- A sign where the count of a window should be is no word. -/
theorem window_refuses {w : Window} (hneg : w.count.toInt < 0) (r : Input) :
    Stops (window ('('.toUInt8 :: (bytesOf (Numeral.decimal w.base.toInt) ++ ':'.toUInt8 ::
      (bytesOf (Numeral.decimal w.count.toInt ++ "x" ++ w.elem.name) ++ r)))) := by
  have hbytes : bytesOf (Numeral.decimal w.count.toInt ++ "x" ++ w.elem.name) ++ r =
      '-'.toUInt8 :: (bytesOf (String.ofList (Nat.toDigits 10 (-w.count.toInt).toNat) ++ "x" ++
        w.elem.name) ++ r) := by
    rw [decimal_of_neg hneg]
    simp only [bytesOf_append, List.append_assoc]
    rfl
  have hword (s : Input) : word ('-'.toUInt8 :: s) = ("", '-'.toUInt8 :: s) := by
    rw [word, skip_cons (by decide), List.takeWhile_cons_of_neg (by decide),
      List.dropWhile_cons_of_neg (by decide)]
    rfl
  rw [hbytes, window]
  simp +decide only [bind, Except.bind, expect_cons, number_decimal, endsWord_cons, hword]
  exact ⟨_, rfl⟩

theorem indexed_refuses {w : Window} {ix : Expr} (hT : w.elem ≠ .invalid)
    (h : w.count.toInt < 0 ∨ Refuses read ix) (bias : Int64) (r : Input) :
    Stops (indexed read (bytesOf (Expr.indexedText w ix.text bias) ++ r)) := by
  rw [Expr.bytesOf_indexedText, indexed]
  by_cases hneg : w.count.toInt < 0
  · exact (window_refuses hneg _).bind _
  · refine stops_behind (window_text hT (Int.not_lt.mp hneg) _) ?_
    refine stops_behind (expect_cons (by decide)) ?_
    have hix := h.resolve_left hneg
    exact ((hix _ (endsWord_cons.mpr (by decide))).within _).bind _

/-- The first argument that is refused stops the list. -/
theorem argsFrom_refuses {e : Expr} {es : List Expr}
    (h : ∀ x ∈ e :: es, ReadsBack read x ∨ Refuses read x) (hbad : ∃ x ∈ e :: es, Refuses read x)
    (n k : Nat) (r : Input) :
    Stops (argsFrom read n k
      (bytesOf (",".intercalate (Expr.texts (e :: es))) ++ ')'.toUInt8 :: r)) := by
  induction es generalizing e n k with
  | nil =>
    have he : Refuses read e := by simpa using hbad
    cases n with
    | zero => exact ⟨_, rfl⟩
    | succ n =>
      rw [Expr.texts, Expr.texts, String.intercalate_singleton, argsFrom]
      exact ((he _ (endsWord_cons.mpr (by decide))).within _).bind _
  | cons e' es ih =>
    cases n with
    | zero => exact ⟨_, rfl⟩
    | succ n =>
      rw [Expr.texts, Expr.texts, Expr.bytesOf_intercalate, argsFrom]
      by_cases he : Refuses read e
      · exact ((he _ (endsWord_cons.mpr (by decide))).within _).bind _
      · -- the first argument is read back, so it is a later one that is refused
        have hback := (h e List.mem_cons_self).resolve_right he
        obtain ⟨x, hx, hrefused⟩ := hbad
        have hx' : x ∈ e' :: es :=
          (List.mem_cons.mp hx).resolve_left fun heq => he (heq ▸ hrefused)
        have hrest := ih (fun y hy => h y (List.mem_cons_of_mem _ hy)) ⟨x, hx', hrefused⟩ n (k + 1)
        rw [Expr.texts] at hrest
        rw [hback _ (endsWord_cons.mpr (by decide))]
        exact hrest.bind _

theorem args_refuses {es : List Expr} (h : ∀ x ∈ es, ReadsBack read x ∨ Refuses read x)
    (hhead : ∀ x ∈ es, ∃ w, FirstWord w x.text) (hbad : ∃ x ∈ es, Refuses read x) (r : Input) :
    Stops (args read (bytesOf (Expr.argsText (Expr.texts es)) ++ r)) := by
  cases es with
  | nil => simp at hbad
  | cons e es =>
    rw [args_cons (hhead e List.mem_cons_self)]
    exact argsFrom_refuses h hbad _ _ _

end Operands

/-! ## Expressions -/

variable {e : Expr} {n : Nat}

/-- A node is refused if its window has a negative count or an operand is refused. -/
theorem exprUpTo_node_refuses (h : e.Spelled)
    (hchild : ∀ c ∈ e.children, ReadsBack (exprUpTo n) c ∨ Refuses (exprUpTo n) c)
    (hhead : ∀ c ∈ e.children, ∃ w, FirstWord w c.text)
    (hbad : (∃ w, e.window? = some w ∧ w.count.toInt < 0) ∨
      ∃ c ∈ e.children, Refuses (exprUpTo n) c) :
    Refuses (exprUpTo (n + 1)) e := by
  intro r _
  have hwindow (hnone : e.window? = none) : ∃ c ∈ e.children, Refuses (exprUpTo n) c :=
    hbad.resolve_left fun ⟨w, hw, _⟩ => by simp [hnone] at hw
  cases e with
  | missing => exact h.elim
  | tmp | const | get => simpa [Expr.children] using hwindow rfl
  | getIx w ix bias =>
    have hix : w.count.toInt < 0 ∨ Refuses (exprUpTo n) ix := by
      simpa [Expr.window?, Expr.children] using hbad
    rw [Expr.bytesOf_getIx, exprUpTo_keyword (by decide) (Expr.endsWord_indexedText _ _ _ _),
      exprAt]
    exact ((indexed_refuses h hix bias r).within _).bind _
  | unop op a =>
    have hone : op.arity = 1 := h
    rw [Expr.text, exprUpTo_opName (by omega)]
    exact ((args_refuses hchild hhead (hwindow rfl) r).bind _).within _
  | binop op a b =>
    have htwo : op.arity = 2 := h
    rw [Expr.text, exprUpTo_opName (by omega)]
    exact ((args_refuses hchild hhead (hwindow rfl) r).bind _).within _
  | load ty a =>
    rw [Expr.bytesOf_load, exprUpTo_keyword (by decide) (endsWord_cons.mpr (by decide)), exprAt]
    refine stops_behind (expect_cons (by decide)) ?_
    refine stops_behind (type_name h (Expr.endsWord_argsText _ _)) ?_
    exact (((args_refuses hchild hhead (hwindow rfl) r).bind _).within _).bind _
  | call callee ty args =>
    rw [Expr.bytesOf_call, exprUpTo_keyword (by decide) (endsWord_cons.mpr (by decide)), exprAt]
    simp +decide only [word_blank, h.1.word, endsWord_cons, h.1.1, if_false]
    refine stops_behind (expect_cons (by decide)) ?_
    refine stops_behind (type_name h.2 (Expr.endsWord_argsText _ _)) ?_
    exact ((args_refuses hchild hhead (hwindow rfl) r).within _).bind _
  | select c z x =>
    rw [Expr.bytesOf_select, exprUpTo_keyword (by decide) (Expr.endsWord_argsText _ _), exprAt]
    exact ((args_refuses hchild hhead (hwindow rfl) r).bind _).within _

end Reader

namespace Expr

variable {e : Expr}

theorem Written.child (h : e.Written) {c : Expr} (hc : c ∈ e.children) : c.Written :=
  fun n hn => h n (mem_nodes_of_child hc hn)

/-- What keeps a written tree from being legible is at its root or below an operand. -/
theorem Written.exists_bad (h : e.Written) (hbad : ¬ e.Legible) :
    (∃ w, e.window? = some w ∧ w.count.toInt < 0) ∨ ∃ c ∈ e.children, ¬ c.Legible := by
  by_contra hgood
  rw [not_or] at hgood
  refine hbad fun n hn => ⟨h n hn, fun w hw => ?_⟩
  by_contra hneg
  rcases mem_nodes.mp hn with rfl | ⟨c, hc, hn⟩
  · exact hgood.1 ⟨w, hw, Int.not_le.mp hneg⟩
  · refine hgood.2 ⟨c, hc, fun hlegible => hneg ((hlegible n hn).2 w hw)⟩

end Expr

namespace Reader

variable {e : Expr} {n : Nat}

/-- The text of an expression with a negative count is refused. -/
theorem exprUpTo_refuses (h : e.Written) (hbad : ¬ e.Legible)
    (hn : (bytesOf e.text).length ≤ n) : Refuses (exprUpTo n) e := by
  induction e using Expr.childInduct generalizing n with
  | h e ih =>
    have hspelled := h e (Expr.self_mem_nodes e)
    obtain ⟨w, -, hw⟩ := hspelled.exists_firstWord
    have hpos := hw.length_pos
    obtain ⟨m, rfl⟩ : ∃ m, n = m + 1 := ⟨n - 1, by omega⟩
    have hlen : ∀ c ∈ e.children, (bytesOf c.text).length ≤ m := fun c hc => by
      have hlt := Expr.length_lt_of_child hc
      omega
    refine exprUpTo_node_refuses hspelled (fun c hc => ?_) (fun c hc => ?_) ?_
    · by_cases hc' : c.Legible
      · exact .inl (exprUpTo_text hc' (hlen c hc))
      · exact .inr (ih c hc (h.child hc) hc' (hlen c hc))
    · obtain ⟨w, -, hw⟩ := (h.child hc c (Expr.self_mem_nodes c)).exists_firstWord
      exact ⟨w, hw⟩
    · refine (h.exists_bad hbad).imp_right fun ⟨c, hc, hc'⟩ => ?_
      exact ⟨c, hc, ih c hc (h.child hc) hc' (hlen c hc)⟩

theorem expr_refuses (h : e.Written) (hbad : ¬ e.Legible) : Refuses expr e := by
  intro r hr
  refine exprUpTo_refuses h hbad ?_ r hr
  rw [List.length_append]
  exact Nat.le_add_right _ _

variable {r : Input}

theorem expr_blank_refuses (h : e.Written) (hbad : ¬ e.Legible) (hr : EndsWord r) :
    Stops (expr (' '.toUInt8 :: (bytesOf e.text ++ r))) := by
  rw [expr, exprUpTo_blank (by decide)]
  refine exprUpTo_refuses h hbad ?_ r hr
  rw [List.length_cons, List.length_append]
  omega

theorem rhs_refuses (h : e.Written) (hbad : ¬ e.Legible) (hr : EndsWord r) :
    Stops (rhs (bytesOf " = " ++ (bytesOf e.text ++ r))) := by
  have hbytes : bytesOf " = " = [' '.toUInt8, '='.toUInt8, ' '.toUInt8] := rfl
  rw [hbytes, List.cons_append, List.cons_append, List.singleton_append, rhs,
    expect_blank (by decide)]
  exact stops_behind (expect_cons (by decide)) (expr_blank_refuses h hbad hr)

theorem args_written_refuses {es : List Expr} (h : ∀ a ∈ es, a.Written)
    (hbad : ∃ a ∈ es, ¬ a.Legible) (r : Input) :
    Stops (args expr (bytesOf (Expr.argsText (Expr.texts es)) ++ r)) := by
  refine args_refuses (fun a ha => ?_) (fun a ha => ?_) ?_ r
  · by_cases ha' : a.Legible
    · exact .inl (expr_text ha')
    · exact .inr (expr_refuses (h a ha) ha')
  · obtain ⟨w, -, hw⟩ := (h a ha a (Expr.self_mem_nodes a)).exists_firstWord
    exact ⟨w, hw⟩
  · obtain ⟨a, ha, ha'⟩ := hbad
    exact ⟨a, ha, expr_refuses (h a ha) ha'⟩

/-! ## Effects -/

theorem attributes_guard_refuses {f : Effect} (h : e.Written) (hbad : ¬ e.Legible)
    (hr : EndsWord r) :
    Stops (attributes (n + 1) f (bytesOf " guard=" ++ (bytesOf e.text ++ r))) := by
  have hbytes : bytesOf " guard=" = ' '.toUInt8 :: (bytesOf "guard" ++ ['='.toUInt8]) := rfl
  obtain ⟨hword, -, -⟩ := keyword_spec "guard" (by decide)
  rw [hbytes, List.cons_append, List.append_assoc, List.singleton_append, attributes]
  simp +decide only [word_blank, hword.word, endsWord_cons, if_false, eat_cons]
  exact ((expr_refuses h hbad r hr).within _).bind _

theorem attributes_mem_refuses {f : Effect} {t : Touch} (ht : t.Spelled) (h : e.Written)
    (hbad : ¬ e.Legible) (size : Int64) (r : Input) :
    Stops (attributes (n + 1) f (bytesOf (" mem=" ++ t.name ++ ":" ++ e.text ++ ":" ++
      Numeral.decimal size.toInt) ++ r)) := by
  obtain ⟨hword, -, -⟩ := keyword_spec "mem" (by decide)
  rw [bytesOf_mem, attributes]
  simp +decide only [word_blank, hword.word, endsWord_cons, if_false, eat_cons]
  refine stops_behind (touch_text ht.1 ht.2 _) ?_
  exact ((expr_refuses h hbad _ (endsWord_cons.mpr (by decide))).within _).bind _

/-- The guard or the address stops the attributes of an effect. -/
theorem attributes_refuses {f g : Effect} (h : (Stmt.effect f).Written)
    (hbad : ¬ f.guard.Legible ∨ f.memTouch ≠ .none ∧ ¬ f.memAddr.Legible) (hn : 2 ≤ n)
    (hr : EndsWord r) : Stops (attributes n g (bytesOf (attributesText f) ++ r)) := by
  have hspelled : f.Spelled := h.spelled
  have htouches := endsWord_touches f.state hr
  obtain ⟨m, rfl⟩ : ∃ m, n = m + 1 + 1 := ⟨n - 2, by omega⟩
  rw [attributesText]
  simp only [bytesOf_append, List.append_assoc]
  by_cases hguard : f.guard.Legible
  · obtain ⟨htouch, haddr⟩ := hbad.resolve_left (not_not_intro hguard)
    rw [attributes_guard hguard (endsWord_memText f htouches), memText_of_touches htouch]
    exact attributes_mem_refuses (hspelled.touched htouch)
      (h.operands _ (Effect.memAddr_mem_operands htouch)) haddr _ _
  · exact attributes_guard_refuses (h.operands _ Effect.guard_mem_operands) hguard
      (endsWord_memText f htouches)

theorem effect_refuses {f : Effect} (h : (Stmt.effect f).Written)
    (hbad : ∃ e ∈ (Stmt.effect f).operands, ¬ e.Legible) (hr : EndsWord r) :
    Stops (effect f.result (' '.toUInt8 :: (bytesOf f.callee ++
      (bytesOf (Expr.argsText (Expr.texts f.args)) ++ (bytesOf (attributesText f) ++ r))))) := by
  have hcallee : IsWord f.callee := Effect.Spelled.callee h.spelled
  have hargs : ∀ a ∈ f.args, a.Written := fun a ha => h.operands a (Effect.arg_mem_operands ha)
  rw [effect]
  simp +decide only [word_blank, hcallee.word (Expr.endsWord_argsText _ _), hcallee.1, if_false]
  by_cases hlegible : ∀ a ∈ f.args, a.Legible
  · have hlen : 2 ≤ (bytesOf (attributesText f) ++ r).length := by
      have hle := length_attributesText f
      rw [List.length_append]
      omega
    refine stops_behind_within (args_legible hlegible _) ((attributes_refuses h ?_ hlen hr).bind _)
    -- it is no argument that is not legible
    obtain ⟨e, he, hbad⟩ := hbad
    rw [Stmt.operands, Effect.operands, List.mem_append, List.mem_cons] at he
    rcases he with he | rfl | he
    · by_cases htouch : f.memTouch = .none
      · simp [Effect.touchesMem, htouch] at he
      · obtain rfl : e = f.memAddr := by simpa [Effect.touchesMem, htouch] using he
        exact .inr ⟨htouch, hbad⟩
    · exact .inl hbad
    · exact absurd (hlegible e he) hbad
  · push Not at hlegible
    exact ((args_written_refuses hargs hlegible _).within _).bind _

/-! ## Statements -/

theorem definition_assign_refuses {t : Temp} (h : e.Written) (hbad : ¬ e.Legible)
    (hr : EndsWord r) : Stops (definition t (bytesOf " = " ++ (bytesOf e.text ++ r))) := by
  have hbytes : bytesOf " = " = [' '.toUInt8, '='.toUInt8, ' '.toUInt8] := rfl
  obtain ⟨w, hne, hw⟩ := (h e (Expr.self_mem_nodes e)).exists_firstWord
  rw [hbytes, List.cons_append, List.cons_append, List.singleton_append, definition,
    expect_blank (by decide)]
  refine stops_behind (expect_cons (by decide)) ?_
  simp +decide only [word_blank, hw.word hr, hne, if_false]
  exact ((expr_blank_refuses h hbad hr).within _).bind _

theorem definition_effect_refuses {f : Effect} {t : Temp} (h : (Stmt.effect f).Written)
    (hbad : ∃ e ∈ (Stmt.effect f).operands, ¬ e.Legible) (ht : f.result = some t)
    (hr : EndsWord r) :
    Stops (definition t (bytesOf " = " ++ (bytesOf "EFFECT" ++ ' '.toUInt8 :: (bytesOf f.callee ++
      (bytesOf (Expr.argsText (Expr.texts f.args)) ++ (bytesOf (attributesText f) ++ r)))))) := by
  have hbytes : bytesOf " = " = [' '.toUInt8, '='.toUInt8, ' '.toUInt8] := rfl
  obtain ⟨hword, -, -⟩ := keyword_spec "EFFECT" (by decide)
  have hstops := effect_refuses h hbad hr
  rw [ht] at hstops
  rw [hbytes, List.cons_append, List.cons_append, List.singleton_append, definition,
    expect_blank (by decide)]
  refine stops_behind (expect_cons (by decide)) ?_
  simp +decide only [word_blank, hword.word, endsWord_cons, if_true]
  exact hstops

end Reader

/-- What keeps a written statement from being legible is its window or an operand. -/
theorem Stmt.Written.exists_bad {s : Stmt} (h : s.Written) (hbad : ¬ s.Legible) :
    (∃ w, s.window? = some w ∧ w.count.toInt < 0) ∨ ∃ e ∈ s.operands, ¬ e.Legible := by
  by_contra hgood
  rw [not_or] at hgood
  refine hbad ⟨h.spelled, fun w hw => ?_, fun e he => ?_⟩
  · by_contra hneg
    exact hgood.1 ⟨w, hw, Int.not_le.mp hneg⟩
  · by_contra he'
    exact hgood.2 ⟨e, he, he'⟩

namespace Reader

variable {r : Input}

/-- A statement that is not legible is refused. -/
theorem stmt_refuses {s : Stmt} (h : s.Written) (hbad : ¬ s.Legible) (hr : EndsWord r) :
    Stops (stmt (bytesOf s.text ++ r)) := by
  have hwindow (hnone : s.window? = none) : ∃ e ∈ s.operands, ¬ e.Legible :=
    (h.exists_bad hbad).resolve_left fun ⟨w, hw, _⟩ => by simp [hnone] at hw
  cases s with
  | missing => exact h.spelled.elim
  | noop | mark | fence => simpa [Stmt.operands] using hwindow rfl
  | assign dst src =>
    have hsrc : ¬ src.Legible := by simpa [Stmt.operands] using hwindow rfl
    rw [bytesOf_assign, stmt_temp h.spelled (endsWord_equals _)]
    exact definition_assign_refuses (h.operands src (by simp [Stmt.operands])) hsrc hr
  | put off data =>
    have hdata : ¬ data.Legible := by simpa [Stmt.operands] using hwindow rfl
    obtain ⟨hword, htemp, -⟩ := keyword_spec "PUT" (by decide)
    rw [bytesOf_put, stmt]
    simp +decide only [hword.skip, hword.word, endsWord_cons, htemp]
    refine stops_behind (parenthesized_decimal off _) ?_
    exact ((rhs_refuses (h.operands data (by simp [Stmt.operands])) hdata hr).within _).bind _
  | putIx w ix bias data =>
    have hix : ix.Written := h.operands ix (by simp [Stmt.operands])
    have hdata : data.Written := h.operands data (by simp [Stmt.operands])
    obtain ⟨hword, htemp, -⟩ := keyword_spec "PUTI" (by decide)
    rw [bytesOf_putIx, stmt]
    simp only [hword.skip, hword.word (Expr.endsWord_indexedText _ _ _ _), htemp]
    by_cases hneg : w.count.toInt < 0
    · exact ((indexed_refuses h.spelled (.inl hneg) bias _).within _).bind _
    · by_cases hix' : ix.Legible
      · have hdata' : ¬ data.Legible := by
          simpa [Stmt.window?, Stmt.operands, hneg, hix'] using h.exists_bad hbad
        have hread := indexed_text h.spelled (Int.not_lt.mp hneg) (expr_text hix') bias
          (bytesOf " = " ++ (bytesOf data.text ++ r))
        exact stops_behind_within hread (((rhs_refuses hdata hdata' hr).within _).bind _)
      · exact ((indexed_refuses h.spelled (.inr (expr_refuses hix hix')) bias _).within _).bind _
  | store addr data =>
    have haddr : addr.Written := h.operands addr (by simp [Stmt.operands])
    have hdata : data.Written := h.operands data (by simp [Stmt.operands])
    obtain ⟨hword, htemp, -⟩ := keyword_spec "ST" (by decide)
    rw [bytesOf_store, stmt]
    simp only [hword.skip, hword.word (Expr.endsWord_argsText _ _), htemp]
    by_cases haddr' : addr.Legible
    · have hdata' : ¬ data.Legible := by simpa [Stmt.operands, haddr'] using hwindow rfl
      exact stops_behind_within (oneArg_legible haddr' _)
        (((rhs_refuses hdata hdata' hr).within _).bind _)
    · refine (((args_written_refuses (List.forall_mem_singleton.mpr haddr) ?_ _).bind _).within
        _).bind _
      exact ⟨addr, List.mem_singleton_self _, haddr'⟩
  | effect f =>
    rw [Stmt.text]
    cases hres : f.result with
    | none =>
      obtain ⟨hword, htemp, -⟩ := keyword_spec "EFFECT" (by decide)
      have hstops := effect_refuses h (hwindow rfl) hr
      rw [hres] at hstops
      rw [bytesOf_effect_none hres, stmt]
      simp +decide only [hword.skip, hword.word, endsWord_cons, htemp]
      exact hstops
    | some t =>
      have ht : 0 ≤ t.toInt := Effect.Spelled.result h.spelled t hres
      rw [bytesOf_effect_some hres, stmt_temp ht (endsWord_equals _)]
      exact definition_effect_refuses h (hwindow rfl) hres hr
  | exit guard kind dst =>
    have hguard : ¬ guard.Legible := by simpa [Stmt.operands] using hwindow rfl
    obtain ⟨hword, htemp, -⟩ := keyword_spec "if" (by decide)
    rw [bytesOf_exit, stmt]
    simp +decide only [hword.skip, hword.word, endsWord_cons, htemp, exit, expect_blank]
    refine stops_behind (expect_cons (by decide)) ?_
    have hstops := expr_refuses (h.operands guard (by simp [Stmt.operands])) hguard
    exact ((hstops _ (endsWord_cons.mpr (by decide))).within _).bind _

/-! ## Blocks -/

theorem jump_refuses {next : Expr} {kind : JumpKind} (h : next.Written) (hbad : ¬ next.Legible)
    (hkind : kind.isValid = true) (temps : Array Ty) (r : Input) :
    Stops (jump temps (' '.toUInt8 :: '\x7b'.toUInt8 :: (bytesOf kind.name ++ '\x7d'.toUInt8 ::
      ' '.toUInt8 :: (bytesOf next.text ++ '\n'.toUInt8 :: r)))) := by
  rw [jump, jumpKind_blank (by decide)]
  refine stops_behind (jumpKind_text hkind _) ?_
  exact ((expr_blank_refuses h hbad (endsWord_cons.mpr (by decide))).within _).bind _

/-- The first statement that is not legible stops the lines, or else the successor does. -/
theorem body_refuses {ss : List Stmt} {next : Expr} {kind : JumpKind} (hss : ∀ s ∈ ss, s.Written)
    (hnext : next.Written) (hkind : kind.isValid = true)
    (hbad : (∃ s ∈ ss, ¬ s.Legible) ∨ ¬ next.Legible) (n : Nat) (temps : Array Ty) (k : Nat) :
    Stops (body n temps k (stmtLines ss (jumpLine next kind r))) := by
  induction ss generalizing n k with
  | nil =>
    have hbad : ¬ next.Legible := by simpa using hbad
    obtain ⟨hgoto, -, -⟩ := keyword_spec "goto" (by decide)
    cases n with
    | zero => exact ⟨_, rfl⟩
    | succ n =>
      rw [stmtLines, jumpLine, body]
      simp +decide only [word_blank, hgoto.word, endsWord_cons, if_false, if_true]
      exact jump_refuses hnext hbad hkind temps _
  | cons s ss ih =>
    rw [List.forall_mem_cons] at hss
    have hpause := pause_lines ss next kind r
    cases n with
    | zero => exact ⟨_, rfl⟩
    | succ n =>
      rw [stmtLines, body_stmtLine hss.1.spelled hpause]
      by_cases hs : s.Legible
      · -- this line is read back, so what is refused comes behind it
        have hrest : (∃ s ∈ ss, ¬ s.Legible) ∨ ¬ next.Legible := by simpa [hs] using hbad
        have hstmt :=
          stmt_text hs hpause.endsWord (quiet_lines fun s hs => (hss.2 s hs).spelled)
        exact stops_behind_within hstmt ((ih hss.2 hrest n (k + 1)).bind _)
      · exact ((stmt_refuses hss.1 hs hpause.endsWord).within _).bind _

end Reader

namespace Block

variable {b : Block}

theorem Spelled.written (h : b.Spelled) : (∀ s ∈ b.stmts, s.Written) ∧ b.next.Written := by
  refine ⟨fun s hs => ⟨h.stmts s hs, fun e he n hn => h.nodes n ?_⟩, fun n hn => h.nodes n ?_⟩
  · exact mem_nodes_of_stmt hs (List.mem_flatMap.mpr ⟨e, he, hn⟩)
  · exact mem_nodes_of_next hn

/-- The windows of a block are those of its statements and of its successor. -/
theorem counted_of_legible (hss : ∀ s ∈ b.stmts, s.Legible) (hnext : b.next.Legible) :
    b.Counted := by
  intro w hw
  rw [Int64.le_iff_toInt_le]
  rcases List.mem_append.mp hw with hw | hw
  · obtain ⟨n, hn, hw⟩ := List.mem_filterMap.mp hw
    rcases List.mem_append.mp hn with hn | hn
    · obtain ⟨s, hs, hn⟩ := List.mem_flatMap.mp hn
      obtain ⟨e, he, hn⟩ := List.mem_flatMap.mp hn
      exact ((hss s hs).operands e he n hn).2 w hw
    · exact (hnext n hn).2 w hw
  · obtain ⟨s, hs, hw⟩ := List.mem_filterMap.mp hw
    exact (hss s hs).counted w hw

end Block

/-- The text of a block with a negative count is refused. -/
theorem Reader.block_refuses {b : Block} (h : b.Spelled) (hnum : b.Numbered) (hbad : ¬ b.Counted)
    (r : Input) : Stops (block (bytesOf b.text ++ r)) := by
  obtain ⟨hword, -, -⟩ := keyword_spec "IRBlock" (by decide)
  obtain ⟨hss, hnext⟩ := h.written
  have hsep := (pause_lines b.stmts b.next b.kind r).endsWord
  have hlines : (∃ s ∈ b.stmts, ¬ s.Legible) ∨ ¬ b.next.Legible := by
    by_contra hgood
    push Not at hgood
    exact hbad (Block.counted_of_legible hgood.1 hgood.2)
  obtain ⟨n, hn⟩ : ∃ n, (declLine b.temps (stmtLines b.stmts
      (jumpLine b.next b.kind r))).length = n + b.temps.size := by
    have hdecl := length_le_declLine b.temps (stmtLines b.stmts (jumpLine b.next b.kind r))
    exact ⟨_, (Nat.sub_add_cancel (by omega)).symm⟩
  rw [bytesOf_block, block]
  simp +decide only [hword.keyword, endsWord_cons, expect_blank, expect_cons, bind, Except.bind, hn]
  rw [body_declLine h.temps hnum hsep]
  exact body_refuses hss hnext h.kind hlines n b.temps 0

/-- A block with a written form is what its text is read as if its temporaries can be numbered and
no window has a negative count, and only then. -/
theorem Block.Spelled.read_text_eq_ok_iff {b : Block} (h : b.Spelled) :
    Block.read (bytesOf b.text) = .ok b ↔ b.Numbered ∧ b.Counted := by
  constructor
  · intro hread
    obtain ⟨-, hnum⟩ := spelled_of_read hread
    refine ⟨hnum, ?_⟩
    by_contra hbad
    obtain ⟨e, he⟩ := Reader.block_refuses h hnum hbad []
    rw [List.append_nil] at he
    rw [Block.read, he] at hread
    cases hread
  · rintro ⟨hnum, hcount⟩
    exact read_text (h.legible hnum hcount)

end Straightline
