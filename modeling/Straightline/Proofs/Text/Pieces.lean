import Mathlib
import Straightline.Proofs.Text.Locality

/-!
# The pieces of expressions and statements

Expressions and statements depend on the piece of the text that they take, and not on what is behind
it. No brace opens in the piece of an expression.

Effects are the exception. Nothing closes their list of attributes, so with another text behind them
they resume reading where they left off.
-/

namespace Straightline

open Lexer

namespace Reader

/-! ## Expressions -/

section Operands

variable {plain : Prop} {read : Input → Except Stop (Expr × Input)} {s r u : Input} {x : Expr}

/-- Another argument comes behind a comma. -/
theorem argsFrom_comma (hread : Operands read) (hx : read s = .ok (x, r))
    (hu : eat ',' (skip r) = some u) (k : Nat) :
    argsFrom read s.length k s =
      argsFrom read u.length (k + 1) u >>= fun xs => .ok (x :: xs.1, xs.2) := by
  have hr : r <:+ s := ((hread.advances s).beyond _ hx).suffix
  have hlen := ((eat_beyond hu).suffix.trans ((skip_suffix r).trans hr)).length_le
  rw [argsFrom_congr (m := s.length + 1) hread hread (fun _ _ => rfl) (Nat.le_refl _) (by omega),
    argsFrom, hx]
  simp only [within, bind, Except.bind, hu]
  rw [argsFrom_congr hread hread (fun _ _ => rfl) hlen (Nat.le_refl _)]

/-- The last argument has no comma behind it. -/
theorem argsFrom_last (hread : Operands read) (hx : read s = .ok (x, r))
    (hr : eat ',' (skip r) = none) (k : Nat) :
    argsFrom read s.length k s = expect ')' r >>= fun u => .ok ([x], u) := by
  rw [argsFrom_congr (m := s.length + 1) hread hread (fun _ _ => rfl) (Nat.le_refl _) (by omega),
    argsFrom, hx]
  simp only [within, bind, Except.bind, hr]

theorem argsFrom_local (hread : Operands read)
    (h : ∀ u, u <:+ s → Local (Taken plain) u (read u) read) (k : Nat) :
    Local (Taken plain) s (argsFrom read s.length k s) fun u => argsFrom read u.length k u := by
  induction hn : s.length using Nat.strong_induction_on generalizing s k with
  | h n ih =>
    subst hn
    cases hx : read s with
    | error e =>
      rw [argsFrom_congr (m := s.length + 1) hread hread (fun _ _ => rfl) (Nat.le_refl _) (by omega),
        argsFrom, hx]
      exact .error
    | ok xr =>
      obtain ⟨x, r⟩ := xr
      have hr : Beyond r s := (hread.advances s).beyond _ hx
      obtain ⟨c, rfl, hc, hg⟩ := h s (List.suffix_refl s) x r hx
      -- the piece of the first argument goes on to the mark behind it
      cases hu : eat ',' (skip r) with
      | some u =>
        rw [argsFrom_comma hread hx hu]
        have hu' := hr.of_suffix ((eat_beyond hu).suffix.trans (skip_suffix r))
        obtain ⟨bs, rfl, hbs, hskip⟩ := eat_takes plain (fun _ => by decide) hu
        have hrest := ih u.length hu'.length_lt (fun v hv => h v (hv.trans hu'.suffix)) (k + 1) rfl
        rw [← List.append_assoc]
        refine .behind (h := fun _ t => argsFrom read t.length (k + 1) t >>= fun xs =>
          .ok (x :: xs.1, xs.2)) (hc.append_piece (.inr hbs)) (fun t ht => ?_) fun _ => .weaken ?_
        · rw [List.append_assoc]
          exact argsFrom_comma hread (hg _ (ht.append _)) (by rw [hskip, eat_cons]) k
        · exact hrest.bind fun xs _ _ _ => .ok fun _ => rfl
      | none =>
        rw [argsFrom_last hread hx hu, expect]
        cases hu' : eat ')' (skip r) with
        | none => exact .error
        | some u =>
          obtain ⟨bs, rfl, hbs, hskip⟩ := eat_takes plain (fun _ => by decide) hu'
          rw [← List.append_assoc]
          refine .behind (h := fun _ t => .ok ([x], t)) (hc.append_piece (.inr hbs))
            (fun t ht => ?_) fun _ => .ok fun _ => rfl
          rw [List.append_assoc, argsFrom_last hread (hg _ (ht.append _))
            (by rw [hskip]; exact eat_of_ne (by decide)), expect, hskip, eat_cons]
          rfl

theorem args_local (hread : Operands read)
    (h : ∀ u, u <:+ s → Local (Taken plain) u (read u) read) :
    Local (Taken plain) s (args read s) (args read) := by
  unfold args
  refine (expect_steps fun _ => by decide).bind fun s₁ h₁ _ => .weaken ?_
  cases hu : eat ')' (skip s₁) with
  | some u =>
    obtain ⟨bs, rfl, hbs, hskip⟩ := eat_takes plain (fun _ => by decide) hu
    refine .behind (h := fun _ t => .ok ([], t)) hbs (fun t _ => ?_) fun _ => .ok fun _ => rfl
    simp only [hskip, eat_cons]
  | none =>
    -- what is taken of the first argument keeps the parenthesis from being closed
    have hargs := argsFrom_local (k := 0) hread fun u hu => h u (hu.trans h₁)
    intro xs t heq
    obtain ⟨c, rfl, hc, hg⟩ := hargs xs t heq
    refine ⟨c, rfl, hc, fun t' ht' => ?_⟩
    simp only [hc.eat_none hu, hg t' ht']

theorem oneArg_local (hread : Operands read)
    (h : ∀ u, u <:+ s → Local (Taken plain) u (read u) read) :
    Local (Taken plain) s (oneArg read s) (oneArg read) := by
  unfold oneArg
  refine (args_local hread h).bind fun xs s₁ _ u => ?_
  rcases xs with _ | ⟨a, _ | ⟨b, xs⟩⟩
  · exact .error
  · exact .ok fun _ => rfl
  · exact .error

theorem window_local (s : Input) : Local (Taken plain) s (window s) window := by
  unfold window
  refine (expect_steps fun _ => by decide).bind fun s₁ _ _ => .weaken ?_
  refine (number_local s₁).bind fun base s₂ _ _ => .weaken ?_
  refine (expect_steps fun _ => by decide).bind fun s₃ _ _ => .weaken ?_
  rcases hw : word s₃ with ⟨w, r⟩
  simp only
  split
  · next d ds c cs hdigits hrest =>
    have hne : w ≠ "" := by
      rintro rfl
      cases hdigits
    cases hn : Numeral.read (String.ofList (w.toList.takeWhile isDigit)) with
    | error e => exact .error
    | ok n =>
      cases helem : Ty.ofName? (String.ofList (c :: cs)) with
      | none => exact .error
      | some elem =>
        refine local_word hw hne (h := fun _ r => expect ')' r >>= fun r =>
          .ok (⟨base, elem, n.toInt64⟩, r)) (fun _ => .weaken ?_) fun u v hv _ => ?_
        · exact (expect_steps fun _ => by decide).bind fun _ _ _ => .ok fun _ => rfl
        · rw [hdigits] at hn
          simp only [hv, hdigits, hrest, hn, helem]
  · exact .error

theorem indexed_local (h : ∀ u, u <:+ s → Local (Taken plain) u (read u) read) :
    Local (Taken plain) s (indexed read s) (indexed read) := by
  unfold indexed
  refine (window_local s).bind fun w s₁ h₁ _ => .weaken ?_
  refine (expect_steps fun _ => by decide).bind fun s₂ h₂ _ => .weaken ?_
  refine ((h s₂ (h₂.trans h₁)).within .index).bind fun ix s₃ _ _ => .weaken ?_
  refine (expect_steps fun _ => by decide).bind fun s₄ _ _ => .weaken ?_
  refine (number_local s₄).bind fun bias s₅ _ _ => .weaken ?_
  exact (expect_steps fun _ => by decide).bind fun _ _ _ => .ok fun _ => rfl

/-- Beyond its word, an expression depends on what its form takes. -/
theorem exprAt_local (hread : Operands read)
    (h : ∀ u, u <:+ r → Local (Taken plain) u (read u) read) (w : String) (s u : Input) :
    Local (Piece plain) r (exprAt read w s r) (exprAt read w u) := by
  unfold exprAt
  -- the forms by their words, in the order in which the reader knows them: reads of a register and
  -- of a window element, a load, a call, a choice, an operator
  split
  · refine .weaken ((expect_steps fun _ => by decide).bind fun s₁ _ _ => .weaken ?_)
    refine (type_local s₁).bind fun ty s₂ _ _ => .weaken ?_
    exact (parenthesized_local s₂).bind fun off _ _ _ => .ok fun _ => rfl
  · exact .weaken (((indexed_local h).within .getIx).bind fun w _ _ _ => .ok fun _ => rfl)
  · refine .weaken ((expect_steps fun _ => by decide).bind fun s₁ h₁ _ => .weaken ?_)
    refine (type_local s₁).bind fun ty s₂ h₂ _ => .weaken ?_
    have hone := oneArg_local hread fun u hu => h u (hu.trans (h₂.trans h₁))
    exact (hone.within .load).bind fun a _ _ _ => .ok fun _ => rfl
  · -- the name of the callee is one more word, and what follows it must not lengthen it
    rcases hw : word r with ⟨callee, r'⟩
    simp only
    split
    · exact .error
    · next hne =>
      refine .weaken (local_word hw hne (h := fun _ r => expect ':' r >>= fun r => type r >>= fun ty =>
        within (.call callee) (args read ty.2) >>= fun xs => .ok (.call callee ty.1 xs.1, xs.2))
        (fun _ => .weaken ?_) fun u v hv _ => ?_)
      · refine (expect_steps fun _ => by decide).bind fun s₁ h₁ _ => .weaken ?_
        refine (type_local s₁).bind fun ty s₂ h₂ _ => .weaken ?_
        have hargs := args_local hread fun u hu =>
          h u (hu.trans (h₂.trans (h₁.trans (word_suffix hw))))
        exact (hargs.within (.call callee)).bind fun xs _ _ _ => .ok fun _ => rfl
      · simp only [hv, hne, if_false]
  · refine .weaken (.within ((args_local hread h).bind fun xs s₁ _ _ => ?_) .select)
    rcases xs with _ | ⟨a, _ | ⟨b, _ | ⟨c, _ | ⟨d, xs⟩⟩⟩⟩
    · exact .error
    · exact .error
    · exact .error
    · exact .ok fun _ => rfl
    · exact .error
  · split
    · exact .error
    · next op _ =>
      refine .weaken (.within ((args_local hread h).bind fun xs s₁ _ _ => ?_) (.op op))
      rcases xs with _ | ⟨a, _ | ⟨b, _ | ⟨c, xs⟩⟩⟩
      · exact .error
      · simp only
        split
        · exact .ok fun _ => rfl
        · exact .error
      · simp only
        split
        · exact .ok fun _ => rfl
        · exact .error
      · exact .error

end Operands

/-- An expression by its first word, in all the bytes left. -/
theorem expr_eq {s r : Input} {w : String} (hw : word s = (w, r)) (hne : w ≠ "") :
    (∀ ds, tempDigits? w = some ds → expr s = tempOf ds (skip s) >>= fun t => .ok (.tmp t, r)) ∧
    (tempDigits? w = none → w.toList.head?.any isDigit = true → (eat ':' r).isSome = true →
      expr s = constant (skip s) >>= fun c => .ok (.const c.1, c.2)) ∧
    (tempDigits? w = none → (w.toList.head?.any isDigit = false ∨ eat ':' r = none) →
      expr s = exprAt expr w (skip s) r) := by
  obtain ⟨c, cs, hcs⟩ : ∃ c cs, w.toList = c :: cs := by
    refine List.exists_cons_of_ne_nil fun hnil => hne ?_
    rw [← String.ofList_toList (s := w), hnil]
  have hr := word_beyond hw hne
  have hexpr : expr s = exprUpTo (s.length + 1) s := exprUpTo_congr (Nat.le_refl _) (by omega)
  rw [hexpr, exprUpTo, word_skip, hw]
  simp only [hcs, List.head?_cons, Option.any_some]
  refine ⟨fun ds hds => ?_, fun hnone hdigit hcolon => ?_, fun hnone hform => ?_⟩
  · simp only [hds]
  · simp only [hnone, hdigit, hcolon, Bool.and_true, if_true]
  · have hcond : (isDigit c && (eat ':' r).isSome) = false := by
      rcases hform with hdigit | hcolon
      · rw [hdigit, Bool.false_and]
      · rw [hcolon, Option.isSome_none, Bool.and_false]
    simp only [hnone, hcond, Bool.false_eq_true, if_false]
    refine exprAt_congr (exprUpTo_operands _) expr_operands w fun u hu => ?_
    exact exprUpTo_eq (hu.trans hr.suffix).length_le

theorem constant_skip (s : Input) : constant (skip s) = constant s := by
  have hskip := skip_skip s
  rw [constant, constant, unsigned, unsigned, word_skip, hskip]

/-- A constant takes the colon behind its number. -/
theorem constant_beyond {s r t : Input} {w : String} {c : Const} (hw : word s = (w, r))
    (h : constant s = .ok (c, t)) : Beyond t r := by
  rw [constant, unsigned, hw] at h
  simp only at h
  cases hv : Numeral.read w with
  | error e =>
    rw [hv] at h
    cases h
  | ok v =>
    simp only [hv, bind, Except.bind] at h
    split at h
    · cases h
    · next r' hr' =>
      split at h
      · cases h
      · split at h
        · obtain ⟨-, rfl⟩ := Prod.mk.inj (Except.ok.inj h)
          exact (eat_beyond hr').of_suffix (word_suffix rfl)
        · cases h

/-- A constant that an expression consists of: the number is its first word, and the colon is taken
with it. -/
theorem constant_form {plain : Prop} {s r : Input} {w : String} (hw : word s = (w, r))
    (hne : w ≠ "") (hds : tempDigits? w = none) (hdigit : w.toList.head?.any isDigit = true)
    (hcolon : (eat ':' r).isSome = true) :
    Local (Taken plain) s (constant s >>= fun c => .ok (.const c.1, c.2)) expr := by
  intro x t heq
  cases hk : constant s with
  | error e =>
    rw [hk] at heq
    cases heq
  | ok kt =>
    obtain ⟨k, t⟩ := kt
    rw [hk] at heq
    obtain ⟨rfl, rfl⟩ := Prod.mk.inj (Except.ok.inj heq)
    have hlocal : Local (Taken plain) s (constant s) constant := constant_local s
    obtain ⟨c, hs, hc, hg⟩ := hlocal k t hk
    obtain ⟨cw, hcw, -, hword⟩ := word_takes plain hw hne
    have hbeyond := constant_beyond hw hk
    obtain ⟨d, rfl⟩ := hbeyond.suffix
    obtain ⟨b, d, rfl⟩ : ∃ b d', d = b :: d' := by
      refine List.exists_cons_of_ne_nil fun hnil => ?_
      have hlt := hbeyond.length_lt
      rw [hnil] at hlt
      exact Nat.lt_irrefl _ hlt
    obtain rfl : b = ':'.toUInt8 := by
      obtain ⟨u, hu⟩ := Option.isSome_iff_exists.mp hcolon
      exact (List.cons.inj (eq_cons_of_eat hu)).1
    obtain rfl : c = cw ++ ':'.toUInt8 :: d := by
      rw [hs, ← List.append_assoc] at hcw
      exact List.append_cancel_right hcw
    refine ⟨_, hs, hc, fun t' ht' => ?_⟩
    have hw' := hword _ (ht'.append (':'.toUInt8 :: d))
    rw [← List.append_assoc] at hw'
    rw [(expr_eq hw' hne).2.1 hds hdigit (by rw [List.cons_append, eat_cons]; rfl), constant_skip,
      hg t' ht']
    rfl

theorem expr_local (plain : Prop) (s : Input) : Local (Taken plain) s (expr s) expr := by
  induction hn : s.length using Nat.strong_induction_on generalizing s with
  | h n ih =>
    subst hn
    rcases hw : word s with ⟨w, r⟩
    by_cases hne : w = ""
    · have hexpr : expr s = exprUpTo (s.length + 1) s := exprUpTo_congr (Nat.le_refl _) (by omega)
      rw [hexpr, exprUpTo, word_skip, hw, hne]
      exact .error
    · obtain ⟨htemp, hconst, hform⟩ := expr_eq hw hne
      have hr := word_beyond hw hne
      cases hds : tempDigits? w with
      | some ds =>
        rw [htemp ds hds]
        cases ht : tempOf ds (skip s) with
        | error e => exact .error
        | ok t =>
          refine local_word hw hne (fun _ => .ok fun _ => rfl) fun u v hv _ => ?_
          rw [(expr_eq hv hne).1 ds hds, tempOf_ok ht]
          rfl
      | none =>
        by_cases hnum : w.toList.head?.any isDigit = true ∧ (eat ':' r).isSome = true
        · rw [hconst hds hnum.1 hnum.2, constant_skip]
          exact constant_form hw hne hds hnum.1 hnum.2
        · have hnot : w.toList.head?.any isDigit = false ∨ eat ':' r = none := by
            rw [not_and_or] at hnum
            simpa using hnum
          rw [hform hds hnot]
          refine local_word hw hne (h := fun u v => exprAt expr w (skip u) v) (fun u => ?_)
            fun u v hv hfollows => ?_
          · refine exprAt_local expr_operands (fun v hv => ?_) w _ _
            have hlen := (hr.of_suffix hv).length_lt
            exact ih v.length hlen v rfl
          · refine (expr_eq hv hne).2.2 hds (hnot.imp_right fun hnone => ?_)
            exact hfollows.eat_none (by decide) hnone

/-! ## Statements -/

theorem rhs_local (plain : Prop) (s : Input) : Local (Taken plain) s (rhs s) rhs := by
  unfold rhs
  exact (expect_steps fun _ => by decide).bind fun s₁ _ _ => (expr_local plain s₁).weaken

/-- An attribute with the name `w`, added to `e`, behind its equals sign; `s` is the input where it
starts. -/
def oneAttribute (w : String) (e : Effect) (s r : Input) : Except Stop (Effect × Input) :=
  match w with
  | "guard" => do
    let (g, r) ← within .guard (expr r)
    .ok ({ e with guard := g }, r)
  | "mem" => do
    let (t, r) ← touch r
    let (a, r) ← within .memAddr (expr r)
    let r ← expectHere ':' r
    let (size, r) ← number r
    .ok ({ e with memTouch := t, memAddr := a, memSize := size }, r)
  | "fx" => do
    let (t, r) ← touch r
    let (off, r) ← number r
    let r ← expectHere ':' r
    let (size, r) ← number r
    .ok ({ e with state := e.state ++ [⟨t, off, size⟩] }, r)
  | _ => .error ⟨skip s, .unknownAttribute w⟩

theorem oneAttribute_other {w : String} (hguard : w ≠ "guard") (hmem : w ≠ "mem")
    (hfx : w ≠ "fx") {e : Effect} {s r : Input} :
    oneAttribute w e s r = .error ⟨skip s, .unknownAttribute w⟩ := by
  unfold oneAttribute
  split
  · exact absurd rfl hguard
  · exact absurd rfl hmem
  · exact absurd rfl hfx
  · rfl

/-- Attributes are read one after the other. -/
theorem attributes_eq {s r r' : Input} {w : String} (hw : word s = (w, r)) (hne : w ≠ "")
    (hr : eat '=' r = some r') (e : Effect) :
    attributes s.length e s =
      oneAttribute w e s r' >>= fun f => attributes f.2.length f.1 f.2 := by
  have hbeyond : Beyond r' s := (eat_beyond hr).trans_suffix (word_suffix hw)
  have hnext {u : Input} (hu : u <:+ r') (f : Effect) :
      attributes s.length f u = attributes u.length f u :=
    attributes_congr (hu.trans hbeyond.suffix).length_le (Nat.le_refl _) f
  rw [attributes_congr (m := s.length + 1) (Nat.le_refl _) (by omega), attributes, hw]
  simp only [hne, if_false, hr]
  split
  · simp only [oneAttribute, bind_assoc]
    exact ((expr_advances r').within _).bind_congr fun x hx => hnext hx.suffix _
  · simp only [oneAttribute, bind_assoc]
    refine (touch_advances r').bind_congr fun t h₁ => ?_
    refine (((expr_advances _).within _).trans_suffix h₁.suffix).bind_congr fun a h₂ => ?_
    refine ((expectHere_advances _ _).trans_suffix h₂.suffix).bind_congr fun s₃ h₃ => ?_
    exact ((number_advances s₃).trans_suffix h₃.suffix).bind_congr fun _ h₄ => hnext h₄.suffix _
  · simp only [oneAttribute, bind_assoc]
    refine (touch_advances r').bind_congr fun t h₁ => ?_
    refine ((number_advances _).trans_suffix h₁.suffix).bind_congr fun a h₂ => ?_
    refine ((expectHere_advances _ _).trans_suffix h₂.suffix).bind_congr fun s₃ h₃ => ?_
    exact ((number_advances s₃).trans_suffix h₃.suffix).bind_congr fun _ h₄ => hnext h₄.suffix _
  · next hguard hmem hfx =>
    rw [oneAttribute_other hguard hmem hfx]
    rfl

theorem oneAttribute_local (plain : Prop) (w : String) (e : Effect) (s u r : Input) :
    Local (Taken plain) r (oneAttribute w e s r) (oneAttribute w e u) := by
  unfold oneAttribute
  split
  · exact ((expr_local plain r).within .guard).bind fun g _ _ _ => .ok fun _ => rfl
  · refine (touch_local r).bind fun t s₁ _ _ => .weaken ?_
    refine ((expr_local plain s₁).within .memAddr).bind fun a s₂ _ _ => .weaken ?_
    refine (expectHere_steps (by decide) fun _ => by decide).bind fun s₃ _ _ => .weaken ?_
    exact (number_local s₃).bind fun size _ _ _ => .ok fun _ => rfl
  · refine (touch_local r).bind fun t s₁ _ _ => .weaken ?_
    refine (number_local s₁).bind fun off s₂ _ _ => .weaken ?_
    refine (expectHere_steps (by decide) fun _ => by decide).bind fun s₃ _ _ => .weaken ?_
    exact (number_local s₃).bind fun size _ _ _ => .ok fun _ => rfl
  · exact .error

/-- With other text behind them, attributes go on reading there. -/
theorem attributes_local (plain : Prop) (e : Effect) (s : Input) :
    LocalTo (Piece plain) s (attributes s.length e s) (fun u => attributes u.length e u)
      fun f t => attributes t.length f t := by
  induction hn : s.length using Nat.strong_induction_on generalizing s e with
  | h n ih =>
    subst hn
    rcases hw : word s with ⟨w, r⟩
    by_cases hattr : w ≠ "" ∧ (eat '=' r).isSome = true
    · obtain ⟨hne, hsome⟩ := hattr
      obtain ⟨r', hr'⟩ := Option.isSome_iff_exists.mp hsome
      have hlt := ((eat_beyond hr').trans_suffix (word_suffix hw)).length_lt
      rw [attributes_eq hw hne hr']
      obtain rfl := eq_cons_of_eat hr'
      obtain ⟨c, rfl, hc, hword⟩ := word_takes plain hw hne
      have htaken : Taken plain (c ++ ['='.toUInt8]) :=
        hc.append_piece (.inr (taken_mark (by decide) fun _ => by decide))
      rw [List.append_cons]
      refine .weaken (.behind (h := fun u t => oneAttribute w e u t >>= fun f =>
        attributes f.2.length f.1 f.2) htaken (fun t ht => ?_) fun u => .weaken ?_)
      · rw [← List.append_cons]
        exact attributes_eq (hword _ (ht.append ['='.toUInt8])) hne (eat_cons _ _) e
      · refine (oneAttribute_local plain w e _ u r').bind fun f s₁ h₁ _ => ?_
        have hle := h₁.length_le
        exact ih s₁.length (by omega) f s₁ rfl
    · -- no attribute comes next, so nothing is taken
      have hquiet (n : Nat) : attributes n e s = .ok (e, s) := by
        cases n with
        | zero => rfl
        | succ n =>
          rw [attributes, hw]
          by_cases hne : w = ""
          · simp only [hne, if_true]
          · have hnone : eat '=' r = none := by simpa [hne] using hattr
            simp only [hnone, ite_self]
      rw [hquiet]
      exact .ok fun _ => rfl

/-- A statement with another text behind it: an effect goes on reading its attributes. -/
def resumed : Stmt → Input → Except Stop (Stmt × Input)
  | .effect e, t => do
    let (e, t) ← attributes t.length e t
    if e.guard.isMissing then .error ⟨t, .guardExpected⟩ else .ok (.effect e, t)
  | x, t => .ok (x, t)

theorem effect_local (plain : Prop) (result : Option Temp) (s : Input) :
    LocalTo (Taken plain) s (effect result s) (effect result) resumed := by
  rcases hw : word s with ⟨callee, r⟩
  rw [effect, hw]
  simp only
  split
  · exact .error
  · next hne =>
    refine local_word hw hne (h := fun _ r => within (.effect callee) (args expr r) >>= fun xs =>
      attributes xs.2.length ⟨callee, .missing, xs.1, result, .none, .missing, 0, []⟩ xs.2 >>=
        fun f => if f.1.guard.isMissing then .error ⟨f.2, .guardExpected⟩
          else .ok (.effect f.1, f.2)) (fun _ => .weaken ?_) fun u v hv _ => ?_
    · have hargs := args_local expr_operands fun u (_ : u <:+ r) => expr_local plain u
      refine (hargs.within (.effect callee)).bind fun xs s₁ _ _ => ?_
      intro x t heq
      cases hattr : attributes s₁.length ⟨callee, .missing, xs, result, .none, .missing, 0, []⟩ s₁ with
      | error e =>
        simp only [hattr] at heq
        cases heq
      | ok ft =>
        obtain ⟨f, t₁⟩ := ft
        simp only [hattr, bind, Except.bind] at heq
        split at heq
        · cases heq
        · obtain ⟨rfl, rfl⟩ := Prod.mk.inj (Except.ok.inj heq)
          obtain ⟨c, hs, hc, hg⟩ := attributes_local plain _ s₁ f t₁ hattr
          refine ⟨c, hs, hc, fun t' ht' => ?_⟩
          simp only [hg t' ht']
          rfl
    · rw [effect, hv]
      simp only [hne, if_false]

/-- No expression starts with the keyword of effects. -/
theorem expr_effect {s r : Input} (hw : word s = ("EFFECT", r)) :
    expr s = .error ⟨skip s, .unknownExpr "EFFECT"⟩ := by
  obtain ⟨-, htemp, hdigit⟩ := keyword_spec "EFFECT" (by decide)
  rw [(expr_eq hw (by decide)).2.2 htemp (.inl hdigit)]
  rfl

theorem definition_local (plain : Prop) (t : Temp) (s : Input) :
    LocalTo (Taken plain) s (definition t s) (definition t) resumed := by
  unfold definition
  refine (expect_steps fun _ => by decide).bind fun s₁ _ _ => .weaken ?_
  rcases hw : word s₁ with ⟨w, r⟩
  by_cases heff : w = "EFFECT"
  · subst heff
    simp only [if_true]
    refine local_word hw (by decide) (h := fun _ r => effect (some t) r)
      (fun _ => (effect_local plain (some t) r).weaken) fun u v hv _ => ?_
    simp only [hv, if_true]
  · simp only [heff, if_false]
    intro x t₁ heq
    cases hx : expr s₁ with
    | error e =>
      rw [hx] at heq
      cases heq
    | ok xr =>
      obtain ⟨a, t₂⟩ := xr
      rw [hx] at heq
      obtain ⟨rfl, rfl⟩ := Prod.mk.inj (Except.ok.inj heq)
      obtain ⟨c, rfl, hc, hg⟩ := expr_local plain s₁ a t₂ hx
      refine ⟨c, rfl, hc, fun t' ht' => ?_⟩
      have hne : (word (c ++ t')).1 ≠ "EFFECT" := by
        intro heff
        have hfail := expr_effect (Prod.ext heff rfl)
        rw [hg t' ht'] at hfail
        cases hfail
      simp only [hne, if_false, hg t' ht']
      rfl

theorem exit_local (s : Input) : LocalTo (Taken False) s (exit s) exit resumed := by
  unfold exit
  refine (expect_steps False.elim).bind fun s₁ _ _ => .weaken ?_
  refine ((expr_local False s₁).within .guard).bind fun guard s₂ _ _ => .weaken ?_
  refine (expect_steps False.elim).bind fun s₃ _ _ => .weaken ?_
  refine (keyword_steps (by decide)).bind fun s₄ _ _ => .weaken ?_
  refine (jumpKind_local s₄).bind fun kind s₅ _ _ => .weaken ?_
  exact ((constant_local s₅).within .exitTarget).bind fun dst _ _ _ => .ok fun _ => rfl

theorem mark_local (plain : Prop) (s : Input) : LocalTo (Taken plain) s (mark s) mark resumed := by
  unfold mark
  refine (expect_steps fun _ => by decide).bind fun s₁ _ _ => .weaken ?_
  refine (unsigned_local s₁).bind fun addr s₂ _ _ => .weaken ?_
  refine (expect_steps fun _ => by decide).bind fun s₃ _ _ => .weaken ?_
  refine (number_local s₃).bind fun len s₄ _ _ => .weaken ?_
  exact (expect_steps fun _ => by decide).bind fun _ _ _ => .ok fun _ => rfl

/-- A statement depends on its piece, apart from an effect, which may find more attributes behind
it. -/
theorem stmt_local (s : Input) : LocalTo (Taken False) s (stmt s) stmt resumed := by
  rcases hw : word s with ⟨w, r⟩
  by_cases hne : w = ""
  · rw [stmt, word_skip, hw, hne]
    exact .error
  · cases hds : tempDigits? w with
    | some ds =>
      rw [stmt, word_skip, hw]
      simp only [hds]
      cases ht : tempOf ds (skip s) with
      | error e => exact .error
      | ok t =>
        refine local_word hw hne (h := fun _ r => definition t r)
          (fun _ => (definition_local False t r).weaken) fun u v hv _ => ?_
        rw [stmt, word_skip, hv]
        simp only [hds, tempOf_ok ht]
        rfl
    | none =>
      -- the reader of a statement with the same word goes on with the same form
      have hform {x : Except Stop (Stmt × Input)} {h : Input → Except Stop (Stmt × Input)}
          (hx : LocalTo (Piece False) r x h resumed)
          (hh : ∀ u v, word u = (w, v) → stmt u = h v) : LocalTo (Taken False) s x stmt resumed :=
        local_word hw hne (fun _ => hx) fun u v hv _ => hh u v hv
      rw [stmt, word_skip, hw]
      simp only [hds]
      split
      · refine hform (h := fun v => .ok (.noop, v)) (.ok fun _ => rfl) fun u v hv => ?_
        rw [stmt, word_skip, hv]
        simp only [hds]
      · refine hform (h := fun v => .ok (.fence, v)) (.ok fun _ => rfl) fun u v hv => ?_
        rw [stmt, word_skip, hv]
        simp only [hds]
      · refine hform (h := mark) (mark_local False r).weaken fun u v hv => ?_
        rw [stmt, word_skip, hv]
        simp only [hds]
      · refine hform (h := fun v => parenthesized v >>= fun off => within .put (rhs off.2) >>=
          fun data => .ok (.put off.1 data.1, data.2)) (.weaken ?_) fun u v hv => ?_
        · refine (parenthesized_local r).bind fun off s₁ _ _ => .weaken ?_
          exact ((rhs_local False s₁).within .put).bind fun data _ _ _ => .ok fun _ => rfl
        · rw [stmt, word_skip, hv]
          simp only [hds]
      · have hix := indexed_local fun u (_ : u <:+ r) => expr_local False u
        refine hform (h := fun v => within .putIx (indexed expr v) >>= fun ix =>
          within .putIx (rhs ix.2) >>= fun data =>
            .ok (.putIx ix.1.1 ix.1.2.1 ix.1.2.2 data.1, data.2)) (.weaken ?_) fun u v hv => ?_
        · refine (hix.within .putIx).bind fun ix s₁ _ _ => .weaken ?_
          exact ((rhs_local False s₁).within .putIx).bind fun data _ _ _ => .ok fun _ => rfl
        · rw [stmt, word_skip, hv]
          simp only [hds]
      · have hone := oneArg_local expr_operands fun u (_ : u <:+ r) => expr_local False u
        refine hform (h := fun v => within .store (oneArg expr v) >>= fun addr =>
          within .store (rhs addr.2) >>= fun data => .ok (.store addr.1 data.1, data.2))
          (.weaken ?_) fun u v hv => ?_
        · refine (hone.within .store).bind fun addr s₁ _ _ => .weaken ?_
          exact ((rhs_local False s₁).within .store).bind fun data _ _ _ => .ok fun _ => rfl
        · rw [stmt, word_skip, hv]
          simp only [hds]
      · refine hform (h := effect none) (effect_local False none r).weaken fun u v hv => ?_
        rw [stmt, word_skip, hv]
        simp only [hds]
      · refine hform (h := exit) (exit_local r).weaken fun u v hv => ?_
        rw [stmt, word_skip, hv]
        simp only [hds]
      · exact .error

end Reader
end Straightline
