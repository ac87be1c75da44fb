import Mathlib
import Straightline.Text.Reader

/-!
# Reading moves forward

Every reader leaves an end of the input that it was given, shorter than the input if it succeeds,
and stops, if it does not, at a place in that input. So the bounds on the number of steps are never
reached with bytes left over: from the number of bytes left on, they make no difference.
-/

namespace Straightline

open Lexer

/-- `r` is what is left of `s` behind one byte at least. -/
def Beyond (r s : Input) : Prop := r <:+ s ∧ r.length < s.length

namespace Beyond

variable {r s u : Input}

theorem suffix (h : Beyond r s) : r <:+ s := h.1

theorem length_lt (h : Beyond r s) : r.length < s.length := h.2

theorem of_suffix (hu : Beyond u s) (h : r <:+ u) : Beyond r s :=
  ⟨h.trans hu.1, Nat.lt_of_le_of_lt h.length_le hu.2⟩

theorem trans_suffix (h : Beyond r u) (hu : u <:+ s) : Beyond r s :=
  ⟨h.1.trans hu, Nat.lt_of_lt_of_le h.2 hu.length_le⟩

end Beyond

/-- A reading that started at `s` and stops in it, or leaves what is behind one byte of it at least.
What it leaves is picked out of its result by `rest`. -/
structure Advances {α : Type} (rest : α → Input) (s : Input) (x : Except Stop α) : Prop where
  stop : ∀ e, x = .error e → e.rest <:+ s
  beyond : ∀ a, x = .ok a → Beyond (rest a) s

namespace Advances

variable {α β : Type} {rest : α → Input} {rest' : β → Input} {s u : Input} {x : Except Stop α}

theorem ok {a : α} (h : Beyond (rest a) s) : Advances rest s (.ok a) :=
  ⟨fun _ he => (by cases he), fun _ ha => Except.ok.inj ha ▸ h⟩

theorem error {e : Stop} (h : e.rest <:+ s) : Advances rest s (.error e) :=
  ⟨fun _ he => Except.error.inj he ▸ h, fun _ ha => by cases ha⟩

/-- One step of a reading moves forward, so all of it does, if only the others do not move back. -/
theorem bind (h : Advances rest s x) {f : α → Except Stop β}
    (hf : ∀ a, Beyond (rest a) s → Advances rest' s (f a)) : Advances rest' s (x >>= f) := by
  cases x with
  | error e => exact error (h.stop e rfl)
  | ok a => exact hf a (h.beyond a rfl)

/-- A reading of an end of the input is one of the input. -/
theorem trans_suffix (h : Advances rest u x) (hu : u <:+ s) : Advances rest s x :=
  ⟨fun e he => (h.stop e he).trans hu, fun a ha => (h.beyond a ha).trans_suffix hu⟩

/-- Two readings that go on alike from behind a byte are the same. -/
theorem bind_congr (h : Advances rest s x) {f g : α → Except Stop β}
    (hfg : ∀ a, Beyond (rest a) s → f a = g a) : x >>= f = x >>= g := by
  cases x with
  | error e => rfl
  | ok a => exact hfg a (h.beyond a rfl)

theorem map (h : Advances rest s x) : Advances id s (x.map rest) := by
  cases x with
  | error e => exact error (h.stop e rfl)
  | ok a => exact ok (h.beyond a rfl)

theorem within (h : Advances rest s x) (p : Place) : Advances rest s (within p x) := by
  cases x with
  | error e => exact error (h.stop e rfl)
  | ok a => exact ok (h.beyond a rfl)

end Advances

/-! ## Words and marks -/

namespace Lexer

variable {s r : Input}

theorem skip_suffix (s : Input) : skip s <:+ s := List.dropWhile_suffix _

theorem skip_skip (s : Input) : skip (skip s) = skip s := List.dropWhile_idempotent isBlank s

theorem word_suffix {w : String} (h : word s = (w, r)) : r <:+ s := by
  obtain ⟨-, rfl⟩ := Prod.mk.inj h
  exact (List.dropWhile_suffix _).trans (skip_suffix s)

theorem word_beyond {w : String} (h : word s = (w, r)) (hne : w ≠ "") : Beyond r s := by
  refine ⟨word_suffix h, ?_⟩
  obtain ⟨hw, rfl⟩ := Prod.mk.inj h
  have hbytes : (skip s).takeWhile isWordByte ≠ [] := by
    intro hnil
    rw [hnil] at hw
    exact hne hw.symm
  have hsplit := congrArg List.length
    (List.takeWhile_append_dropWhile (p := isWordByte) (l := skip s))
  have hpos := List.length_pos_iff.mpr hbytes
  have hskip := (skip_suffix s).length_le
  rw [List.length_append] at hsplit
  omega

theorem eat_beyond {c : Char} (h : eat c s = some r) : Beyond r s := by
  cases s with
  | nil => cases h
  | cons b s =>
    rw [eat] at h
    split at h
    · obtain rfl := Option.some.inj h
      exact ⟨List.suffix_cons b s, by simp⟩
    · cases h

theorem expectHere_advances (c : Char) (s : Input) : Advances id s (expectHere c s) := by
  rw [expectHere]
  split
  · next h => exact .ok (eat_beyond h)
  · exact .error (List.suffix_refl s)

theorem expect_advances (c : Char) (s : Input) : Advances id s (expect c s) := by
  rw [expect]
  split
  · next h => exact .ok ((eat_beyond h).trans_suffix (skip_suffix s))
  · exact .error (skip_suffix s)

theorem keyword_advances {kw : String} (hkw : kw ≠ "") (s : Input) :
    Advances id s (keyword kw s) := by
  rw [keyword]
  rcases hw : word s with ⟨w, r⟩
  simp only
  split
  · next h => exact .ok (word_beyond hw (h ▸ hkw))
  · exact .error (skip_suffix s)

theorem tempOf_stop {ds : List Char} {e : Stop} (h : tempOf ds s = .error e) : e.rest <:+ s := by
  rw [tempOf] at h
  split at h
  · cases h
  · obtain rfl := Except.error.inj h
    exact skip_suffix s

theorem type_advances (s : Input) : Advances Prod.snd s (type s) := by
  rw [type]
  rcases hw : word s with ⟨w, r⟩
  simp only
  split
  · next h => exact .ok (word_beyond hw (by rintro rfl; cases h))
  · exact .error (skip_suffix s)

/-- No word is no number. -/
theorem ne_empty_of_read {w : String} {v : UInt64} (h : Numeral.read w = .ok v) : w ≠ "" := by
  rintro rfl
  cases h

theorem unsigned_advances (s : Input) : Advances Prod.snd s (unsigned s) := by
  rw [unsigned]
  rcases hw : word s with ⟨w, r⟩
  simp only
  split
  · next h => exact .ok (word_beyond hw (ne_empty_of_read h))
  · exact .error (skip_suffix s)

theorem number_advances (s : Input) : Advances Prod.snd s (number s) := by
  rw [number]
  cases hsign : eat '-' (skip s) with
  | none =>
    simp only
    rcases hw : word s with ⟨w, r⟩
    split
    · next h => exact .ok (word_beyond hw (ne_empty_of_read h))
    · exact .error (skip_suffix s)
  | some u =>
    have hu := (eat_beyond hsign).trans_suffix (skip_suffix s)
    simp only
    rcases hw : word u with ⟨w, r⟩
    split
    · exact .ok (hu.of_suffix (word_suffix hw))
    · exact .error (skip_suffix s)

theorem parenthesized_advances (s : Input) : Advances Prod.snd s (parenthesized s) := by
  rw [parenthesized]
  refine (expect_advances _ s).bind fun s₁ h₁ => ?_
  refine ((number_advances s₁).trans_suffix h₁.suffix).bind fun v h₂ => ?_
  refine ((expect_advances _ _).trans_suffix h₂.suffix).bind fun s₃ h₃ => ?_
  exact .ok h₃

theorem jumpKind_advances (s : Input) : Advances Prod.snd s (jumpKind s) := by
  rw [jumpKind]
  refine (expect_advances _ s).bind fun s₁ h₁ => ?_
  rcases hw : word s₁ with ⟨w, r⟩
  simp only
  split
  · exact .error (skip_suffix s)
  · have hr := (word_suffix hw).trans h₁.suffix
    refine ((expect_advances _ r).trans_suffix hr).bind fun s₂ h₂ => ?_
    exact .ok h₂

theorem constant_advances (s : Input) : Advances Prod.snd s (constant s) := by
  rw [constant]
  refine (unsigned_advances s).bind fun v h₁ => ?_
  simp only
  split
  · exact .error h₁.suffix
  · next r hr =>
    have h₂ := (eat_beyond hr).trans_suffix h₁.suffix
    rcases hw : word r with ⟨w, r'⟩
    have h₃ := h₂.of_suffix (word_suffix hw)
    simp only
    split
    · exact .error h₃.suffix
    · split
      · exact .ok h₃
      · exact .error (skip_suffix s)

theorem touch_advances (s : Input) : Advances Prod.snd s (touch s) := by
  rw [touch]
  rcases hw : word s with ⟨w, r⟩
  simp only
  split
  · exact .error (skip_suffix s)
  · exact .error (skip_suffix s)
  · refine ((expectHere_advances _ r).trans_suffix (word_suffix hw)).bind fun s₁ h₁ => ?_
    exact .ok h₁

end Lexer

namespace Reader

/-! ## Expressions -/

section Operands

variable {read : Input → Except Stop (Expr × Input)}

theorem argsFrom_advances (hread : ∀ u, Advances Prod.snd u (read u)) (n k : Nat) (s : Input) :
    Advances Prod.snd s (argsFrom read n k s) := by
  induction n generalizing k s with
  | zero => exact .error (List.suffix_refl s)
  | succ n ih =>
    rw [argsFrom]
    refine ((hread s).within _).bind fun x h₁ => ?_
    simp only
    split
    · next r hr =>
      have h₂ := (eat_beyond hr).suffix.trans ((skip_suffix _).trans h₁.suffix)
      exact ((ih (k + 1) r).trans_suffix h₂).bind fun _ h₃ => .ok h₃
    · exact ((expect_advances _ _).trans_suffix h₁.suffix).bind fun _ h₂ => .ok h₂

theorem args_advances (hread : ∀ u, Advances Prod.snd u (read u)) (s : Input) :
    Advances Prod.snd s (args read s) := by
  rw [args]
  refine (expect_advances _ s).bind fun s₁ h₁ => ?_
  split
  · next r hr =>
    exact .ok (((eat_beyond hr).trans_suffix (skip_suffix s₁)).trans_suffix h₁.suffix)
  · exact (argsFrom_advances hread _ _ s₁).trans_suffix h₁.suffix

theorem oneArg_advances (hread : ∀ u, Advances Prod.snd u (read u)) (s : Input) :
    Advances Prod.snd s (oneArg read s) := by
  rw [oneArg]
  refine (args_advances hread s).bind fun x h₁ => ?_
  simp only
  split
  · exact .ok h₁
  · exact .error (List.suffix_refl s)

theorem window_advances (s : Input) : Advances Prod.snd s (window s) := by
  rw [window]
  refine (expect_advances _ s).bind fun s₁ h₁ => ?_
  refine ((number_advances s₁).trans_suffix h₁.suffix).bind fun base h₂ => ?_
  refine ((expect_advances _ _).trans_suffix h₂.suffix).bind fun s₃ h₃ => ?_
  rcases hw : word s₃ with ⟨w, r⟩
  have h₄ := h₃.of_suffix (word_suffix hw)
  simp only
  -- wherever the shape is found wrong, that is said of its start
  split
  · split
    · exact .error h₃.suffix
    · split
      · exact .error h₃.suffix
      · exact ((expect_advances _ r).trans_suffix h₄.suffix).bind fun _ h₅ => .ok h₅
  · exact .error h₃.suffix

theorem indexed_advances (hread : ∀ u, Advances Prod.snd u (read u)) (s : Input) :
    Advances Prod.snd s (indexed read s) := by
  rw [indexed]
  refine (window_advances s).bind fun w h₁ => ?_
  refine ((expect_advances _ _).trans_suffix h₁.suffix).bind fun s₂ h₂ => ?_
  refine (((hread s₂).within _).trans_suffix h₂.suffix).bind fun ix h₃ => ?_
  refine ((expect_advances _ _).trans_suffix h₃.suffix).bind fun s₄ h₄ => ?_
  refine ((number_advances s₄).trans_suffix h₄.suffix).bind fun bias h₅ => ?_
  exact ((expect_advances _ _).trans_suffix h₅.suffix).bind fun _ h₆ => .ok h₆

/-- The word that an expression starts with moves it forward. -/
theorem exprAt_advances (hread : ∀ u, Advances Prod.snd u (read u)) (w : String) {s r : Input}
    (hr : Beyond r s) : Advances Prod.snd s (exprAt read w s r) := by
  unfold exprAt
  split
  · refine ((expect_advances _ r).trans_suffix hr.suffix).bind fun s₁ h₁ => ?_
    refine ((type_advances s₁).trans_suffix h₁.suffix).bind fun ty h₂ => ?_
    exact ((parenthesized_advances _).trans_suffix h₂.suffix).bind fun _ h₃ => .ok h₃
  · exact (((indexed_advances hread r).within _).trans_suffix hr.suffix).bind fun _ h₁ => .ok h₁
  · refine ((expect_advances _ r).trans_suffix hr.suffix).bind fun s₁ h₁ => ?_
    refine ((type_advances s₁).trans_suffix h₁.suffix).bind fun ty h₂ => ?_
    exact (((oneArg_advances hread _).within _).trans_suffix h₂.suffix).bind fun _ h₃ => .ok h₃
  · rcases hw : word r with ⟨callee, r'⟩
    have h₁ := hr.of_suffix (word_suffix hw)
    simp only
    split
    · exact .error h₁.suffix
    · refine ((expect_advances _ r').trans_suffix h₁.suffix).bind fun s₂ h₂ => ?_
      refine ((type_advances s₂).trans_suffix h₂.suffix).bind fun ty h₃ => ?_
      exact (((args_advances hread _).within _).trans_suffix h₃.suffix).bind fun _ h₄ => .ok h₄
  · refine Advances.within ?_ _
    refine ((args_advances hread r).trans_suffix hr.suffix).bind fun xs h₁ => ?_
    simp only
    split
    · exact .ok h₁
    · exact .error hr.suffix
  · split
    · exact .error (List.suffix_refl s)
    · refine Advances.within ?_ _
      refine ((args_advances hread r).trans_suffix hr.suffix).bind fun xs h₁ => ?_
      simp only
      split
      · split
        · exact .ok h₁
        · exact .error hr.suffix
      · split
        · exact .ok h₁
        · exact .error hr.suffix
      · exact .error hr.suffix

end Operands

theorem exprUpTo_advances (n : Nat) (s : Input) : Advances Prod.snd s (exprUpTo n s) := by
  induction n generalizing s with
  | zero => exact .error (skip_suffix s)
  | succ n ih =>
    refine Advances.trans_suffix ?_ (skip_suffix s)
    rw [exprUpTo]
    rcases hw : word (skip s) with ⟨w, r⟩
    simp only
    split
    · exact .error (List.suffix_refl _)
    · next c cs hcs =>
      have hr : Beyond r (skip s) := word_beyond hw (by rintro rfl; cases hcs)
      split
      · cases ht : tempOf _ (skip s) with
        | error e => exact .error (tempOf_stop ht)
        | ok t => exact .ok hr
      · split
        · exact (constant_advances _).bind fun _ h₁ => .ok h₁
        · exact exprAt_advances ih w hr

theorem expr_advances (s : Input) : Advances Prod.snd s (expr s) := exprUpTo_advances _ s

/-! ## Statements -/

theorem rhs_advances (s : Input) : Advances Prod.snd s (rhs s) := by
  rw [rhs]
  refine (expect_advances _ s).bind fun s₁ h₁ => ?_
  exact (expr_advances s₁).trans_suffix h₁.suffix

/-- Attributes leave an end of the input, all of it if there are none: from behind one byte they
move forward. -/
theorem attributes_advances (n : Nat) (e : Effect) {s u : Input} (hu : Beyond u s) :
    Advances Prod.snd s (attributes n e u) := by
  induction n generalizing e u with
  | zero => exact .ok hu
  | succ n ih =>
    rw [attributes]
    rcases hw : word u with ⟨w, r⟩
    simp only
    split
    · exact .ok hu
    · next r' hr' =>
      have heat : eat '=' r = some r' := by
        split at hr'
        · cases hr'
        · exact hr'
      have h₁ := hu.of_suffix ((eat_beyond heat).suffix.trans (word_suffix hw))
      split
      · exact (((expr_advances r').within _).trans_suffix h₁.suffix).bind fun _ h₂ => ih _ h₂
      · refine ((touch_advances r').trans_suffix h₁.suffix).bind fun t h₂ => ?_
        refine (((expr_advances _).within _).trans_suffix h₂.suffix).bind fun a h₃ => ?_
        refine ((expectHere_advances _ _).trans_suffix h₃.suffix).bind fun s₄ h₄ => ?_
        exact ((number_advances s₄).trans_suffix h₄.suffix).bind fun _ h₅ => ih _ h₅
      · refine ((touch_advances r').trans_suffix h₁.suffix).bind fun t h₂ => ?_
        refine ((number_advances _).trans_suffix h₂.suffix).bind fun off h₃ => ?_
        refine ((expectHere_advances _ _).trans_suffix h₃.suffix).bind fun s₄ h₄ => ?_
        exact ((number_advances s₄).trans_suffix h₄.suffix).bind fun _ h₅ => ih _ h₅
      · exact .error ((skip_suffix u).trans hu.suffix)

theorem effect_advances (result : Option Temp) (s : Input) :
    Advances Prod.snd s (effect result s) := by
  rw [effect]
  rcases hw : word s with ⟨callee, r⟩
  have hr := word_suffix hw
  simp only
  split
  · exact .error hr
  · refine (((args_advances expr_advances r).within _).trans_suffix hr).bind fun xs h₁ => ?_
    refine (attributes_advances _ _ h₁).bind fun e h₂ => ?_
    split
    · exact .error h₂.suffix
    · exact .ok h₂

theorem definition_advances (t : Temp) (s : Input) : Advances Prod.snd s (definition t s) := by
  rw [definition]
  refine (expect_advances _ s).bind fun s₁ h₁ => ?_
  rcases hw : word s₁ with ⟨w, r⟩
  simp only
  split
  · exact (effect_advances _ r).trans_suffix ((word_suffix hw).trans h₁.suffix)
  · exact (((expr_advances s₁).within _).trans_suffix h₁.suffix).bind fun _ h₂ => .ok h₂

theorem exit_advances (s : Input) : Advances Prod.snd s (exit s) := by
  rw [exit]
  refine (expect_advances _ s).bind fun s₁ h₁ => ?_
  refine (((expr_advances s₁).within _).trans_suffix h₁.suffix).bind fun guard h₂ => ?_
  refine ((expect_advances _ _).trans_suffix h₂.suffix).bind fun s₃ h₃ => ?_
  refine ((keyword_advances (by decide) s₃).trans_suffix h₃.suffix).bind fun s₄ h₄ => ?_
  refine ((jumpKind_advances s₄).trans_suffix h₄.suffix).bind fun kind h₅ => ?_
  exact (((constant_advances _).within _).trans_suffix h₅.suffix).bind fun _ h₆ => .ok h₆

theorem mark_advances (s : Input) : Advances Prod.snd s (mark s) := by
  rw [mark]
  refine (expect_advances _ s).bind fun s₁ h₁ => ?_
  refine ((unsigned_advances s₁).trans_suffix h₁.suffix).bind fun addr h₂ => ?_
  refine ((expect_advances _ _).trans_suffix h₂.suffix).bind fun s₃ h₃ => ?_
  refine ((number_advances s₃).trans_suffix h₃.suffix).bind fun len h₄ => ?_
  exact ((expect_advances _ _).trans_suffix h₄.suffix).bind fun _ h₅ => .ok h₅

theorem stmt_advances (s : Input) : Advances Prod.snd s (stmt s) := by
  refine Advances.trans_suffix ?_ (skip_suffix s)
  rw [stmt]
  rcases hw : word (skip s) with ⟨w, r⟩
  have hr := word_suffix hw
  simp only
  split
  · cases ht : tempOf _ (skip s) with
    | error e => exact .error (tempOf_stop ht)
    | ok t => exact (definition_advances t r).trans_suffix hr
  · split
    · exact .ok (word_beyond hw (by decide))
    · exact .ok (word_beyond hw (by decide))
    · exact (mark_advances r).trans_suffix hr
    · refine ((parenthesized_advances r).trans_suffix hr).bind fun off h₁ => ?_
      exact (((rhs_advances _).within _).trans_suffix h₁.suffix).bind fun _ h₂ => .ok h₂
    · refine (((indexed_advances expr_advances r).within _).trans_suffix hr).bind fun w h₁ => ?_
      exact (((rhs_advances _).within _).trans_suffix h₁.suffix).bind fun _ h₂ => .ok h₂
    · refine (((oneArg_advances expr_advances r).within _).trans_suffix hr).bind fun a h₁ => ?_
      exact (((rhs_advances _).within _).trans_suffix h₁.suffix).bind fun _ h₂ => .ok h₂
    · exact (effect_advances _ r).trans_suffix hr
    · exact (exit_advances r).trans_suffix hr
    · exact .error (List.suffix_refl _)

/-! ## Blocks -/

theorem declaration_advances (digits : List Char) (i : Nat) {s r : Input} (hr : r <:+ s) :
    Advances Prod.snd s (declaration digits i s r) := by
  rw [declaration]
  cases ht : tempOf digits s with
  | error e => exact .error (tempOf_stop ht)
  | ok t =>
    change Advances Prod.snd s (if t.toInt = i then _ else _)
    split
    · refine ((expect_advances _ r).trans_suffix hr).bind fun s₁ h₁ => ?_
      exact (type_advances s₁).trans_suffix h₁.suffix
    · exact .error (skip_suffix s)

theorem jump_advances (temps : Array Ty) (s : Input) : Advances Prod.snd s (jump temps s) := by
  rw [jump]
  refine (jumpKind_advances s).bind fun kind h₁ => ?_
  refine (((expr_advances _).within _).trans_suffix h₁.suffix).bind fun next h₂ => ?_
  exact ((expect_advances _ _).trans_suffix h₂.suffix).bind fun _ h₃ => .ok h₃

theorem body_advances (n : Nat) (temps : Array Ty) (k : Nat) (s : Input) :
    Advances Prod.snd s (body n temps k s) := by
  induction n generalizing temps k s with
  | zero => exact .error (skip_suffix s)
  | succ n ih =>
    rw [body]
    rcases hw : word s with ⟨w, r⟩
    have hr := word_suffix hw
    simp only
    split
    · exact .error hr
    · split
      · exact (jump_advances temps r).trans_suffix hr
      · split
        · refine (declaration_advances _ _ hr).bind fun ty h₁ => ?_
          exact (ih _ _ _).trans_suffix h₁.suffix
        · refine ((stmt_advances s).within _).bind fun x h₁ => ?_
          exact ((ih _ _ _).trans_suffix h₁.suffix).bind fun _ h₂ => .ok h₂

theorem block_advances (s : Input) : Advances Prod.snd s (block s) := by
  rw [block]
  refine (keyword_advances (by decide) s).bind fun s₁ h₁ => ?_
  refine ((expect_advances _ s₁).trans_suffix h₁.suffix).bind fun s₂ h₂ => ?_
  exact (body_advances _ _ _ s₂).trans_suffix h₂.suffix

/-! ## Bounds

A reader with a bound gives the same at every bound that is not below the number of bytes left. -/

/-- The readers of operands: they move forward, and find nothing at the end of the input. -/
structure Operands (read : Input → Except Stop (Expr × Input)) : Prop where
  advances : ∀ u, Advances Prod.snd u (read u)
  nil : read [] = .error ⟨[], .exprExpected⟩

theorem exprUpTo_operands (n : Nat) : Operands (exprUpTo n) := by
  refine ⟨exprUpTo_advances n, ?_⟩
  cases n with
  | zero => rfl
  | succ n => rfl

theorem argsFrom_nil {read : Input → Except Stop (Expr × Input)} (h : Operands read) (n k : Nat) :
    argsFrom read n k [] = .error ⟨[], .within (.arg k) .exprExpected⟩ := by
  cases n with
  | zero => rfl
  | succ n =>
    rw [argsFrom, h.nil]
    rfl

section Congruence

variable {read read' : Input → Except Stop (Expr × Input)} {s : Input}

theorem argsFrom_congr (hread : Operands read) (hread' : Operands read')
    (h : ∀ u, u <:+ s → read u = read' u) {n m : Nat} (hn : s.length ≤ n) (hm : s.length ≤ m)
    (k : Nat) : argsFrom read n k s = argsFrom read' m k s := by
  induction n generalizing m k s with
  | zero =>
    obtain rfl := List.length_eq_zero_iff.mp (Nat.le_zero.mp hn)
    rw [argsFrom_nil hread, argsFrom_nil hread']
  | succ n ih =>
    cases m with
    | zero =>
      obtain rfl := List.length_eq_zero_iff.mp (Nat.le_zero.mp hm)
      rw [argsFrom_nil hread, argsFrom_nil hread']
    | succ m =>
      rw [argsFrom, argsFrom, ← h s (List.suffix_refl s)]
      refine ((hread.advances s).within _).bind_congr fun x hx => ?_
      simp only
      split
      · next r hr =>
        have hr' := hx.of_suffix ((eat_beyond hr).suffix.trans (skip_suffix _))
        have hlt := hr'.length_lt
        rw [ih (fun u hu => h u (hu.trans hr'.suffix)) (by omega) (by omega : r.length ≤ m)]
      · rfl

theorem args_congr (hread : Operands read) (hread' : Operands read')
    (h : ∀ u, u <:+ s → read u = read' u) : args read s = args read' s := by
  rw [args, args]
  refine (expect_advances _ s).bind_congr fun s₁ h₁ => ?_
  have hsuffix : s₁ <:+ s := h₁.suffix
  simp only [argsFrom_congr hread hread' (fun u hu => h u (hu.trans hsuffix))
    (Nat.le_refl _) (Nat.le_refl _) 0]

theorem indexed_congr (h : ∀ u, u <:+ s → read u = read' u) :
    indexed read s = indexed read' s := by
  rw [indexed, indexed]
  refine (window_advances s).bind_congr fun w h₁ => ?_
  refine ((expect_advances _ _).trans_suffix h₁.suffix).bind_congr fun s₂ h₂ => ?_
  rw [h s₂ h₂.suffix]

/-- Only what reads the operands of an expression matters, and there only what is behind its
word. -/
theorem exprAt_congr (hread : Operands read) (hread' : Operands read') (w : String)
    {r : Input} (h : ∀ u, u <:+ r → read u = read' u) :
    exprAt read w s r = exprAt read' w s r := by
  have hargs {u : Input} (hu : u <:+ r) : args read u = args read' u :=
    args_congr hread hread' fun v hv => h v (hv.trans hu)
  unfold exprAt
  split
  · rfl
  · rw [indexed_congr h]
  · refine (expect_advances _ r).bind_congr fun s₁ h₁ => ?_
    refine ((type_advances s₁).trans_suffix h₁.suffix).bind_congr fun ty h₂ => ?_
    simp only [oneArg, hargs h₂.suffix]
  · rcases hw : word r with ⟨callee, r'⟩
    have hr' := word_suffix hw
    simp only
    split
    · rfl
    · refine ((expect_advances _ r').trans_suffix hr').bind_congr fun s₁ h₁ => ?_
      refine ((type_advances s₁).trans_suffix h₁.suffix).bind_congr fun ty h₂ => ?_
      simp only [hargs h₂.suffix]
  · rw [hargs (List.suffix_refl r)]
  · rw [hargs (List.suffix_refl r)]

end Congruence

theorem exprUpTo_congr {s : Input} {n m : Nat} (hn : s.length ≤ n) (hm : s.length ≤ m) :
    exprUpTo n s = exprUpTo m s := by
  induction n generalizing m s with
  | zero =>
    obtain rfl := List.length_eq_zero_iff.mp (Nat.le_zero.mp hn)
    rw [(exprUpTo_operands 0).nil, (exprUpTo_operands m).nil]
  | succ n ih =>
    cases m with
    | zero =>
      obtain rfl := List.length_eq_zero_iff.mp (Nat.le_zero.mp hm)
      rw [(exprUpTo_operands 0).nil, (exprUpTo_operands (n + 1)).nil]
    | succ m =>
      rw [exprUpTo, exprUpTo]
      rcases hw : word (skip s) with ⟨w, r⟩
      simp only
      split
      · rfl
      · next c cs hcs =>
        -- the word takes a byte, so both bounds suffice for the operands
        have hr := (word_beyond hw (by rintro rfl; cases hcs)).trans_suffix (skip_suffix s)
        have hlt := hr.length_lt
        rw [exprAt_congr (exprUpTo_operands n) (exprUpTo_operands m) w fun u hu => ?_]
        have hle := hu.length_le
        exact ih (by omega) (by omega)

theorem exprUpTo_eq {s : Input} {n : Nat} (hn : s.length ≤ n) : exprUpTo n s = expr s :=
  exprUpTo_congr hn (Nat.le_refl _)

theorem expr_operands : Operands expr := ⟨expr_advances, rfl⟩

theorem attributes_nil (n : Nat) (e : Effect) : attributes n e [] = .ok (e, []) := by
  cases n with
  | zero => rfl
  | succ n => rfl

theorem attributes_congr {s : Input} {n m : Nat} (hn : s.length ≤ n) (hm : s.length ≤ m)
    (e : Effect) : attributes n e s = attributes m e s := by
  induction n generalizing m s e with
  | zero =>
    obtain rfl := List.length_eq_zero_iff.mp (Nat.le_zero.mp hn)
    rw [attributes_nil, attributes_nil]
  | succ n ih =>
    cases m with
    | zero =>
      obtain rfl := List.length_eq_zero_iff.mp (Nat.le_zero.mp hm)
      rw [attributes_nil, attributes_nil]
    | succ m =>
      -- what follows an attribute is shorter than what the equals sign is behind
      have hnext {u : Input} (hu : Beyond u s) (f : Effect) :
          attributes n f u = attributes m f u := by
        have hlt := hu.length_lt
        exact ih (by omega) (by omega) f
      rw [attributes, attributes]
      rcases hw : word s with ⟨w, r⟩
      simp only
      split
      · rfl
      · next r' hr' =>
        have heat : eat '=' r = some r' := by
          split at hr'
          · cases hr'
          · exact hr'
        have h₁ := (eat_beyond heat).trans_suffix (word_suffix hw)
        split
        · refine (((expr_advances r').within _).trans_suffix h₁.suffix).bind_congr fun _ h₂ => ?_
          exact hnext h₂ _
        · refine ((touch_advances r').trans_suffix h₁.suffix).bind_congr fun t h₂ => ?_
          refine (((expr_advances _).within _).trans_suffix h₂.suffix).bind_congr fun a h₃ => ?_
          refine ((expectHere_advances _ _).trans_suffix h₃.suffix).bind_congr fun s₄ h₄ => ?_
          refine ((number_advances s₄).trans_suffix h₄.suffix).bind_congr fun _ h₅ => ?_
          exact hnext h₅ _
        · refine ((touch_advances r').trans_suffix h₁.suffix).bind_congr fun t h₂ => ?_
          refine ((number_advances _).trans_suffix h₂.suffix).bind_congr fun off h₃ => ?_
          refine ((expectHere_advances _ _).trans_suffix h₃.suffix).bind_congr fun s₄ h₄ => ?_
          refine ((number_advances s₄).trans_suffix h₄.suffix).bind_congr fun _ h₅ => ?_
          exact hnext h₅ _
        · rfl

theorem body_nil (n : Nat) (temps : Array Ty) (k : Nat) :
    body n temps k [] = .error ⟨[], .stmtExpected⟩ := by
  cases n with
  | zero => rfl
  | succ n => rfl

theorem body_congr {s : Input} {n m : Nat} (hn : s.length ≤ n) (hm : s.length ≤ m)
    (temps : Array Ty) (k : Nat) : body n temps k s = body m temps k s := by
  induction n generalizing m s temps k with
  | zero =>
    obtain rfl := List.length_eq_zero_iff.mp (Nat.le_zero.mp hn)
    rw [body_nil, body_nil]
  | succ n ih =>
    cases m with
    | zero =>
      obtain rfl := List.length_eq_zero_iff.mp (Nat.le_zero.mp hm)
      rw [body_nil, body_nil]
    | succ m =>
      have hnext {u : Input} (hu : Beyond u s) (ts : Array Ty) (j : Nat) :
          body n ts j u = body m ts j u := by
        have hlt := hu.length_lt
        exact ih (by omega) (by omega) ts j
      rw [body, body]
      rcases hw : word s with ⟨w, r⟩
      simp only
      split
      · rfl
      · split
        · rfl
        · split
          · exact (declaration_advances _ _ (word_suffix hw)).bind_congr fun ty h₁ => hnext h₁ _ _
          · refine ((stmt_advances s).within _).bind_congr fun x h₁ => ?_
            simp only [hnext h₁]

end Reader
end Straightline
