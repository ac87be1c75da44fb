import Mathlib
import Straightline.Proofs.Text.Lexer
import Straightline.Proofs.Text.Progress

/-!
# What a reading depends on

A reader that succeeds takes a piece of its input and leaves the rest. What it gives depends on that
piece, and of what is behind it only on where the last word ends and which mark comes next: any text
that starts with a blank may be put there. `LocalTo` says so of one reading, and goes along with the
steps that the reading is made of. Here it is shown for words, marks, numbers and names.
-/

namespace Straightline

open Lexer

/-- A blank comes first. -/
def StartsBlank (t : Input) : Prop := ∃ b u, t = b :: u ∧ isBlank b = true

theorem StartsBlank.endsWord {t : Input} (h : StartsBlank t) : EndsWord t := by
  obtain ⟨b, u, rfl, hblank⟩ := h
  rw [endsWord_cons]
  by_contra hword
  rw [not_isBlank_of_isWordByte (Bool.not_eq_false _ ▸ hword)] at hblank
  cases hblank

/-- `t'` may stand where `t` does: it starts like `t`, or with a blank. -/
def Follows (t t' : Input) : Prop := t'.head? = t.head? ∨ StartsBlank t'

namespace Follows

variable {t t' : Input}

theorem append (h : Follows t t') (c : Input) : Follows (c ++ t) (c ++ t') := by
  cases c with
  | nil => exact h
  | cons b c => exact .inl rfl

theorem endsWord (h : Follows t t') (ht : EndsWord t) : EndsWord t' := by
  rcases h with heq | hblank
  · exact fun b hb => ht b (heq ▸ hb)
  · exact hblank.endsWord

/-- A mark that does not come next is none that a blank could be. -/
theorem eat_none (h : Follows t t') {c : Char} (hc : isBlank c.toUInt8 = false)
    (ht : eat c t = none) : eat c t' = none := by
  rcases h with heq | ⟨b, u, rfl, hblank⟩
  · cases t' with
    | nil => rfl
    | cons b u =>
      cases t with
      | nil => cases heq
      | cons b' t =>
        obtain rfl : b = b' := Option.some.inj heq
        rw [eat] at ht ⊢
        split at ht
        · cases ht
        · next hb => rw [if_neg hb]
  · refine eat_of_ne fun heq => ?_
    rw [heq, hc] at hblank
    cases hblank

end Follows

/-- A piece that a reading takes: its last byte is no blank and, if the reading is `plain`, no brace
opens in it. -/
structure Taken (plain : Prop) (c : Input) : Prop where
  last : ∃ d b, c = d ++ [b] ∧ isBlank b = false
  unbraced : plain → '\x7b'.toUInt8 ∉ c

/-- A piece that may be empty. -/
def Piece (plain : Prop) (c : Input) : Prop := c = [] ∨ Taken plain c

theorem Taken.append_piece {plain : Prop} {c d : Input} (hc : Taken plain c) (hd : Piece plain d) :
    Taken plain (c ++ d) := by
  rcases hd with rfl | hd
  · rwa [List.append_nil]
  · obtain ⟨d', b, rfl, hb⟩ := hd.last
    refine ⟨⟨c ++ d', b, by rw [List.append_assoc], hb⟩, fun h => ?_⟩
    rw [List.mem_append, not_or]
    exact ⟨hc.unbraced h, hd.unbraced h⟩

/-- A piece that is taken has a byte that blanks in front of it do not hide. -/
theorem Taken.skip_append {plain : Prop} {c : Input} (hc : Taken plain c) :
    ∃ b d, isBlank b = false ∧ ∀ t, skip (c ++ t) = b :: (d ++ t) := by
  obtain ⟨d, b, rfl, hb⟩ := hc.last
  clear hc
  induction d with
  | nil => exact ⟨b, [], hb, fun t => skip_cons hb⟩
  | cons x d ih =>
    by_cases hx : isBlank x = true
    · obtain ⟨b', d', hb', h⟩ := ih
      exact ⟨b', d', hb', fun t => (skip_blank hx).trans (h t)⟩
    · exact ⟨x, d ++ [b], Bool.not_eq_true _ ▸ hx, fun t => skip_cons (Bool.not_eq_true _ ▸ hx)⟩

/-- The next mark is in the piece. -/
theorem Taken.eat_none {plain : Prop} {c t : Input} (hc : Taken plain c) {m : Char}
    (h : eat m (skip (c ++ t)) = none) (t' : Input) : eat m (skip (c ++ t')) = none := by
  obtain ⟨b, d, -, hskip⟩ := hc.skip_append
  rw [hskip, eat] at h
  rw [hskip, eat]
  split at h
  · cases h
  · next hb => rw [if_neg hb]

/-- Of a reading `x` from `s`: it takes a piece of `s` with the property `q`, and from that piece
with another text `t'` behind it the reader `g` gets to where `next` goes on, with the same value
and with `t'` left. -/
def LocalTo {α β : Type} (q : Input → Prop) (s : Input) (x : Except Stop (α × Input))
    (g : Input → Except Stop β) (next : α → Input → Except Stop β) : Prop :=
  ∀ a t, x = .ok (a, t) → ∃ c, s = c ++ t ∧ q c ∧ ∀ t', Follows t t' → g (c ++ t') = next a t'

/-- The reader `g` gives the same value. -/
abbrev Local {α : Type} (q : Input → Prop) (s : Input) (x : Except Stop (α × Input))
    (g : Input → Except Stop (α × Input)) : Prop :=
  LocalTo q s x g fun a t => .ok (a, t)

namespace LocalTo

variable {α β γ : Type} {plain : Prop} {q : Input → Prop} {s : Input}
  {x : Except Stop (α × Input)} {g : Input → Except Stop (α × Input)}
  {next : α → Input → Except Stop γ} {k : Input → Except Stop γ}

theorem error {e : Stop} : LocalTo q s (.error e) k next := fun _ _ h => by cases h

/-- Nothing is taken where a value is given. -/
theorem ok {a : α} (h : ∀ t, k t = next a t) : LocalTo (Piece plain) s (.ok (a, s)) k next := by
  intro a' t heq
  obtain ⟨rfl, rfl⟩ := Prod.mk.inj (Except.ok.inj heq)
  exact ⟨[], rfl, .inl rfl, fun t' _ => h t'⟩

theorem weaken (h : LocalTo (Taken plain) s x k next) : LocalTo (Piece plain) s x k next := by
  intro a t heq
  obtain ⟨c, hs, hc, hk⟩ := h a t heq
  exact ⟨c, hs, .inr hc, hk⟩

/-- A reading that goes on behind a piece. How the input as a whole enters into it, for the place of
an error, makes no difference. -/
theorem behind {c : Input} {h : Input → Input → Except Stop γ} (hc : Taken plain c)
    (hk : ∀ t, Follows s t → k (c ++ t) = h (c ++ t) t)
    (hx : ∀ u, LocalTo (Piece plain) s x (h u) next) : LocalTo (Taken plain) (c ++ s) x k next := by
  intro a t heq
  obtain ⟨d, rfl, hd, -⟩ := hx [] a t heq
  refine ⟨c ++ d, (List.append_assoc _ _ _).symm, hc.append_piece hd, fun t' ht' => ?_⟩
  obtain ⟨d', hd', -, hh⟩ := hx (c ++ (d ++ t')) a t heq
  obtain rfl := List.append_cancel_right hd'
  rw [List.append_assoc, hk _ (ht'.append d)]
  exact hh t' ht'

/-- Readings one after the other. -/
theorem bind {y : α × Input → Except Stop (β × Input)} {next : β → Input → Except Stop γ}
    {h : Input → α × Input → Except Stop γ} (hx : Local (Taken plain) s x g)
    (hy : ∀ a s₁, s₁ <:+ s → ∀ u, LocalTo (Piece plain) s₁ (y (a, s₁)) (fun v => h u (a, v)) next) :
    LocalTo (Taken plain) s (x >>= y) (fun u => g u >>= h u) next := by
  cases x with
  | error e => exact error
  | ok as =>
    obtain ⟨a, s₁⟩ := as
    obtain ⟨c, rfl, hc, hg⟩ := hx a s₁ rfl
    refine behind hc (fun t ht => ?_) (hy a s₁ (List.suffix_append _ _))
    simp only [hg t ht]
    rfl

theorem within {g : Input → Except Stop (α × Input)} (h : Local q s x g) (p : Place) :
    Local q s (within p x) fun u => within p (g u) := by
  intro a t heq
  cases x with
  | error e => cases heq
  | ok as =>
    obtain ⟨c, hs, hc, hg⟩ := h a t heq
    refine ⟨c, hs, hc, fun t' ht' => ?_⟩
    simp only [hg t' ht']
    rfl

end LocalTo

/-- The reader `f`, which gives no value, takes a piece that depends on nothing behind it. -/
def Steps (plain : Prop) (f : Input → Except Stop Input) : Prop :=
  ∀ s r, f s = .ok r → ∃ c, s = c ++ r ∧ Taken plain c ∧ ∀ t, Follows r t → f (c ++ t) = .ok t

theorem Steps.bind {α γ : Type} {plain : Prop} {f : Input → Except Stop Input} (hf : Steps plain f)
    {s : Input} {y : Input → Except Stop (α × Input)} {next : α → Input → Except Stop γ}
    {h : Input → Input → Except Stop γ}
    (hy : ∀ s₁, s₁ <:+ s → ∀ u, LocalTo (Piece plain) s₁ (y s₁) (h u) next) :
    LocalTo (Taken plain) s (f s >>= y) (fun u => f u >>= h u) next := by
  cases hs : f s with
  | error e => exact .error
  | ok s₁ =>
    obtain ⟨c, rfl, hc, hg⟩ := hf s s₁ hs
    refine .behind hc (fun t ht => ?_) (hy s₁ (List.suffix_append _ _))
    simp only [hg t ht]
    rfl

/-! ## Words and marks -/

namespace Lexer

variable {α : Type} {plain : Prop} {s : Input}

theorem skip_blanks {bs : Input} (h : ∀ b ∈ bs, isBlank b = true) (s : Input) :
    skip (bs ++ s) = skip s := List.dropWhile_append_of_pos h

theorem word_skip (s : Input) : word (skip s) = word s := by
  have hskip := skip_skip s
  rw [word, word, hskip]

theorem endsWord_dropWhile (s : Input) : EndsWord (s.dropWhile isWordByte) := by
  intro b hb
  have h := List.head?_dropWhile_not isWordByte s
  rw [hb] at h
  exact h

/-- Bytes of a word, up to where no more of them come. -/
theorem word_bytes {bs r : Input} (h : ∀ b ∈ bs, isWordByte b = true) (hne : bs ≠ [])
    (hr : EndsWord r) : word (bs ++ r) = (ascii bs, r) := by
  have hskip : skip (bs ++ r) = bs ++ r := by
    obtain ⟨b, bs, rfl⟩ := List.exists_cons_of_ne_nil hne
    exact skip_cons (not_isBlank_of_isWordByte (h b List.mem_cons_self))
  have hstop : r.takeWhile isWordByte = [] ∧ r.dropWhile isWordByte = r := by
    cases r with
    | nil => exact ⟨rfl, rfl⟩
    | cons x r => simp [hr x rfl]
  rw [word, hskip, List.takeWhile_append_of_pos h, List.dropWhile_append_of_pos h, hstop.1, hstop.2,
    List.append_nil]

/-- A word depends on nothing behind it but that it ends there. -/
theorem word_takes (plain : Prop) {w : String} {r : Input} (hw : word s = (w, r)) (hne : w ≠ "") :
    ∃ c, s = c ++ r ∧ Taken plain c ∧ ∀ t, Follows r t → word (c ++ t) = (w, t) := by
  obtain ⟨rfl, rfl⟩ := Prod.mk.inj hw
  have hblank : ∀ b ∈ s.takeWhile isBlank, isBlank b = true := fun b hb => List.mem_takeWhile_imp hb
  have hword : ∀ b ∈ (skip s).takeWhile isWordByte, isWordByte b = true :=
    fun b hb => List.mem_takeWhile_imp hb
  have hbytes : (skip s).takeWhile isWordByte ≠ [] := fun hnil => hne (by rw [hnil]; rfl)
  refine ⟨s.takeWhile isBlank ++ (skip s).takeWhile isWordByte, ?_, ⟨?_, fun _ => ?_⟩, ?_⟩
  · rw [List.append_assoc, List.takeWhile_append_dropWhile, skip, List.takeWhile_append_dropWhile]
  · refine ⟨s.takeWhile isBlank ++ ((skip s).takeWhile isWordByte).dropLast,
      ((skip s).takeWhile isWordByte).getLast hbytes, ?_, ?_⟩
    · rw [List.append_assoc, List.dropLast_concat_getLast]
    · exact not_isBlank_of_isWordByte (hword _ (List.getLast_mem hbytes))
  · rw [List.mem_append, not_or]
    exact ⟨fun h => absurd (hblank _ h) (by decide), fun h => absurd (hword _ h) (by decide)⟩
  · intro t ht
    rw [List.append_assoc, word, skip_blanks hblank, ← word,
      word_bytes hword hbytes (ht.endsWord (endsWord_dropWhile _))]

/-- A reading behind a word. -/
theorem local_word {β : Type} {w : String} {r : Input} (hw : word s = (w, r)) (hne : w ≠ "")
    {x : Except Stop (α × Input)} {g : Input → Except Stop β} {next : α → Input → Except Stop β}
    {h : Input → Input → Except Stop β} (hx : ∀ u, LocalTo (Piece plain) r x (h u) next)
    (hg : ∀ u v, word u = (w, v) → Follows r v → g u = h u v) : LocalTo (Taken plain) s x g next := by
  obtain ⟨c, rfl, hc, hword⟩ := word_takes plain hw hne
  exact .behind hc (fun t ht => hg _ _ (hword t ht) ht) hx

theorem eq_cons_of_eat {c : Char} {r : Input} (h : eat c s = some r) : s = c.toUInt8 :: r := by
  cases s with
  | nil => cases h
  | cons b s =>
    rw [eat] at h
    split at h
    · next hb => rw [hb, Option.some.inj h]
    · cases h

theorem taken_mark {c : Char} (hblank : isBlank c.toUInt8 = false)
    (hc : plain → c.toUInt8 ≠ '\x7b'.toUInt8) : Taken plain [c.toUInt8] :=
  ⟨⟨[], _, rfl, hblank⟩, fun h hmem => hc h (List.mem_singleton.mp hmem).symm⟩

/-- A reading behind a mark. -/
theorem local_mark {β : Type} {c : Char} {r : Input} (hblank : isBlank c.toUInt8 = false)
    (hc : plain → c.toUInt8 ≠ '\x7b'.toUInt8) {x : Except Stop (α × Input)}
    {g : Input → Except Stop β} {next : α → Input → Except Stop β}
    (hx : LocalTo (Piece plain) r x (fun t => g (c.toUInt8 :: t)) next) :
    LocalTo (Taken plain) (c.toUInt8 :: r) x g next :=
  .behind (h := fun _ t => g (c.toUInt8 :: t)) (taken_mark hblank hc) (fun _ _ => rfl) fun _ => hx

/-- A mark behind blanks. -/
theorem eat_takes (plain : Prop) {c : Char} {r : Input} (hc : plain → c.toUInt8 ≠ '\x7b'.toUInt8)
    (h : eat c (skip s) = some r) :
    ∃ bs, s = (bs ++ [c.toUInt8]) ++ r ∧ Taken plain (bs ++ [c.toUInt8]) ∧
      ∀ t, skip ((bs ++ [c.toUInt8]) ++ t) = c.toUInt8 :: t := by
  have hskip := eq_cons_of_eat h
  have hblank : ∀ b ∈ s.takeWhile isBlank, isBlank b = true := fun b hb => List.mem_takeWhile_imp hb
  have hmark : isBlank c.toUInt8 = false := by
    have hhead := List.head?_dropWhile_not isBlank s
    rw [← skip, hskip] at hhead
    exact hhead
  have hsplit : s.takeWhile isBlank ++ skip s = s := List.takeWhile_append_dropWhile
  refine ⟨s.takeWhile isBlank, ?_, ⟨⟨_, _, rfl, hmark⟩, fun h => ?_⟩, fun t => ?_⟩
  · rw [List.append_assoc, List.singleton_append, ← hskip, hsplit]
  · rw [List.mem_append, List.mem_singleton, not_or]
    exact ⟨fun hmem => absurd (hblank _ hmem) (by decide), (hc h).symm⟩
  · rw [List.append_assoc, skip_blanks hblank, List.singleton_append, skip_cons hmark]

theorem expect_steps {c : Char} (hc : plain → c.toUInt8 ≠ '\x7b'.toUInt8) :
    Steps plain (expect c) := by
  intro s r h
  rw [expect] at h
  split at h
  · next r' hr =>
    obtain rfl := Except.ok.inj h
    obtain ⟨bs, hs, htaken, hskip⟩ := eat_takes plain hc hr
    refine ⟨_, hs, htaken, fun t _ => ?_⟩
    rw [expect, hskip, eat_cons]
  · cases h

theorem expectHere_steps {c : Char} (hblank : isBlank c.toUInt8 = false)
    (hc : plain → c.toUInt8 ≠ '\x7b'.toUInt8) : Steps plain (expectHere c) := by
  intro s r h
  rw [expectHere] at h
  split at h
  · next r' hr =>
    obtain rfl := Except.ok.inj h
    exact ⟨[c.toUInt8], eq_cons_of_eat hr, taken_mark hblank hc, fun t _ => expectHere_cons c t⟩
  · cases h

theorem keyword_steps {kw : String} (hkw : kw ≠ "") : Steps plain (keyword kw) := by
  intro s r h
  rcases hw : word s with ⟨w, r'⟩
  rw [keyword, hw] at h
  simp only at h
  split at h
  · next heq =>
    obtain rfl := Except.ok.inj h
    obtain ⟨c, hs, hc, hword⟩ := word_takes plain hw (heq ▸ hkw)
    refine ⟨c, hs, hc, fun t ht => ?_⟩
    rw [keyword, hword t ht]
    simp only [heq, if_true]
  · cases h

theorem tempOf_ok {ds : List Char} {t : Temp} (h : tempOf ds s = .ok t) (u : Input) :
    tempOf ds u = .ok t := by
  rw [tempOf] at h ⊢
  split at h
  · next hlt => rwa [if_pos hlt]
  · cases h

theorem type_local (s : Input) : Local (Taken plain) s (type s) type := by
  rcases hw : word s with ⟨w, r⟩
  rw [type, hw]
  simp only
  cases hT : Ty.ofName? w with
  | none => exact .error
  | some T =>
    have hne : w ≠ "" := by
      rintro rfl
      cases hT
    refine local_word hw hne (fun _ => .ok fun _ => rfl) fun u v hv _ => ?_
    rw [type, hv]
    simp only [hT]

theorem unsigned_local (s : Input) : Local (Taken plain) s (unsigned s) unsigned := by
  rcases hw : word s with ⟨w, r⟩
  rw [unsigned, hw]
  simp only
  cases hv : Numeral.read w with
  | error e => exact .error
  | ok v =>
    refine local_word hw (ne_empty_of_read hv) (fun _ => .ok fun _ => rfl) fun u r hu _ => ?_
    rw [unsigned, hu]
    simp only [hv]

/-- Where a word comes next, no mark does. -/
theorem eat_of_word {w : String} {r : Input} (hw : word s = (w, r)) (hne : w ≠ "") {c : Char}
    (hc : isWordByte c.toUInt8 = false) : eat c (skip s) = none := by
  by_contra hsome
  obtain ⟨u, hu⟩ := Option.ne_none_iff_exists'.mp hsome
  have hskip := eq_cons_of_eat hu
  obtain ⟨rfl, -⟩ := Prod.mk.inj hw
  rw [hskip, List.takeWhile_cons_of_neg (by simp [hc])] at hne
  exact hne rfl

theorem number_local (s : Input) : Local (Taken plain) s (number s) number := by
  cases hsign : eat '-' (skip s) with
  | none =>
    rcases hw : word s with ⟨w, r⟩
    rw [number, hsign]
    simp only [hw]
    cases hv : Numeral.read w with
    | error e => exact .error
    | ok v =>
      have hne := ne_empty_of_read hv
      refine local_word hw hne (fun _ => .ok fun _ => rfl) fun u r hu _ => ?_
      rw [number, eat_of_word hu hne (by decide)]
      simp only [hu, hv]
  | some u =>
    rcases hw : word u with ⟨w, r⟩
    rw [number, hsign]
    simp only [hw]
    cases hv : Numeral.read w with
    | error e => exact .error
    | ok v =>
      obtain ⟨bs, rfl, htaken, hskip⟩ := eat_takes plain (fun _ => by decide) hsign
      -- behind the sign the word decides, as it does without one
      refine .behind (h := fun _ t => number ('-'.toUInt8 :: t)) htaken (fun t _ => ?_) fun _ => ?_
      · rw [number, number, hskip, skip_cons (by decide), eat_cons]
      · refine (local_word hw (ne_empty_of_read hv) (fun _ => .ok fun _ => rfl) ?_).weaken
        intro u r hu _
        rw [number, skip_cons (by decide), eat_cons]
        simp only [hu, hv, if_true]

theorem parenthesized_local (s : Input) :
    Local (Taken plain) s (parenthesized s) parenthesized := by
  unfold parenthesized
  refine (expect_steps fun _ => by decide).bind fun s₁ _ _ => .weaken ?_
  refine (number_local s₁).bind fun v s₂ _ _ => .weaken ?_
  exact (expect_steps fun _ => by decide).bind fun _ _ _ => .ok fun _ => rfl

theorem jumpKind_local (s : Input) : Local (Taken False) s (jumpKind s) jumpKind := by
  unfold jumpKind
  refine (expect_steps False.elim).bind fun s₁ _ u => .weaken ?_
  rcases hw : word s₁ with ⟨w, r⟩
  cases hk : JumpKind.ofName? w with
  | none =>
    simp only [hk]
    exact .error
  | some k =>
    have hne : w ≠ "" := by
      rintro rfl
      cases hk
    simp only [hk]
    refine local_word hw hne (h := fun _ r => expect '\x7d' r >>= fun r => .ok (k, r))
      (fun _ => .weaken ?_) fun u v hv _ => ?_
    · exact (expect_steps False.elim).bind fun _ _ _ => .ok fun _ => rfl
    · simp only [hv, hk]

theorem constant_local (s : Input) : Local (Taken plain) s (constant s) constant := by
  unfold constant
  refine (unsigned_local s).bind fun v r _ u => ?_
  simp only
  cases hr : eat ':' r with
  | none => exact .error
  | some r =>
    rcases hw : word r with ⟨w, r'⟩
    cases ht : Tag.ofName? w with
    | none =>
      simp only [hw, ht]
      exact .error
    | some tag =>
      have hne : w ≠ "" := by
        rintro rfl
        cases ht
      simp only [hw, ht]
      split
      · next hfits =>
        rw [eq_cons_of_eat hr]
        refine .weaken (local_mark (by decide) (fun _ => by decide) (.weaken ?_))
        refine local_word hw hne (fun _ => .ok fun _ => rfl) fun u v hv _ => ?_
        simp only [eat_cons, hv, ht, hfits, if_true]
      · exact .error

theorem touch_local (s : Input) : Local (Taken plain) s (touch s) touch := by
  rcases hw : word s with ⟨w, r⟩
  rw [touch, hw]
  simp only
  split
  · exact .error
  · exact .error
  · next t hnone hname =>
    have hne : w ≠ "" := by
      rintro rfl
      cases hname
    refine local_word hw hne (h := fun _ r => expectHere ':' r >>= fun r => .ok (t, r))
      (fun _ => .weaken ?_) fun u v hv _ => ?_
    · exact (expectHere_steps (by decide) fun _ => by decide).bind fun _ _ _ => .ok fun _ => rfl
    · rw [touch, hv]
      simp only [hname]

end Lexer
end Straightline
