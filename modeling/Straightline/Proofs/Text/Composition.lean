import Mathlib
import Straightline.Proofs.Text.Blocks
import Straightline.Proofs.Text.Pieces

/-!
# Statements one after the other

The text of a block with one statement and that of another one make a text with both statements,
with a line break between them. The exception is an effect before a statement that starts like an
attribute, with an equals sign right behind its first word: there the effect reads on, and stops.

The argument finds the piece of a text that its statement takes. Beyond that piece only blanks can
stand before the jump, since the jump takes one brace and one keyword.
-/

namespace Straightline

open Lexer

namespace Reader

/-! ## The inside of a block, step by step -/

section Body

variable {s r t : Input} {w : String} {temps : Array Ty} {b : Block} {k : Nat}

/-- What starts neither the jump nor a declaration is a statement. -/
structure StartsStmt (w : String) (r : Input) : Prop where
  ne_empty : w ≠ ""
  ne_goto : w ≠ "goto"
  undeclared : eat ':' r = none ∨ tempDigits? w = none

theorem body_stmt (hw : word s = (w, r)) (h : StartsStmt w r) (temps : Array Ty) (k : Nat) :
    body s.length temps k s = within (.stmt k) (stmt s) >>= fun x =>
      body x.2.length temps (k + 1) x.2 >>= fun b =>
        .ok ({ b.1 with stmts := x.1 :: b.1.stmts }, b.2) := by
  have hnone : (if (eat ':' r).isSome = true then tempDigits? w else none) = none := by
    rcases h.undeclared with hcolon | htemp
    · simp [hcolon]
    · simp [htemp]
  rw [body_congr (m := s.length + 1) (Nat.le_refl _) (by omega), body, hw]
  simp only [h.ne_empty, h.ne_goto, if_false, hnone]
  refine ((stmt_advances s).within _).bind_congr fun x hx => ?_
  simp only [body_congr hx.suffix.length_le (Nat.le_refl x.2.length)]

/-- What a block goes on with: the jump, a declaration or a statement. -/
theorem body_cases (h : body s.length temps k s = .ok (b, t)) :
    (∃ r, word s = ("goto", r) ∧ jump temps r = .ok (b, t)) ∨
    (∃ ty u, Beyond u s ∧ body u.length (temps.push ty) k u = .ok (b, t)) ∨
    ∃ w r x u b', word s = (w, r) ∧ StartsStmt w r ∧ stmt s = .ok (x, u) ∧
      body u.length temps (k + 1) u = .ok (b', t) ∧ b = { b' with stmts := x :: b'.stmts } := by
  rcases hw : word s with ⟨w, r⟩
  by_cases hstart : StartsStmt w r
  · rw [body_stmt hw hstart] at h
    right; right
    cases hx : stmt s with
    | error e =>
      rw [hx] at h
      cases h
    | ok xu =>
      obtain ⟨x, u⟩ := xu
      rw [hx] at h
      cases hb : body u.length temps (k + 1) u with
      | error e =>
        simp only [within, bind, Except.bind, hb] at h
        cases h
      | ok bt =>
        obtain ⟨b', t'⟩ := bt
        simp only [within, bind, Except.bind, hb] at h
        obtain ⟨rfl, rfl⟩ := Prod.mk.inj (Except.ok.inj h)
        exact ⟨w, r, x, u, b', rfl, hstart, rfl, hb, rfl⟩
  · -- no statement starts here, so the word is the jump's, or a declaration's with its colon
    rw [body_congr (m := s.length + 1) (Nat.le_refl _) (by omega), body, hw] at h
    simp only at h
    split at h
    · cases h
    · next hne =>
      split at h
      · next hgoto => exact .inl ⟨r, by rw [hgoto], h⟩
      · next hgoto =>
        split at h
        · next digits hdigits =>
          cases hd : declaration digits temps.size s r with
          | error e =>
            rw [hd] at h
            cases h
          | ok tu =>
            obtain ⟨ty, u⟩ := tu
            have hu : Beyond u s := (declaration_advances _ _ (word_suffix hw)).beyond _ hd
            simp only [hd, bind, Except.bind] at h
            rw [body_congr hu.suffix.length_le (Nat.le_refl _)] at h
            exact .inr (.inl ⟨ty, u, hu, h⟩)
        · next hnone =>
          refine absurd ⟨hne, hgoto, ?_⟩ hstart
          cases hcolon : eat ':' r with
          | none => exact .inl rfl
          | some u =>
            right
            simpa [hcolon] using hnone

/-- The steps of a jump. -/
theorem jump_steps (h : jump temps s = .ok (b, t)) :
    ∃ kind next r u, jumpKind s = .ok (kind, r) ∧ expr r = .ok (next, u) ∧
      expect '\x7d' u = .ok t ∧ b = ⟨temps, [], next, kind⟩ := by
  rw [jump] at h
  cases hkind : jumpKind s with
  | error e =>
    rw [hkind] at h
    cases h
  | ok kr =>
    obtain ⟨kind, r⟩ := kr
    cases hnext : expr r with
    | error e =>
      simp only [hkind, hnext, within, bind, Except.bind] at h
      cases h
    | ok nu =>
      obtain ⟨next, u⟩ := nu
      cases hclose : expect '\x7d' u with
      | error e =>
        simp only [hkind, hnext, hclose, within, bind, Except.bind] at h
        cases h
      | ok t' =>
        simp only [hkind, hnext, hclose, within, bind, Except.bind] at h
        obtain ⟨rfl, rfl⟩ := Prod.mk.inj (Except.ok.inj h)
        exact ⟨kind, next, r, u, rfl, hnext, hclose, rfl⟩

/-- No declaration is lost. -/
theorem body_temps (h : body s.length temps k s = .ok (b, t)) : temps.size ≤ b.temps.size := by
  induction hn : s.length using Nat.strong_induction_on generalizing s temps k b with
  | h n ih =>
    subst hn
    rcases body_cases h with ⟨r, -, hjump⟩ | ⟨ty, u, hu, hrest⟩ | ⟨w, r, x, u, b', -, -, hx, hrest, rfl⟩
    · obtain ⟨kind, next, r', u, -, -, -, rfl⟩ := jump_steps hjump
      exact Nat.le_refl _
    · have hle := ih u.length hu.length_lt hrest rfl
      rw [Array.size_push] at hle
      omega
    · have hu : Beyond u s := (stmt_advances s).beyond _ hx
      exact ih (b := b') u.length hu.length_lt hrest rfl

end Body

/-! ## The braces of a jump -/

/-- How many bytes are no blanks. -/
def weight (s : Input) : Nat := s.countP fun b => !isBlank b

theorem weight_append (s t : Input) : weight (s ++ t) = weight s + weight t := List.countP_append

theorem weight_eq_zero {s : Input} : weight s = 0 ↔ ∀ b ∈ s, isBlank b = true := by
  simp [weight, List.countP_eq_zero]

theorem all_blank_of_skip {s : Input} (h : skip s = []) : ∀ b ∈ s, isBlank b = true :=
  List.dropWhile_eq_nil_iff.mp h

theorem brace_notMem_of_blank {s : Input} (h : ∀ b ∈ s, isBlank b = true) : '\x7b'.toUInt8 ∉ s :=
  fun hmem => absurd (h _ hmem) (by decide)

/-- A word is as long as its bytes that are no blanks are many. -/
theorem weight_word {s r : Input} {w : String} (hw : word s = (w, r)) :
    ∃ c, s = c ++ r ∧ '\x7b'.toUInt8 ∉ c ∧ weight c = w.length := by
  obtain ⟨rfl, rfl⟩ := Prod.mk.inj hw
  have hblank : ∀ b ∈ s.takeWhile isBlank, isBlank b = true := fun b hb => List.mem_takeWhile_imp hb
  have hword : ∀ b ∈ (skip s).takeWhile isWordByte, isWordByte b = true :=
    fun b hb => List.mem_takeWhile_imp hb
  have hbytes : weight ((skip s).takeWhile isWordByte) = ((skip s).takeWhile isWordByte).length := by
    refine List.countP_eq_length.mpr fun b hb => ?_
    rw [not_isBlank_of_isWordByte (hword b hb)]
    rfl
  refine ⟨s.takeWhile isBlank ++ (skip s).takeWhile isWordByte, ?_, ?_, ?_⟩
  · rw [List.append_assoc, List.takeWhile_append_dropWhile, skip, List.takeWhile_append_dropWhile]
  · rw [List.mem_append, not_or]
    exact ⟨brace_notMem_of_blank hblank, fun h => absurd (hword _ h) (by decide)⟩
  · rw [weight_append, weight_eq_zero.mpr hblank, hbytes, ascii, String.length_ofList,
      List.length_map, Nat.zero_add]

theorem close_steps : Steps True (expect '\x7d') := expect_steps fun _ => by decide

/-- A jump kind takes one brace, behind blanks. -/
theorem jumpKind_brace {s r : Input} {kind : JumpKind} (h : jumpKind s = .ok (kind, r)) :
    ∃ bs c, s = bs ++ '\x7b'.toUInt8 :: (c ++ r) ∧ (∀ b ∈ bs, isBlank b = true) ∧
      '\x7b'.toUInt8 ∉ c := by
  rw [jumpKind] at h
  cases hopen : eat '\x7b' (skip s) with
  | none =>
    rw [expect, hopen] at h
    cases h
  | some s₁ =>
    rw [expect, hopen] at h
    rcases hw : word s₁ with ⟨w, s₂⟩
    simp only [bind, Except.bind, hw] at h
    split at h
    · cases h
    · cases hclose : expect '\x7d' s₂ with
      | error e =>
        rw [hclose] at h
        cases h
      | ok s₃ =>
        rw [hclose] at h
        obtain ⟨-, rfl⟩ := Prod.mk.inj (Except.ok.inj h)
        obtain ⟨c, rfl, hc, -⟩ := weight_word hw
        obtain ⟨d, rfl, hd, -⟩ := close_steps _ _ hclose
        refine ⟨s.takeWhile isBlank, c ++ d, ?_, fun b hb => List.mem_takeWhile_imp hb, ?_⟩
        · rw [List.append_assoc, ← eq_cons_of_eat hopen, skip, List.takeWhile_append_dropWhile]
        · rw [List.mem_append, not_or]
          exact ⟨hc, hd.unbraced trivial⟩

/-- A jump to the end of the text takes one brace, with its keyword alone in front of it. -/
theorem jump_brace {s r t : Input} {temps : Array Ty} {b : Block} (hw : word s = ("goto", r))
    (h : jump temps r = .ok (b, t)) (ht : skip t = []) :
    ∃ u v, s = u ++ '\x7b'.toUInt8 :: v ∧ '\x7b'.toUInt8 ∉ u ∧ '\x7b'.toUInt8 ∉ v ∧
      weight u = 4 := by
  obtain ⟨kind, next, r₁, r₂, hkind, hnext, hclose, -⟩ := jump_steps h
  obtain ⟨c, rfl, hc, hweight⟩ := weight_word hw
  obtain ⟨bs, d, rfl, hbs, hd⟩ := jumpKind_brace hkind
  obtain ⟨d₁, rfl, hd₁, -⟩ := expr_local True r₁ next r₂ hnext
  obtain ⟨d₂, rfl, hd₂, -⟩ := close_steps _ _ hclose
  refine ⟨c ++ bs, d ++ (d₁ ++ (d₂ ++ t)), ?_, ?_, ?_, ?_⟩
  · rw [List.append_assoc]
  · rw [List.mem_append, not_or]
    exact ⟨hc, brace_notMem_of_blank hbs⟩
  · simp only [List.mem_append, not_or]
    exact ⟨hd, hd₁.unbraced trivial, hd₂.unbraced trivial,
      brace_notMem_of_blank (all_blank_of_skip ht)⟩
  · rw [weight_append, weight_eq_zero.mpr hbs, hweight]
    rfl

/-! ## A text with one statement -/

/-- The end of a block, with a jump and nothing before it. -/
def ending : Input := bytesOf "\ngoto \x7bBoring\x7d 0x0:U64 \x7d"

/-- The text of a block with `s` before its jump. -/
def enclosed (s : Input) : Input := bytesOf "IRBlock \x7b" ++ (s ++ ending)

/-- The block with the statements `ss` and the jump of `ending`. -/
def ended (ss : List Stmt) : Block := ⟨#[], ss, .const ⟨.u64, 0⟩, .boring⟩

theorem body_ending (k : Nat) : body ending.length #[] k ending = .ok (ended [], []) := by
  rfl

theorem block_enclosed (s : Input) :
    block (enclosed s) = body (s ++ ending).length #[] 0 (s ++ ending) := by
  have hbytes : enclosed s =
      bytesOf "IRBlock" ++ ' '.toUInt8 :: '\x7b'.toUInt8 :: (s ++ ending) := rfl
  obtain ⟨hword, -, -⟩ := keyword_spec "IRBlock" (by decide)
  rw [hbytes, block, hword.keyword (endsWord_cons.mpr (by decide))]
  simp +decide only [bind, Except.bind, expect_blank, expect_cons]

theorem body_blanks {m : Input} (hm : ∀ b ∈ m, isBlank b = true) (s : Input) (temps : Array Ty)
    (k : Nat) : body (m ++ s).length temps k (m ++ s) = body s.length temps k s := by
  induction m with
  | nil => rfl
  | cons b m ih =>
    rw [List.forall_mem_cons] at hm
    rw [List.cons_append, body_blank hm.1, List.length_cons,
      body_congr (Nat.le_succ _) (Nat.le_refl _), ih hm.2]

/-- Beyond the piece of a statement only blanks stand before the end. -/
theorem blanks_before_ending {s p r u v : Input} (hp : Taken False p)
    (hsplit : s ++ ending = p ++ r) (hr : r = u ++ '\x7b'.toUInt8 :: v)
    (hu : '\x7b'.toUInt8 ∉ u) (hv : '\x7b'.toUInt8 ∉ v) (hweight : weight u = 4) :
    ∃ m, s = p ++ m ∧ r = m ++ ending ∧ ∀ b ∈ m, isBlank b = true := by
  have hending : ending = bytesOf "\ngoto " ++ '\x7b'.toUInt8 :: bytesOf "Boring\x7d 0x0:U64 \x7d" :=
    rfl
  have hgoto : weight (bytesOf "\ngoto ") = 4 := by decide
  rcases List.append_eq_append_iff.mp hsplit with ⟨d, rfl, hd⟩ | ⟨m, rfl, rfl⟩
  · -- the piece would go on into the end, by blanks alone, and its last byte is none
    rw [hending, hr, ← List.append_assoc,
      List.append_cons_inj_of_notMem (by decide) (by decide)] at hd
    have hblank : ∀ b ∈ d, isBlank b = true := by
      rw [← weight_eq_zero]
      have hsum := congrArg weight hd.1
      rw [weight_append, hgoto, hweight] at hsum
      omega
    rcases d.eq_nil_or_concat with rfl | ⟨d', b, rfl⟩
    · refine ⟨[], (List.append_nil _).symm.trans (List.append_nil _).symm, ?_, by simp⟩
      rw [List.nil_append, hending, hr, hd.1, hd.2.2]
      rfl
    · obtain ⟨p', b', hp', hb'⟩ := hp.last
      have hlast := congrArg List.getLast? hp'
      simp only [List.concat_eq_append, List.getLast?_append, List.getLast?_singleton,
        Option.some_or] at hlast
      rw [← Option.some.inj hlast, hblank b (by simp)] at hb'
      cases hb'
  · rw [hending, ← List.append_assoc, eq_comm,
      List.append_cons_inj_of_notMem hu hv] at hr
    refine ⟨m, rfl, rfl, ?_⟩
    rw [← weight_eq_zero]
    have hsum := congrArg weight hr.1
    rw [weight_append, hgoto, hweight] at hsum
    omega

/-- The text `s` of the one statement `x`: a piece `p`, blanks `m` behind it, and what the piece
reads as. -/
structure Single (s : Input) (x : Stmt) (p m : Input) : Prop where
  split : s = p ++ m
  taken : Taken False p
  blank : ∀ b ∈ m, isBlank b = true
  starts : ∀ t, StartsBlank t → StartsStmt (word p).1 ((word p).2 ++ t)
  reads : stmt (p ++ (m ++ ending)) = .ok (x, m ++ ending)
  resumes : ∀ t, StartsBlank t → stmt (p ++ t) = resumed x t

theorem startsBlank_append {m t : Input} (hm : ∀ b ∈ m, isBlank b = true) (ht : StartsBlank t) :
    StartsBlank (m ++ t) := by
  cases m with
  | nil => exact ht
  | cons b m => exact ⟨b, m ++ t, rfl, hm b List.mem_cons_self⟩

theorem startsBlank_ending : StartsBlank ending := ⟨'\n'.toUInt8, _, rfl, by decide⟩

/-- A word in a piece ends in it. -/
theorem word_append {plain : Prop} {p t : Input} (hp : Taken plain p) (ht : EndsWord t) :
    word (p ++ t) = ((word p).1, (word p).2 ++ t) := by
  have hstop (l : Input) : (l ++ t).takeWhile isWordByte = l.takeWhile isWordByte ∧
      (l ++ t).dropWhile isWordByte = l.dropWhile isWordByte ++ t := by
    induction l with
    | nil =>
      cases t with
      | nil => exact ⟨rfl, rfl⟩
      | cons b t => simp [ht b rfl]
    | cons b l ih =>
      cases hb : isWordByte b with
      | false => simp [hb]
      | true => simp [hb, ih]
  obtain ⟨b, d, -, hskip⟩ := hp.skip_append
  have hself := hskip []
  rw [List.append_nil, List.append_nil] at hself
  rw [word, word, hskip, hself, ← List.cons_append, (hstop (b :: d)).1, (hstop (b :: d)).2]

theorem word_blanks {m : Input} (hm : ∀ b ∈ m, isBlank b = true) (s : Input) :
    word (m ++ s) = word s := by
  rw [word, word, skip_blanks hm]

/-- A text that is read as one statement has a piece that is. -/
theorem exists_single {s : Input} {b : Block} {x : Stmt} (h : Block.read (enclosed s) = .ok b)
    (htemps : b.temps = #[]) (hstmts : b.stmts = [x]) : ∃ p m, Single s x p m := by
  obtain ⟨t, hbody, ht⟩ : ∃ t, body (s ++ ending).length #[] 0 (s ++ ending) = .ok (b, t) ∧
      skip t = [] := by
    rw [Block.read, block_enclosed] at h
    split at h
    · cases h
    · next b' t hbody =>
      split at h
      · next ht =>
        obtain rfl := Except.ok.inj h
        exact ⟨t, hbody, ht⟩
      · cases h
  -- a declaration would leave a temporary behind
  have hdecl {ty : Ty} {u : Input} {k : Nat} {b : Block} (hb : b.temps = #[]) :
      body u.length (#[].push ty) k u ≠ .ok (b, t) := by
    intro hrest
    have hle := body_temps hrest
    rw [hb] at hle
    exact absurd hle (by simp)
  rcases body_cases hbody with ⟨r, -, hjump⟩ | ⟨ty, u, -, hrest⟩ |
    ⟨w, r, x', u, b, hw, hstart, hx, hrest, rfl⟩
  · obtain ⟨kind, next, r', u, -, -, -, rfl⟩ := jump_steps hjump
    cases hstmts
  · exact absurd hrest (hdecl htemps)
  · obtain ⟨rfl, hnil⟩ := List.cons.inj hstmts
    rcases body_cases hrest with ⟨r, hgoto, hjump⟩ | ⟨ty, u, -, hrest⟩ |
      ⟨w, r, x', u, b, -, -, -, -, rfl⟩
    · -- the one statement is followed by the jump, which is that of the ending, so that the piece
      -- of the statement and blanks make up the text
      obtain ⟨p, hs, hp, hresumes⟩ := stmt_local (s ++ ending) x' u hx
      obtain ⟨u', v, hu, hu', hv, hweight⟩ := jump_brace hgoto hjump ht
      obtain ⟨m, rfl, rfl, hm⟩ := blanks_before_ending hp hs hu hu' hv hweight
      have hblank := startsBlank_append hm startsBlank_ending
      rw [List.append_assoc] at hw hx
      rw [word_append hp hblank.endsWord] at hw
      obtain ⟨rfl, rfl⟩ := Prod.mk.inj hw
      refine ⟨p, m, rfl, hp, hm, fun t ht => ?_, hx, fun t ht => hresumes t (.inr ht)⟩
      refine ⟨hstart.ne_empty, hstart.ne_goto, hstart.undeclared.imp_left fun hcolon => ?_⟩
      exact (Follows.append (.inr ht) _).eat_none (by decide) hcolon
    · exact absurd hrest (hdecl htemps)
    · cases hnil

namespace Single

variable {s p m t : Input} {x : Stmt}

theorem body_eq (h : Single s x p m) (ht : StartsBlank t) (k : Nat) :
    body (p ++ t).length #[] k (p ++ t) = within (.stmt k) (resumed x t) >>= fun x =>
      body x.2.length #[] (k + 1) x.2 >>= fun b =>
        .ok ({ b.1 with stmts := x.1 :: b.1.stmts }, b.2) := by
  rw [body_stmt (word_append h.taken ht.endsWord) (h.starts t ht), h.resumes t ht]

theorem startsBlank (h : Single s x p m) : StartsBlank (m ++ ending) :=
  startsBlank_append h.blank startsBlank_ending

theorem body_alone (h : Single s x p m) (k : Nat) :
    body (s ++ ending).length #[] k (s ++ ending) = .ok (ended [x], []) := by
  have hreads := h.reads
  rw [h.resumes _ h.startsBlank] at hreads
  rw [h.split, List.append_assoc, h.body_eq h.startsBlank, hreads]
  simp only [within, bind, Except.bind, body_blanks h.blank, body_ending]
  rfl

/-- The guard of an effect that was read is there. -/
theorem guard (h : Single s x p m) {e : Effect} (he : x = .effect e) :
    e.guard.isMissing = false := by
  have hreads := h.reads
  rw [h.resumes _ h.startsBlank, he, resumed] at hreads
  cases hattr : attributes (m ++ ending).length e (m ++ ending) with
  | error stop =>
    rw [hattr] at hreads
    cases hreads
  | ok ft =>
    obtain ⟨f, t⟩ := ft
    simp only [hattr, bind, Except.bind] at hreads
    split at hreads
    · cases hreads
    · next hguard =>
      obtain ⟨heq, -⟩ := Prod.mk.inj (Except.ok.inj hreads)
      obtain rfl := Stmt.effect.inj heq
      exact Bool.not_eq_true _ ▸ hguard

/-- A statement is read as it was, unless it is an effect that finds another attribute. -/
theorem resumed_ok (h : Single s x p m) (ht : (∀ e, x ≠ .effect e) ∨ Quiet t) :
    resumed x t = .ok (x, t) := by
  cases x with
  | effect e =>
    have hq := ht.resolve_left fun hne => hne e rfl
    rw [resumed, attributes_quiet hq]
    simp only [bind, Except.bind, h.guard rfl]
    rfl
  | _ => rfl

/-- The first word of the text is that of its piece, and ends before the end. -/
theorem word_ending (h : Single s x p m) :
    word (s ++ ending) = ((word s).1, (word s).2 ++ ending) := by
  have hm : EndsWord m := by
    intro b hb
    cases m with
    | nil => cases hb
    | cons b' m => exact StartsBlank.endsWord ⟨b', m, rfl, h.blank b' List.mem_cons_self⟩ b hb
  rw [h.split, List.append_assoc, word_append h.taken h.startsBlank.endsWord,
    word_append h.taken hm, List.append_assoc]

theorem quiet_iff (h : Single s x p m) {m' : Input} (hm' : ∀ b ∈ m', isBlank b = true) :
    Quiet (m' ++ (s ++ ending)) ↔ Quiet s := by
  rw [Quiet, Quiet, word_blanks hm', h.word_ending]
  cases (word s).2 with
  | nil => exact iff_of_true rfl rfl
  | cons b r =>
    rw [List.cons_append, eat, eat]
    split
    · exact iff_of_false (by simp) (by simp)
    · exact iff_of_true rfl rfl

theorem word_eq (h : Single s x p m) : (word s).1 = (word p).1 := by
  have hword := h.word_ending
  rw [h.split, List.append_assoc, word_append h.taken h.startsBlank.endsWord, ← h.split] at hword
  exact (Prod.mk.inj hword).1.symm

end Single

/-- No statement starts with the name of an attribute. -/
theorem stmt_attribute {s r : Input} {w : String} (hw : word s = (w, r))
    (h : w ∈ ["guard", "mem", "fx"]) : stmt s = .error ⟨skip s, .unknownStmt w⟩ := by
  rw [stmt, word_skip, hw]
  fin_cases h <;> rfl

/-- An effect stops at a statement that starts like an attribute. -/
theorem resumed_error {s p m : Input} {y : Stmt} (h : Single s y p m) (hq : ¬ Quiet s)
    {m' : Input} (hm' : ∀ b ∈ m', isBlank b = true) (e : Effect) :
    resumed (.effect e) (m' ++ (s ++ ending)) =
      .error ⟨skip (m' ++ (s ++ ending)), .unknownAttribute (word s).1⟩ := by
  obtain ⟨q, hq⟩ := Option.ne_none_iff_exists'.mp hq
  have hword : word (s ++ ending) = ((word s).1, '='.toUInt8 :: (q ++ ending)) := by
    rw [h.word_ending, eq_cons_of_eat hq, List.cons_append]
  have hne : (word s).1 ≠ "" := by
    rw [h.word_eq]
    exact (h.starts _ startsBlank_ending).ne_empty
  -- the second text is a statement of its own, so its word names no attribute
  have hname : (word s).1 ∉ ["guard", "mem", "fx"] := by
    intro hmem
    have hfail := stmt_attribute hword hmem
    have hreads := h.reads
    rw [← List.append_assoc, ← h.split, hfail] at hreads
    cases hreads
  simp only [List.mem_cons, List.not_mem_nil, or_false, not_or] at hname
  rw [← word_blanks hm'] at hword
  rw [resumed, attributes_eq hword hne (eat_cons _ _),
    oneAttribute_other hname.1 hname.2.1 hname.2.2]
  rfl

theorem read_enclosed {s : Input} {b : Block}
    (h : body (s ++ ending).length #[] 0 (s ++ ending) = .ok (b, [])) :
    Block.read (enclosed s) = .ok b := by
  rw [Block.read, block_enclosed, h]
  rfl

/-- The texts of two statements, with a line break between them, are the text of both, unless the
first is an effect and an equals sign stands right behind the first word of the second: there the
effect looks for an attribute, and refuses it. -/
theorem statement_texts_compose {s s' : Input} {b c : Block} {x y : Stmt}
    (hx : Block.read (enclosed s) = .ok b ∧ b.temps = #[] ∧ b.stmts = [x])
    (hy : Block.read (enclosed s') = .ok c ∧ c.temps = #[] ∧ c.stmts = [y]) :
    ((∀ e, x ≠ .effect e) ∨ Quiet s' →
      Block.read (enclosed (s ++ '\n'.toUInt8 :: s')) = .ok (ended [x, y])) ∧
    ∀ e, x = .effect e → ¬ Quiet s' →
      ∃ stop, Block.read (enclosed (s ++ '\n'.toUInt8 :: s')) = .error stop ∧
        stop.error = .within (.stmt 0) (.unknownAttribute (word s').1) := by
  obtain ⟨p, m, hs⟩ := exists_single hx.1 hx.2.1 hx.2.2
  obtain ⟨p', m', hs'⟩ := exists_single hy.1 hy.2.1 hy.2.2
  -- behind the first piece come its blanks, the line break and the second text
  have hblank : ∀ b ∈ m ++ ['\n'.toUInt8], isBlank b = true := by
    intro b hb
    rcases List.mem_append.mp hb with hb | hb
    · exact hs.blank b hb
    · rw [List.mem_singleton.mp hb]
      decide
  have htext : (s ++ '\n'.toUInt8 :: s') ++ ending =
      p ++ ((m ++ ['\n'.toUInt8]) ++ (s' ++ ending)) := by
    rw [hs.split]
    simp only [List.append_assoc, List.cons_append, List.nil_append]
  have hstart : StartsBlank ((m ++ ['\n'.toUInt8]) ++ (s' ++ ending)) := by
    rw [List.append_assoc]
    exact startsBlank_append hs.blank ⟨'\n'.toUInt8, _, rfl, by decide⟩
  have hbody := hs.body_eq hstart 0
  rw [← htext] at hbody
  refine ⟨fun hquiet => read_enclosed ?_, fun e he hq => ?_⟩
  · rw [hbody, hs.resumed_ok (hquiet.imp_right (hs'.quiet_iff hblank).mpr)]
    simp only [within, bind, Except.bind, body_blanks hblank, hs'.body_alone]
    rfl
  · rw [he, resumed_error hs' hq hblank] at hbody
    rw [Block.read, block_enclosed, hbody]
    exact ⟨_, rfl, rfl⟩

/-- The text of an effect. -/
def effectText : Input := bytesOf "EFFECT f() guard=0x1:U1"

/-- The effect that is read from it. -/
def guarded : Stmt := .effect ⟨"f", .const ⟨.u1, 1⟩, [], none, .none, .missing, 0, []⟩

theorem statement_texts_compose_spaced :
    Block.read (enclosed (effectText ++ '\n'.toUInt8 :: bytesOf "t0 = 0x0:U32")) =
      .ok (ended [guarded, .assign 0 (.const ⟨.u32, 0⟩)]) :=
  (statement_texts_compose (b := ended [guarded]) (c := ended [.assign 0 (.const ⟨.u32, 0⟩)])
    ⟨by rfl, by rfl, by rfl⟩ ⟨by rfl, by rfl, by rfl⟩).1 (.inr (by rfl))

/-- Without the blanks the assignment is no line of its own. -/
theorem statement_texts_run_together :
    Block.read (enclosed effectText) = .ok (ended [guarded]) ∧
    Block.read (enclosed (bytesOf "t0=0x0:U32")) = .ok (ended [.assign 0 (.const ⟨.u32, 0⟩)]) ∧
    Block.read (enclosed (effectText ++ '\n'.toUInt8 :: bytesOf "t0=0x0:U32")) =
      .error ⟨2, 1, .within (.stmt 0) (.unknownAttribute "t0")⟩ := by
  refine ⟨?_, ?_, ?_⟩ <;> rfl

end Reader
end Straightline
