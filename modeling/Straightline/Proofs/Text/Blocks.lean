import Mathlib
import Straightline.Proofs.Text.Statements

/-!
# Blocks read back

A written block is read line by line: `body` is followed over the declarations, then over the
statements, up to the jump. The first word of a line tells a declaration, which has a colon right
behind it, from a statement, which has not. No line starts like an attribute, so that the effect
before it ends there.

The texts of several blocks are read back one after the other.
-/

namespace Straightline

open Lexer

/-- Neither a word, nor a colon, nor an equals sign comes next. -/
structure Pause (r : Input) : Prop where
  endsWord : EndsWord r
  colon : eat ':' r = none
  equals : eat '=' r = none

theorem pause_cons {c : Char} {s : Input} (h : c ∈ [' ', '(', '\n']) : Pause (c.toUInt8 :: s) := by
  fin_cases h <;>
    exact ⟨endsWord_cons.mpr (by decide), eat_of_ne (by decide), eat_of_ne (by decide)⟩

namespace Stmt

/-- A statement starts with a word, with neither a colon nor an equals sign right behind it. -/
theorem Spelled.exists_pause {s : Stmt} (h : s.Spelled) {r : Input} (hr : Pause r) :
    ∃ w u, IsWord w ∧ w ≠ "goto" ∧ bytesOf s.text ++ r = bytesOf w ++ u ∧ Pause u := by
  have htemp {t : Temp} (ht : 0 ≤ t.toInt) :
      IsWord (Expr.tempText t) ∧ Expr.tempText t ≠ "goto" :=
    ⟨isWord_tempText ht, tempText_ne_keyword ht (by decide)⟩
  have hkey {w : String} (hw : w ∈ keywords) : IsWord w := (keyword_spec w hw).1
  cases s with
  | missing => exact h.elim
  | noop => exact ⟨"NoOp", r, hkey (by decide), by decide, rfl, hr⟩
  | fence => exact ⟨"Fence", r, hkey (by decide), by decide, rfl, hr⟩
  | mark addr len =>
    exact ⟨"Mark", _, hkey (by decide), by decide, Reader.bytesOf_mark addr len r,
      pause_cons (by decide)⟩
  | assign dst src =>
    obtain ⟨hword, hne⟩ := htemp h
    exact ⟨_, _, hword, hne, Reader.bytesOf_assign dst src r, pause_cons (c := ' ') (by decide)⟩
  | put off data =>
    exact ⟨"PUT", _, hkey (by decide), by decide, Reader.bytesOf_put off data r,
      pause_cons (by decide)⟩
  | putIx w ix bias data =>
    refine ⟨"PUTI", _, hkey (by decide), by decide, Reader.bytesOf_putIx w ix bias data r, ?_⟩
    rw [Expr.bytesOf_indexedText]
    exact pause_cons (by decide)
  | store addr data =>
    refine ⟨"ST", _, hkey (by decide), by decide, Reader.bytesOf_store addr data r, ?_⟩
    rw [Expr.bytesOf_argsText]
    exact pause_cons (by decide)
  | effect e =>
    cases hres : e.result with
    | none =>
      exact ⟨"EFFECT", _, hkey (by decide), by decide, Reader.bytesOf_effect_none hres r,
        pause_cons (by decide)⟩
    | some t =>
      obtain ⟨hword, hne⟩ := htemp (Effect.Spelled.result h t hres)
      exact ⟨_, _, hword, hne, Reader.bytesOf_effect_some hres r, pause_cons (c := ' ') (by decide)⟩
  | exit guard kind dst =>
    exact ⟨"if", _, hkey (by decide), by decide, Reader.bytesOf_exit guard kind dst r,
      pause_cons (by decide)⟩

end Stmt

namespace Reader

/-! ## Lines -/

/-- The lines of statements, each behind a line break and a tab, and what follows them. -/
def stmtLines : List Stmt → Input → Input
  | [], r => r
  | s :: ss, r => '\n'.toUInt8 :: '\t'.toUInt8 :: (bytesOf s.text ++ stmtLines ss r)

/-- The last two lines of a block, behind a line break, and what follows them. -/
def jumpLine (next : Expr) (kind : JumpKind) (r : Input) : Input :=
  '\n'.toUInt8 :: '\t'.toUInt8 :: (bytesOf "goto" ++ ' '.toUInt8 :: '\x7b'.toUInt8 ::
    (bytesOf kind.name ++ '\x7d'.toUInt8 :: ' '.toUInt8 :: (bytesOf next.text ++
      '\n'.toUInt8 :: '\x7d'.toUInt8 :: '\n'.toUInt8 :: r)))

theorem bytesOf_stmts (ss : List Stmt) (r : Input) :
    '\n'.toUInt8 :: (bytesOf (String.join (ss.map fun s => "\t" ++ s.text ++ "\n")) ++ r) =
      stmtLines ss ('\n'.toUInt8 :: r) := by
  induction ss with
  | nil => rfl
  | cons s ss ih =>
    rw [stmtLines, ← ih]
    simp only [List.map_cons, String.join_cons, bytesOf_append, List.append_assoc]
    rfl

theorem pause_lines (ss : List Stmt) (next : Expr) (kind : JumpKind) (r : Input) :
    Pause (stmtLines ss (jumpLine next kind r)) := by
  cases ss with
  | nil => exact pause_cons (by decide)
  | cons s ss => exact pause_cons (by decide)

variable {ss : List Stmt} {next : Expr} {kind : JumpKind} {r : Input}

/-- No line starts like an attribute. -/
theorem quiet_lines (h : ∀ s ∈ ss, s.Spelled) : Quiet (stmtLines ss (jumpLine next kind r)) := by
  cases ss with
  | nil =>
    obtain ⟨hgoto, -, -⟩ := keyword_spec "goto" (by decide)
    rw [stmtLines, jumpLine, Quiet]
    simp +decide only [word_blank, hgoto.word, endsWord_cons]
    exact eat_of_ne (by decide)
  | cons s ss =>
    obtain ⟨w, u, hw, -, hsplit, hu⟩ :=
      (h s List.mem_cons_self).exists_pause (pause_lines ss next kind r)
    rw [stmtLines, hsplit, Quiet, word_blank (by decide), word_blank (by decide),
      hw.word hu.endsWord]
    exact hu.equals

theorem jump_text (temps : Array Ty) (hnext : next.Legible) (hkind : kind.isValid = true)
    (r : Input) :
    jump temps (' '.toUInt8 :: '\x7b'.toUInt8 :: (bytesOf kind.name ++ '\x7d'.toUInt8 ::
      ' '.toUInt8 :: (bytesOf next.text ++ '\n'.toUInt8 :: '\x7d'.toUInt8 :: r))) =
      .ok (⟨temps, [], next, kind⟩, r) := by
  rw [jump, jumpKind_blank (by decide), jumpKind_text hkind]
  simp +decide only [bind, Except.bind, within, expr_blank hnext, endsWord_cons, expect_blank,
    expect_cons]

/-- A line with a statement is read as one: its first word is not that of the jump, nor has it the
colon of a declaration behind it. -/
theorem body_stmtLine {s : Stmt} (hs : s.Spelled) (hr : Pause r) (n : Nat) (temps : Array Ty)
    (k : Nat) :
    body (n + 1) temps k ('\n'.toUInt8 :: '\t'.toUInt8 :: (bytesOf s.text ++ r)) =
      within (.stmt k) (stmt (bytesOf s.text ++ r)) >>= fun x => body n temps (k + 1) x.2 >>= fun y =>
        .ok ({ y.1 with stmts := x.1 :: y.1.stmts }, y.2) := by
  obtain ⟨w, u, hw, hgoto, hsplit, hu⟩ := hs.exists_pause hr
  rw [body]
  simp +decide only [word_blank, stmt_blank]
  simp only [hsplit, hw.word hu.endsWord, hw.1, hgoto, hu.colon, if_false, Option.isSome_none,
    Bool.false_eq_true]

/-- Statements are read back, line by line. -/
theorem body_stmts (hss : ∀ s ∈ ss, s.Legible) (hnext : next.Legible) (hkind : kind.isValid = true)
    {n : Nat} (hn : ss.length < n) (temps : Array Ty) (k : Nat) :
    body n temps k (stmtLines ss (jumpLine next kind r)) =
      .ok (⟨temps, ss, next, kind⟩, '\n'.toUInt8 :: r) := by
  induction ss generalizing n k with
  | nil =>
    obtain ⟨hgoto, -, -⟩ := keyword_spec "goto" (by decide)
    obtain ⟨n, rfl⟩ : ∃ m, n = m + 1 := ⟨n - 1, by omega⟩
    rw [stmtLines, jumpLine, body]
    simp +decide only [word_blank, hgoto.word, endsWord_cons, if_false, if_true,
      jump_text temps hnext hkind]
  | cons s ss ih =>
    rw [List.forall_mem_cons] at hss
    rw [List.length_cons] at hn
    obtain ⟨n, rfl⟩ : ∃ m, n = m + 1 := ⟨n - 1, by omega⟩
    have hpause := pause_lines ss next kind r
    have hstmt := stmt_text hss.1 hpause.endsWord (quiet_lines fun s hs => (hss.2 s hs).spelled)
    have hrest := ih hss.2 (by omega : ss.length < n) (k + 1)
    rw [stmtLines, body_stmtLine hss.1.spelled hpause, hstmt]
    simp only [within, bind, Except.bind, hrest]

/-! ## Declarations -/

theorem body_blank {b : UInt8} {s : Input} (h : isBlank b = true) (n : Nat) (temps : Array Ty)
    (k : Nat) : body n temps k (b :: s) = body n temps k s := by
  cases n with
  | zero => rw [body, body, skip_blank h]
  | succ n =>
    simp only [body, declaration, tempOf, word_blank h, skip_blank h, stmt_blank h]

theorem bytesOf_decl {t : Temp} {i : Nat} (ht : t.toInt = i) (T : Ty) (r : Input) :
    bytesOf (s!"t{i}:" ++ T.name) ++ r =
      bytesOf (Expr.tempText t) ++ ':'.toUInt8 :: (bytesOf T.name ++ r) := by
  have htext : s!"t{i}:" = Expr.tempText t ++ ":" := by
    rw [Expr.tempText, ht]
    rfl
  rw [htext, bytesOf_append, bytesOf_append, List.append_assoc, List.append_assoc]
  rfl

/-- A declaration adds a temporary of its type. -/
theorem body_decl {temps : Array Ty} {T : Ty} (hT : T ≠ .invalid)
    (hsize : temps.size < 2 ^ 31) {r : Input} (hr : EndsWord r) (n k : Nat) :
    body (n + 1) temps k (bytesOf (s!"t{temps.size}:" ++ T.name) ++ r) =
      body n (temps.push T) k r := by
  have ht : (Int32.ofNat temps.size).toInt = temps.size :=
    Int32.toInt_ofNat_of_lt hsize
  have hnonneg : 0 ≤ (Int32.ofNat temps.size).toInt := by omega
  have hword := isWord_tempText hnonneg
  have hgoto := tempText_ne_keyword hnonneg (by decide : "goto" ∈ keywords)
  rw [bytesOf_decl ht, body]
  simp +decide only [hword.word, endsWord_cons, hword.1, hgoto, if_false, eat_cons,
    Option.isSome_some, if_true, tempDigits?_text hnonneg, declaration, tempOf_digits hnonneg, ht,
    expect_cons, type_name hT hr, bind, Except.bind]

/-- Declarations are read back, in order. -/
theorem body_decls {ts : List Ty} (hts : ∀ T ∈ ts, T ≠ .invalid) (temps : Array Ty)
    (hsize : temps.size + ts.length ≤ 2 ^ 31) {r : Input} (hr : EndsWord r) (n k : Nat) :
    body (n + ts.length) temps k
        (bytesOf (" ".intercalate (Block.declTexts temps.size ts)) ++ r) =
      body n (temps ++ ts.toArray) k r := by
  induction ts generalizing temps with
  | nil =>
    rw [Block.declTexts, String.intercalate_nil, Array.append_empty]
    rfl
  | cons T ts ih =>
    rw [List.forall_mem_cons] at hts
    rw [List.length_cons] at hsize
    -- the temporaries that are declared so far give the number of the next one
    have hpush : temps ++ (T :: ts).toArray = temps.push T ++ ts.toArray := by
      simp
    have hrest := ih hts.2 (temps.push T) (by rw [Array.size_push]; omega)
    rw [Array.size_push] at hrest
    rw [hpush, List.length_cons, ← Nat.add_assoc, Block.declTexts]
    cases ts with
    | nil =>
      rw [Block.declTexts, String.intercalate_singleton, body_decl hts.1 (by omega) hr]
      simp
    | cons U ts =>
      have hsep (s : Input) : EndsWord (bytesOf " " ++ s) := endsWord_cons.mpr (by decide)
      rw [Block.declTexts, String.intercalate_cons_cons, ← Block.declTexts, bytesOf_append,
        bytesOf_append, List.append_assoc, List.append_assoc, body_decl hts.1 (by omega) (hsep _),
        ← hrest]
      exact body_blank (by decide) _ _ _

/-! ## Blocks -/

variable {b : Block}

/-- The declarations, behind a line break, and what follows them. -/
def declLine (temps : Array Ty) (r : Input) : Input :=
  if temps.isEmpty then r
  else '\n'.toUInt8 :: '\t'.toUInt8 ::
    (bytesOf (" ".intercalate (Block.declTexts 0 temps.toList)) ++ r)

theorem bytesOf_block (b : Block) (r : Input) :
    bytesOf b.text ++ r = bytesOf "IRBlock" ++ ' '.toUInt8 :: '\x7b'.toUInt8 ::
      declLine b.temps (stmtLines b.stmts (jumpLine b.next b.kind r)) := by
  have hjump : '\t'.toUInt8 :: (bytesOf "goto" ++ ' '.toUInt8 :: '\x7b'.toUInt8 ::
      (bytesOf b.kind.name ++ '\x7d'.toUInt8 :: ' '.toUInt8 :: (bytesOf b.next.text ++
        '\n'.toUInt8 :: '\x7d'.toUInt8 :: '\n'.toUInt8 :: r))) =
      bytesOf "\tgoto \x7b" ++ (bytesOf b.kind.name ++ (bytesOf "\x7d " ++ (bytesOf b.next.text ++
        (bytesOf "\n\x7d\n" ++ r)))) := rfl
  -- the definition by `rfl`, for its equation lemma is slow to make
  have htext : b.text = "IRBlock \x7b\n" ++ Block.tempsText b.temps ++
      String.join (b.stmts.map fun s => "\t" ++ s.text ++ "\n") ++ "\tgoto \x7b" ++ b.kind.name ++
        "\x7d " ++ b.next.text ++ "\n\x7d\n" := rfl
  rw [jumpLine, ← bytesOf_stmts, hjump, declLine, htext]
  by_cases hempty : b.temps.isEmpty = true
  · simp only [Block.tempsText, hempty, if_true, bytesOf_append, List.append_assoc]
    rfl
  · simp only [Block.tempsText, hempty, Bool.false_eq_true, if_false, bytesOf_append,
      List.append_assoc]
    rfl

theorem body_declLine {temps : Array Ty} (hts : ∀ T ∈ temps, T ≠ .invalid)
    (hsize : temps.size ≤ 2 ^ 31) {r : Input} (hr : EndsWord r) (n k : Nat) :
    body (n + temps.size) #[] k (declLine temps r) = body n temps k r := by
  have hlist : ∀ T ∈ temps.toList, T ≠ .invalid := fun T hT => hts T (Array.mem_toList_iff.mp hT)
  have hdecls := body_decls hlist #[] (by simpa using hsize) hr n k
  rw [Array.length_toList, Array.toArray_toList, Array.empty_append] at hdecls
  rw [declLine]
  by_cases hempty : temps.isEmpty = true
  · obtain rfl := Array.isEmpty_iff.mp hempty
    rfl
  · rw [if_neg hempty, body_blank (by decide), body_blank (by decide)]
    exact hdecls

theorem length_declTexts (i : Nat) (ts : List Ty) : (Block.declTexts i ts).length = ts.length := by
  induction ts generalizing i with
  | nil => rfl
  | cons T ts ih => rw [Block.declTexts, List.length_cons, List.length_cons, ih]

theorem length_le_stmtLines (ss : List Stmt) (r : Input) :
    ss.length + r.length ≤ (stmtLines ss r).length := by
  induction ss with
  | nil => simp [stmtLines]
  | cons s ss ih =>
    rw [stmtLines, List.length_cons, List.length_cons, List.length_cons, List.length_append]
    omega

theorem length_le_declLine (temps : Array Ty) (r : Input) :
    temps.size + r.length ≤ (declLine temps r).length := by
  rw [declLine, ← Array.length_toList, ← Array.isEmpty_toList]
  cases temps.toList with
  | nil => simp
  | cons T ts =>
    have hle := Expr.length_le_separated (rfl : (bytesOf " ").length = 1) (s!"t{0}:" ++ T.name)
      (Block.declTexts (0 + 1) ts)
    rw [length_declTexts] at hle
    rw [Block.declTexts, List.isEmpty_cons, if_neg (by decide), List.length_cons, List.length_cons,
      List.length_cons, List.length_append]
    omega

/-- A legible block is read back, up to the line break behind it. -/
theorem block_text (h : b.Legible) (r : Input) :
    block (bytesOf b.text ++ r) = .ok (b, '\n'.toUInt8 :: r) := by
  obtain ⟨hword, -, -⟩ := keyword_spec "IRBlock" (by decide)
  have hsep := (pause_lines b.stmts b.next b.kind r).endsWord
  -- declarations and statements take a byte each at least, and the jump some more
  obtain ⟨n, hn, hlt⟩ : ∃ n, (declLine b.temps (stmtLines b.stmts
      (jumpLine b.next b.kind r))).length = n + b.temps.size ∧ b.stmts.length < n := by
    have hdecl := length_le_declLine b.temps (stmtLines b.stmts (jumpLine b.next b.kind r))
    have hstmt := length_le_stmtLines b.stmts (jumpLine b.next b.kind r)
    have hjump : 0 < (jumpLine b.next b.kind r).length := Nat.succ_pos _
    exact ⟨_, (Nat.sub_add_cancel (by omega)).symm, by omega⟩
  rw [bytesOf_block, block]
  simp +decide only [hword.keyword, endsWord_cons, expect_blank, expect_cons, bind, Except.bind, hn]
  rw [body_declLine h.temps h.numbered hsep, body_stmts h.stmts h.next h.kind hlt]

end Reader

namespace Block

variable {b : Block}

/-- The text of a legible block is read as that block. -/
theorem read_text (h : b.Legible) : Block.read (bytesOf b.text) = .ok b := by
  have hread := Reader.block_text h []
  rw [List.append_nil] at hread
  rw [Block.read, hread]
  rfl

theorem skip_texts (bs : List Block) :
    skip (bytesOf (String.join (bs.map text))) = bytesOf (String.join (bs.map text)) := by
  cases bs with
  | nil => rfl
  | cons b bs =>
    obtain ⟨hword, -, -⟩ := keyword_spec "IRBlock" (by decide)
    rw [List.map_cons, String.join_cons, bytesOf_append, Reader.bytesOf_block, hword.skip]

/-- Legible blocks are read back from the rest of a text. -/
theorem readFrom_texts (text : Input) {bs : List Block} (h : ∀ b ∈ bs, b.Legible) {n : Nat}
    (hn : bs.length ≤ n) (i : Nat) {s : Input}
    (hs : skip s = bytesOf (String.join (bs.map Block.text))) :
    readFrom text n i s = .ok bs := by
  induction bs generalizing n i s with
  | nil =>
    cases n with
    | zero => rfl
    | succ n =>
      rw [readFrom, hs]
      rfl
  | cons b bs ih =>
    rw [List.forall_mem_cons] at h
    rw [List.length_cons] at hn
    obtain ⟨n, rfl⟩ : ∃ m, n = m + 1 := ⟨n - 1, by omega⟩
    -- a block is followed by its own last line break, which is skipped with the blanks
    have hblock := Reader.block_text h.1 (bytesOf (String.join (bs.map Block.text)))
    have hrest := ih h.2 (by omega : bs.length ≤ n) (i + 1)
      (show skip ('\n'.toUInt8 :: bytesOf (String.join (bs.map Block.text))) = _ by
        rw [skip_blank (by decide), skip_texts])
    rw [List.map_cons, String.join_cons, bytesOf_append] at hs
    obtain ⟨c, cs, hcs⟩ : ∃ c cs, bytesOf b.text ++ bytesOf (String.join (bs.map Block.text)) =
        c :: cs := by
      rw [Reader.bytesOf_block]
      exact ⟨_, _, rfl⟩
    rw [hcs] at hs hblock
    rw [readFrom, hs]
    simp only [hblock, hrest, bind, Except.bind]

theorem length_le_texts (bs : List Block) :
    bs.length ≤ (bytesOf (String.join (bs.map text))).length := by
  induction bs with
  | nil => exact Nat.zero_le _
  | cons b bs ih =>
    have hbytes := congrArg List.length (Reader.bytesOf_block b [])
    rw [List.append_nil, List.length_append, List.length_cons] at hbytes
    rw [List.map_cons, String.join_cons, bytesOf_append, List.length_append, List.length_cons]
    omega

/-- The texts of legible blocks, one after the other, are read as those blocks. -/
theorem readAll_texts {bs : List Block} (h : ∀ b ∈ bs, b.Legible) :
    Block.readAll (bytesOf (String.join (bs.map text))) = .ok bs :=
  readFrom_texts _ h (length_le_texts bs) 0 (skip_texts bs)

end Block
end Straightline
