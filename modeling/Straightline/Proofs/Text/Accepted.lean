import Mathlib
import Straightline.Proofs.Text.Legible

/-!
# What readers return

Whatever text is read, each part of what comes out has a written form: `Gives P x` says that the
reading `x`, if it returns at all, returns something that satisfies `P`. The rules of `Gives` follow
the way readers are put together, so each reader is gone through once.

Only the counts of windows escape: they are read without a sign and may wrap.
-/

namespace Straightline

open Lexer

namespace Reader

/-! ## Rules -/

/-- What the reading returns satisfies `P`. -/
def Gives {α : Type} (P : α → Prop) (x : Except Stop (α × Input)) : Prop :=
  ∀ a r, x = .ok (a, r) → P a

variable {α β : Type} {P : α → Prop} {Q : β → Prop}

theorem gives_ok {a : α} (h : P a) (r : Input) : Gives P (.ok (a, r)) := by
  intro a' r' heq
  rw [Except.ok.injEq, Prod.mk.injEq] at heq
  exact heq.1 ▸ h

theorem gives_error (e : Stop) : Gives P (.error e) := by
  intro a r heq
  exact nomatch heq

theorem gives_any (x : Except Stop (α × Input)) : Gives (fun _ => True) x := fun _ _ _ => trivial

theorem Gives.within {x : Except Stop (α × Input)} (h : Gives P x) (p : Place) :
    Gives P (within p x) := by
  intro a r heq
  cases x with
  | error e => exact nomatch heq
  | ok y => exact h a r heq

theorem Gives.bind {x : Except Stop (α × Input)} {f : α × Input → Except Stop (β × Input)}
    (hx : Gives P x) (hf : ∀ a r, P a → Gives Q (f (a, r))) : Gives Q (x >>= f) := by
  intro b r heq
  obtain ⟨⟨a, r'⟩, ha, hb⟩ := bind_eq_ok.mp heq
  exact hf a r' (hx a r' ha) b r hb

/-- A reader of marks returns nothing but the rest. -/
theorem gives_mark {x : Except Stop Input} {f : Input → Except Stop (β × Input)}
    (hf : ∀ r, Gives Q (f r)) : Gives Q (x >>= f) := by
  intro b r heq
  obtain ⟨r', -, hb⟩ := bind_eq_ok.mp heq
  exact hf r' b r hb

/-! ## Words -/

/-- What is read as a word is one, unless it is empty. -/
theorem isWord_of_word {s : Input} (h : (word s).1 ≠ "") : IsWord (word s).1 := by
  refine ⟨h, ?_⟩
  have hbyte : ∀ k < 256, isWordByte (.ofNat k) = true → isWordChar (Char.ofNat k) = true := by
    decide +kernel
  rw [word, ascii, String.toList_ofList, List.all_map, List.all_eq_true]
  intro b hb
  have hmem := List.mem_takeWhile_imp hb
  have hself := hbyte b.toNat b.toNat_lt (by rwa [UInt8.ofNat_toNat])
  exact hself

theorem gives_type (s : Input) : Gives (fun T => T ≠ .invalid) (type s) := by
  unfold type
  dsimp only
  split
  · rename_i T hT
    refine gives_ok ?_ _
    rintro rfl
    exact absurd (List.mem_of_find?_eq_some hT) (by decide)
  · exact gives_error _

theorem tempOf_nonneg {digits : List Char} {s : Input} {t : Temp} (h : tempOf digits s = .ok t) :
    0 ≤ t.toInt := by
  unfold tempOf at h
  dsimp only at h
  split at h
  · rename_i hlt
    rw [Except.ok.injEq] at h
    rw [← h, Int32.toInt_ofNat_of_lt hlt]
    exact Int.natCast_nonneg _
  · exact nomatch h

theorem gives_constant (s : Input) : Gives Const.Spelled (constant s) := by
  unfold constant
  refine (gives_any _).bind fun v r _ => ?_
  dsimp only
  split
  · exact gives_error _
  · split
    · exact gives_error _
    · rename_i tag htag
      split
      · rename_i hfits
        refine gives_ok ⟨?_, hfits⟩ _
        rintro rfl
        exact absurd (List.mem_of_find?_eq_some htag) (by decide)
      · exact gives_error _

theorem gives_jumpKind (s : Input) : Gives (fun k => k.isValid = true) (jumpKind s) := by
  have hnamed : ∀ k ∈ JumpKind.named, k.isValid = true := by decide
  unfold jumpKind
  refine gives_mark fun r => ?_
  dsimp only
  split
  · exact gives_error _
  · rename_i k hk
    refine gives_mark fun r => gives_ok ?_ _
    exact hnamed k (List.mem_of_find?_eq_some hk)

theorem gives_touch (s : Input) : Gives Touch.Spelled (touch s) := by
  have hnamed : ∀ t ∈ Touch.named, t.isValid = true := by decide
  unfold touch
  dsimp only
  split
  · exact gives_error _
  · exact gives_error _
  · rename_i t hne ht
    refine gives_mark fun r => gives_ok ?_ _
    exact ⟨hne, hnamed t (List.mem_of_find?_eq_some ht)⟩

/-! ## Expressions -/

end Reader

namespace Expr

/-- Every node has a written form. -/
def Written (e : Expr) : Prop := ∀ n ∈ e.nodes, n.Spelled

theorem written_node {e : Expr} (h : e.Spelled) (hc : ∀ c ∈ e.children, c.Written) : e.Written := by
  intro n hn
  rcases mem_nodes.mp hn with rfl | ⟨c, hmem, hn⟩
  · exact h
  · exact hc c hmem n hn

end Expr

namespace Reader

section Operands

variable {read : Input → Except Stop (Expr × Input)}

theorem gives_argsFrom (hread : ∀ s, Gives Expr.Written (read s)) (n k : Nat) (s : Input) :
    Gives (fun es => ∀ e ∈ es, e.Written) (argsFrom read n k s) := by
  induction n generalizing k s with
  | zero => exact gives_error _
  | succ n ih =>
    rw [argsFrom]
    refine ((hread s).within _).bind fun e r he => ?_
    dsimp only
    split
    · rename_i r' _
      exact (ih (k + 1) r').bind fun es r hes => gives_ok (List.forall_mem_cons.mpr ⟨he, hes⟩) _
    · exact gives_mark fun r => gives_ok (List.forall_mem_singleton.mpr he) _

theorem gives_args (hread : ∀ s, Gives Expr.Written (read s)) (s : Input) :
    Gives (fun es => ∀ e ∈ es, e.Written) (args read s) := by
  unfold args
  refine gives_mark fun r => ?_
  split
  · exact gives_ok (by simp) _
  · exact gives_argsFrom hread _ _ _

theorem gives_oneArg (hread : ∀ s, Gives Expr.Written (read s)) (s : Input) :
    Gives Expr.Written (oneArg read s) := by
  unfold oneArg
  refine (gives_args hread s).bind fun es r hes => ?_
  dsimp only
  split
  · exact gives_ok (hes _ List.mem_cons_self) _
  · exact gives_error _

theorem gives_window (s : Input) : Gives (fun w => w.elem ≠ .invalid) (window s) := by
  unfold window
  refine gives_mark fun r => (gives_any _).bind fun base r _ => gives_mark fun r => ?_
  dsimp only
  split
  · split
    · exact gives_error _
    · split
      · exact gives_error _
      · rename_i T hT
        refine gives_mark fun r => gives_ok ?_ _
        rintro rfl
        exact absurd (List.mem_of_find?_eq_some hT) (by decide)
  · exact gives_error _

theorem gives_indexed (hread : ∀ s, Gives Expr.Written (read s)) (s : Input) :
    Gives (fun p => p.1.elem ≠ .invalid ∧ p.2.1.Written) (indexed read s) := by
  unfold indexed
  refine (gives_window s).bind fun w r hw => gives_mark fun r => ?_
  refine ((hread r).within _).bind fun ix r hix => gives_mark fun r => ?_
  exact (gives_any _).bind fun bias r _ => gives_mark fun r => gives_ok ⟨hw, hix⟩ _

/-- An expression has a written form if its operands have. -/
theorem gives_exprAt (hread : ∀ s, Gives Expr.Written (read s)) (w : String) (s r : Input) :
    Gives Expr.Written (exprAt read w s r) := by
  unfold exprAt
  split
  · -- a register
    refine gives_mark fun r => (gives_type r).bind fun T r hT => ?_
    refine (gives_any _).bind fun off r _ => gives_ok ?_ _
    exact Expr.written_node hT (by simp [Expr.children])
  · -- an element of a window
    refine ((gives_indexed hread r).within _).bind fun p r hp => gives_ok ?_ _
    exact Expr.written_node hp.1 (by simpa [Expr.children] using hp.2)
  · -- a place in memory
    refine gives_mark fun r => (gives_type r).bind fun T r hT => ?_
    refine ((gives_oneArg hread r).within _).bind fun a r ha => gives_ok ?_ _
    exact Expr.written_node hT (by simpa [Expr.children] using ha)
  · -- a call
    dsimp only
    split
    · exact gives_error _
    · rename_i hne
      refine gives_mark fun r => (gives_type r).bind fun T r hT => ?_
      refine ((gives_args hread r).within _).bind fun es r hes => gives_ok ?_ _
      exact Expr.written_node ⟨isWord_of_word hne, hT⟩ hes
  · -- a conditional
    refine Gives.within ((gives_args hread r).bind fun es r' hes => ?_) _
    dsimp only
    split
    · refine gives_ok ?_ _
      exact Expr.written_node trivial hes
    · exact gives_error _
  · -- an operator, with as many operands as it takes
    split
    · exact gives_error _
    · refine Gives.within ((gives_args hread r).bind fun es r' hes => ?_) _
      dsimp only
      split
      · split
        · rename_i harity
          refine gives_ok ?_ _
          exact Expr.written_node harity hes
        · exact gives_error _
      · split
        · rename_i harity
          refine gives_ok ?_ _
          exact Expr.written_node harity hes
        · exact gives_error _
      · exact gives_error _

end Operands

/-- What is read as an expression has a written form. -/
theorem gives_exprUpTo (n : Nat) (s : Input) : Gives Expr.Written (exprUpTo n s) := by
  induction n generalizing s with
  | zero => exact gives_error _
  | succ n ih =>
    rw [exprUpTo]
    dsimp only
    split
    · exact gives_error _
    · split
      · intro e r heq
        obtain ⟨t, ht, hok⟩ := bind_eq_ok.mp heq
        rw [Except.ok.injEq, Prod.mk.injEq] at hok
        rw [← hok.1]
        exact Expr.written_node (tempOf_nonneg ht) (by simp [Expr.children])
      · split
        · refine (gives_constant _).bind fun c r hc => gives_ok ?_ _
          exact Expr.written_node hc (by simp [Expr.children])
        · exact gives_exprAt ih _ _ _

theorem gives_expr (s : Input) : Gives Expr.Written (expr s) := gives_exprUpTo _ _

/-! ## Statements -/

end Reader

/-- A statement whose parts and operands all have written forms. -/
structure Stmt.Written (s : Stmt) : Prop where
  spelled : s.Spelled
  operands : ∀ e ∈ s.operands, e.Written

/-- An effect that is being read: its guard may not have come yet. -/
structure Effect.Drafted (e : Effect) : Prop where
  spelled : e.Spelled
  args : ∀ a ∈ e.args, a.Written
  guard : e.guard ≠ .missing → e.guard.Written
  memAddr : e.memTouch ≠ .none → e.memAddr.Written

/-- A draft with a guard is an effect. -/
theorem Effect.Drafted.written {e : Effect} (h : e.Drafted) (hguard : e.guard ≠ .missing) :
    (Stmt.effect e).Written := by
  refine ⟨h.spelled, fun x hx => ?_⟩
  rw [Stmt.operands, operands, List.mem_append, List.mem_cons] at hx
  rcases hx with hx | rfl | hx
  · split at hx
    · rename_i htouch
      rw [List.mem_singleton] at hx
      exact hx ▸ h.memAddr (by simpa [touchesMem] using htouch)
    · simp at hx
  · exact h.guard hguard
  · exact h.args x hx

namespace Reader

theorem gives_rhs (s : Input) : Gives Expr.Written (rhs s) := gives_mark fun r => gives_expr r

/-- Attributes keep a draft a draft. -/
theorem gives_attributes {n : Nat} {e : Effect} (he : e.Drafted) (s : Input) :
    Gives Effect.Drafted (attributes n e s) := by
  induction n generalizing e s with
  | zero => exact gives_ok he _
  | succ n ih =>
    rw [attributes]
    dsimp only
    split
    · exact gives_ok he _
    · split
      · -- the guard: the last one counts
        refine ((gives_expr _).within _).bind fun g r hg => ih ?_ r
        exact ⟨⟨he.spelled.callee, he.spelled.result, he.spelled.untouched, he.spelled.touched,
          he.spelled.state⟩, he.args, fun _ => hg, he.memAddr⟩
      · -- memory: what an earlier attribute said of it is forgotten
        refine (gives_touch _).bind fun t r ht => ?_
        refine ((gives_expr r).within _).bind fun a r ha => gives_mark fun r => ?_
        refine (gives_any _).bind fun size r _ => ih ?_ r
        have hne : t ≠ .none := ht.1
        exact ⟨⟨he.spelled.callee, he.spelled.result, fun hnone => absurd hnone hne, fun _ => ht,
          he.spelled.state⟩, he.args, he.guard, fun _ => ha⟩
      · -- registers: one more touch
        refine (gives_touch _).bind fun t r ht => (gives_any _).bind fun off r _ => ?_
        refine gives_mark fun r => (gives_any _).bind fun size r _ => ih ?_ r
        refine ⟨⟨he.spelled.callee, he.spelled.result, he.spelled.untouched, he.spelled.touched,
          fun x hx => ?_⟩, he.args, he.guard, he.memAddr⟩
        rcases List.mem_append.mp hx with hx | hx
        · exact he.spelled.state x hx
        · rw [List.mem_singleton] at hx
          exact hx ▸ ht
      · exact gives_error _

theorem gives_effect {result : Option Temp} (hresult : ∀ t, result = some t → 0 ≤ t.toInt)
    (s : Input) : Gives Stmt.Written (effect result s) := by
  unfold effect
  dsimp only
  split
  · exact gives_error _
  · rename_i hne
    refine ((gives_args gives_expr _).within _).bind fun es r hes => ?_
    -- with no attribute read, nothing is touched and the guard is missing
    have hbare : Effect.Drafted ⟨(word s).1, .missing, es, result, .none, .missing, 0, []⟩ :=
      ⟨⟨isWord_of_word hne, hresult, fun _ => ⟨rfl, rfl⟩, fun h => absurd rfl h, by simp⟩, hes,
        fun h => absurd rfl h, fun h => absurd rfl h⟩
    refine (gives_attributes hbare r).bind fun e r he => ?_
    dsimp only
    split
    · exact gives_error _
    · rename_i hguard
      refine gives_ok (he.written ?_) _
      rintro hmissing
      simp [hmissing, Expr.isMissing] at hguard

theorem gives_definition {t : Temp} (ht : 0 ≤ t.toInt) (s : Input) :
    Gives Stmt.Written (definition t s) := by
  unfold definition
  refine gives_mark fun r => ?_
  dsimp only
  split
  · refine gives_effect (fun t' ht' => ?_) _
    rw [Option.some.injEq] at ht'
    exact ht' ▸ ht
  · refine ((gives_expr r).within _).bind fun e r he => gives_ok ⟨ht, ?_⟩ _
    simpa [Stmt.operands] using he

theorem gives_exit (s : Input) : Gives Stmt.Written (exit s) := by
  unfold exit
  refine gives_mark fun r => ((gives_expr r).within _).bind fun g r hg => ?_
  refine gives_mark fun r => gives_mark fun r => (gives_jumpKind r).bind fun k r hk => ?_
  refine ((gives_constant r).within _).bind fun c r hc => gives_ok ⟨⟨hk, hc⟩, ?_⟩ _
  simpa [Stmt.operands] using hg

theorem gives_markStmt (s : Input) : Gives Stmt.Written (mark s) := by
  unfold mark
  refine gives_mark fun r => (gives_any _).bind fun addr r _ => gives_mark fun r => ?_
  refine (gives_any _).bind fun len r _ => gives_mark fun r => gives_ok ⟨trivial, ?_⟩ _
  simp [Stmt.operands]

/-- What is read as a statement has a written form. -/
theorem gives_stmt (s : Input) : Gives Stmt.Written (stmt s) := by
  unfold stmt
  dsimp only
  split
  · intro x r heq
    obtain ⟨t, ht, hok⟩ := bind_eq_ok.mp heq
    exact gives_definition (tempOf_nonneg ht) _ x r hok
  · split
    · exact gives_ok ⟨trivial, by simp [Stmt.operands]⟩ _
    · exact gives_ok ⟨trivial, by simp [Stmt.operands]⟩ _
    · exact gives_markStmt _
    · refine (gives_any _).bind fun off r _ => ?_
      refine ((gives_rhs r).within _).bind fun e r he => gives_ok ⟨trivial, ?_⟩ _
      simpa [Stmt.operands] using he
    · refine ((gives_indexed gives_expr _).within _).bind fun p r hp => ?_
      refine ((gives_rhs r).within _).bind fun e r he => gives_ok ⟨hp.1, ?_⟩ _
      simpa [Stmt.operands] using ⟨hp.2, he⟩
    · refine ((gives_oneArg gives_expr _).within _).bind fun a r ha => ?_
      refine ((gives_rhs r).within _).bind fun e r he => gives_ok ⟨trivial, ?_⟩ _
      simpa [Stmt.operands] using ⟨ha, he⟩
    · exact gives_effect (by simp) _
    · exact gives_exit _
    · exact gives_error _

/-! ## Blocks -/

theorem gives_declaration (digits : List Char) (i : Nat) (s r : Input) :
    Gives (fun T => T ≠ .invalid ∧ i < 2 ^ 31) (declaration digits i s r) := by
  intro T r' heq
  obtain ⟨t, ht, hrest⟩ := bind_eq_ok.mp heq
  split at hrest
  · rename_i hnum
    obtain ⟨r'', -, hT⟩ := bind_eq_ok.mp hrest
    have hhi := t.toInt_lt
    exact ⟨gives_type r'' T r' hT, by omega⟩
  · exact nomatch hrest

end Reader

namespace Block

/-- A statement with a written form can be put before a block that has one. -/
theorem Spelled.cons {b : Block} (h : b.Spelled) {s : Stmt} (hs : s.Written) :
    ({ b with stmts := s :: b.stmts } : Block).Spelled := by
  refine ⟨h.temps, List.forall_mem_cons.mpr ⟨hs.spelled, h.stmts⟩, fun n hn => ?_, h.kind⟩
  rw [Block.nodes, List.flatMap_cons, List.append_assoc, List.mem_append] at hn
  rcases hn with hn | hn
  · obtain ⟨e, he, hn⟩ := List.mem_flatMap.mp hn
    exact hs.operands e he n hn
  · exact h.nodes n hn

end Block

namespace Reader

theorem gives_jump {temps : Array Ty} (htemps : ∀ T ∈ temps, T ≠ .invalid) (s : Input) :
    Gives (fun b => b.Spelled ∧ b.temps = temps) (jump temps s) := by
  unfold jump
  refine (gives_jumpKind s).bind fun k r hk => ((gives_expr r).within _).bind fun e r he => ?_
  refine gives_mark fun r => gives_ok ⟨⟨htemps, by simp, fun n hn => ?_, hk⟩, rfl⟩ _
  exact he n (by simpa [Block.nodes] using hn)

/-- What is read as a block has a written form, and no more temporaries than there are numbers. -/
theorem gives_body {n : Nat} {temps : Array Ty} (htemps : ∀ T ∈ temps, T ≠ .invalid)
    (hsize : temps.size ≤ 2 ^ 31) (k : Nat) (s : Input) :
    Gives (fun b => b.Spelled ∧ b.Numbered) (body n temps k s) := by
  induction n generalizing temps k s with
  | zero => exact gives_error _
  | succ n ih =>
    rw [body]
    dsimp only
    split
    · exact gives_error _
    · split
      · intro b r heq
        obtain ⟨hb, hb'⟩ := gives_jump htemps _ b r heq
        exact ⟨hb, by rwa [Block.Numbered, hb']⟩
      · split
        · -- a declared number is below the bound, so there is room for one more temporary
          refine (gives_declaration _ _ _ _).bind fun T r hT => ih (fun U hU => ?_) ?_ k r
          · rcases Array.mem_push.mp hU with hU | rfl
            · exact htemps U hU
            · exact hT.1
          · rw [Array.size_push]
            omega
        · refine ((gives_stmt s).within _).bind fun x r hx => ?_
          exact (ih htemps hsize (k + 1) r).bind fun b r hb => gives_ok ⟨hb.1.cons hx, hb.2⟩ _

theorem gives_block (s : Input) : Gives (fun b => b.Spelled ∧ b.Numbered) (block s) := by
  unfold block
  exact gives_mark fun r => gives_mark fun r => gives_body (by simp) (by simp) 0 r

end Reader

namespace Block

/-- A block that was read has a written form. -/
theorem spelled_of_read {t : Input} {b : Block} (h : Block.read t = .ok b) :
    b.Spelled ∧ b.Numbered := by
  unfold Block.read at h
  split at h
  · exact nomatch h
  · rename_i b' r hread
    split at h
    · rw [Except.ok.injEq] at h
      exact h ▸ Reader.gives_block t b' r hread
    · exact nomatch h

theorem spelled_of_readFrom {t : Input} {n i : Nat} {s : Input} {bs : List Block}
    (h : readFrom t n i s = .ok bs) : ∀ b ∈ bs, b.Spelled ∧ b.Numbered := by
  induction n generalizing i s bs with
  | zero =>
    rw [readFrom, Except.ok.injEq] at h
    simp [← h]
  | succ n ih =>
    rw [readFrom] at h
    split at h
    · rw [Except.ok.injEq] at h
      simp [← h]
    · split at h
      · exact nomatch h
      · rename_i b r hread
        obtain ⟨bs', hbs', hok⟩ := bind_eq_ok.mp h
        rw [Except.ok.injEq] at hok
        rw [← hok, List.forall_mem_cons]
        exact ⟨Reader.gives_block _ b r hread, ih hbs'⟩

end Block
end Straightline
