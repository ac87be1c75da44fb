import Mathlib
import Straightline.Proofs.Text.Lexer
import Straightline.Proofs.Translation

/-!
# What can be written and read

A block is `Spelled` if each of its parts has a written form of its own: no holes, temporaries with
numbers, named types, operators, kinds and touches, callees that are words, constants within their
tags. It is `Legible` if moreover its temporaries can be numbered and no window has a negative
count, for such a count is written with a sign that is not read.

A legible block prints, and so does a spelled one. The checker accepts spelled blocks only, but for
the names of callees and the targets of exits, which it does not look at.
-/

namespace Straightline

open Lexer

/-! ## Definitions -/

/-- A constant that is read back: its tag has a name and its bits lie within it. -/
def Const.Spelled (c : Const) : Prop := c.tag ≠ .invalid ∧ c.fits = true

/-- A touch that says what it does. -/
def Touch.Spelled (t : Touch) : Prop := t ≠ .none ∧ t.isValid = true

namespace Expr

/-- The parts of a node, other than its operands, have written forms. -/
def Spelled : Expr → Prop
  | missing => False
  | tmp t => 0 ≤ t.toInt
  | const c => c.Spelled
  | get _ ty | load ty _ => ty ≠ .invalid
  | getIx w _ _ => w.elem ≠ .invalid
  | unop op _ => op.arity = 1
  | binop op _ _ => op.arity = 2
  | call callee ty _ => IsWord callee ∧ ty ≠ .invalid
  | select _ _ _ => True

/-- The window that a node reads from. -/
def window? : Expr → Option Window
  | getIx w _ _ => some w
  | _ => none

/-- The helper that a node calls. -/
def callee? : Expr → Option String
  | call callee _ _ => some callee
  | _ => none

/-- A tree whose nodes all have written forms and whose windows have counts that are read. -/
def Legible (e : Expr) : Prop :=
  ∀ n ∈ e.nodes, n.Spelled ∧ ∀ w, n.window? = some w → 0 ≤ w.count.toInt

end Expr

namespace Effect

/-- The parts of an effect, other than its operands, have written forms. -/
structure Spelled (e : Effect) : Prop where
  callee : IsWord e.callee
  result : ∀ t, e.result = some t → 0 ≤ t.toInt
  /-- Nothing is written of memory that is not touched. -/
  untouched : e.memTouch = .none → e.memAddr = .missing ∧ e.memSize = 0
  touched : e.memTouch ≠ .none → e.memTouch.Spelled
  state : ∀ t ∈ e.state, t.touch.Spelled

end Effect

namespace Stmt

/-- The parts of a statement, other than its operands, have written forms. -/
def Spelled : Stmt → Prop
  | missing => False
  | noop | fence | mark _ _ | put _ _ | store _ _ => True
  | assign dst _ => 0 ≤ dst.toInt
  | putIx w _ _ _ => w.elem ≠ .invalid
  | effect e => e.Spelled
  | exit _ kind dst => kind.isValid = true ∧ dst.Spelled

/-- The window that a statement writes to. -/
def window? : Stmt → Option Window
  | putIx w _ _ _ => some w
  | _ => none

/-- The helper that a statement calls. -/
def callee? : Stmt → Option String
  | effect e => some e.callee
  | _ => none

/-- A statement that is written so that it can be read. -/
structure Legible (s : Stmt) : Prop where
  spelled : s.Spelled
  counted : ∀ w, s.window? = some w → 0 ≤ w.count.toInt
  operands : ∀ e ∈ s.operands, e.Legible

end Stmt

namespace Block

/-- The windows of a block. -/
def windows (b : Block) : List Window :=
  b.nodes.filterMap Expr.window? ++ b.stmts.filterMap Stmt.window?

/-- No window has a negative count. -/
def Counted (b : Block) : Prop := ∀ w ∈ b.windows, 0 ≤ w.count

instance (b : Block) : Decidable b.Counted := inferInstanceAs (Decidable (∀ w ∈ b.windows, _))

/-- The names of the helpers that are called. -/
def callees (b : Block) : List String :=
  b.nodes.filterMap Expr.callee? ++ b.stmts.filterMap Stmt.callee?

/-- There are no more temporaries than a `Temp` can number. -/
def Numbered (b : Block) : Prop := b.temps.size ≤ 2 ^ 31

instance (b : Block) : Decidable b.Numbered := inferInstanceAs (Decidable (_ ≤ _))

/-- The parts of a block have written forms. -/
structure Spelled (b : Block) : Prop where
  temps : ∀ T ∈ b.temps, T ≠ .invalid
  stmts : ∀ s ∈ b.stmts, s.Spelled
  nodes : ∀ n ∈ b.nodes, n.Spelled
  kind : b.kind.isValid = true

/-- A block that is written so that it can be read. -/
structure Legible (b : Block) : Prop where
  temps : ∀ T ∈ b.temps, T ≠ .invalid
  numbered : b.Numbered
  stmts : ∀ s ∈ b.stmts, s.Legible
  next : b.next.Legible
  kind : b.kind.isValid = true

/-- A spelled block is legible if its numbers are. -/
theorem Spelled.legible {b : Block} (h : b.Spelled) (hnum : b.Numbered) (hcount : b.Counted) :
    b.Legible := by
  have hexpr {e : Expr} (hmem : ∀ n ∈ e.nodes, n ∈ b.nodes) : e.Legible := by
    intro n hn
    refine ⟨h.nodes n (hmem n hn), fun w hw => ?_⟩
    have hwin : w ∈ b.windows :=
      List.mem_append_left _ (List.mem_filterMap.mpr ⟨n, hmem n hn, hw⟩)
    exact Int64.le_iff_toInt_le.mp (hcount w hwin)
  refine ⟨h.temps, hnum, fun s hs => ⟨h.stmts s hs, fun w hw => ?_, fun e he => ?_⟩, ?_, h.kind⟩
  · have hwin : w ∈ b.windows :=
      List.mem_append_right _ (List.mem_filterMap.mpr ⟨s, hs, hw⟩)
    exact Int64.le_iff_toInt_le.mp (hcount w hwin)
  · exact hexpr fun n hn => mem_nodes_of_stmt hs (List.mem_flatMap.mpr ⟨e, he, hn⟩)
  · exact hexpr fun n hn => mem_nodes_of_next hn

end Block

/-! ## Operands of effects -/

namespace Effect

variable {e : Effect}

theorem guard_mem_operands : e.guard ∈ (Stmt.effect e).operands := by
  simp [Stmt.operands, operands]

theorem arg_mem_operands {a : Expr} (ha : a ∈ e.args) : a ∈ (Stmt.effect e).operands := by
  simp [Stmt.operands, operands, ha]

theorem memAddr_mem_operands (h : e.memTouch ≠ .none) : e.memAddr ∈ (Stmt.effect e).operands := by
  simp [Stmt.operands, operands, touchesMem, h]

end Effect

/-! ## Printing -/

namespace Expr

theorem Spelled.ne_missing {e : Expr} (h : e.Spelled) : e ≠ .missing := by
  rintro rfl
  exact h

theorem unprintableArg?_eq_none {es : List Expr} (h : ∀ e ∈ es, e.unprintable? = none) (i : Nat) :
    unprintableArg? i es = none := by
  induction es generalizing i with
  | nil => rfl
  | cons e es ih =>
    rw [List.forall_mem_cons] at h
    simp [unprintableArg?, h.1, ih h.2]

/-- A tree without holes prints. -/
theorem unprintable?_eq_none {e : Expr} (h : ∀ n ∈ e.nodes, n ≠ .missing) :
    e.unprintable? = none := by
  induction e using childInduct with
  | h e ih =>
    have hchild : ∀ c ∈ e.children, c.unprintable? = none := fun c hc =>
      ih c hc fun n hn => h n (mem_nodes_of_child hc hn)
    cases e with
    | missing => exact absurd rfl (h _ (self_mem_nodes _))
    | call callee ty args => exact unprintableArg?_eq_none hchild 0
    | _ => simp_all [children, unprintable?]

end Expr

namespace Stmt

/-- A spelled statement prints if its operands have no holes. -/
theorem Spelled.unprintable?_eq_none {s : Stmt} (h : s.Spelled)
    (hnodes : ∀ n ∈ s.nodes, n ≠ .missing) : s.unprintable? = none := by
  have hop : ∀ e ∈ s.operands, e.unprintable? = none := fun e he =>
    Expr.unprintable?_eq_none fun n hn => hnodes n (List.mem_flatMap.mpr ⟨e, he, hn⟩)
  cases s with
  | missing => exact h.elim
  | effect e =>
    have hargs : Expr.unprintableArg? 0 e.args = none :=
      Expr.unprintableArg?_eq_none (fun a ha => hop a (Effect.arg_mem_operands ha)) 0
    have hguard : e.guard.unprintable? = none := hop _ Effect.guard_mem_operands
    have hmem : e.memTouch ≠ .none → e.memAddr.unprintable? = none := fun ht =>
      hop _ (Effect.memAddr_mem_operands ht)
    by_cases ht : e.memTouch = .none <;>
      simp_all [unprintable?, Effect.unprintable?, Effect.touchesMem]
  | _ => simp_all [operands, unprintable?]

end Stmt

namespace Block

theorem unprintableStmt?_eq_none {ss : List Stmt} (h : ∀ s ∈ ss, s.unprintable? = none) (i : Nat) :
    unprintableStmt? i ss = none := by
  induction ss generalizing i with
  | nil => rfl
  | cons s ss ih =>
    rw [List.forall_mem_cons] at h
    simp [unprintableStmt?, h.1, ih h.2]

/-- A block whose parts have written forms prints. -/
theorem Spelled.print {b : Block} (h : b.Spelled) : b.print = .ok b.text := by
  have hnodes : ∀ n ∈ b.nodes, n ≠ .missing := fun n hn => (h.nodes n hn).ne_missing
  have hstmts : unprintableStmt? 0 b.stmts = none :=
    unprintableStmt?_eq_none (fun s hs => (h.stmts s hs).unprintable?_eq_none fun n hn =>
      hnodes n (mem_nodes_of_stmt hs hn)) 0
  have hnext : b.next.unprintable? = none :=
    Expr.unprintable?_eq_none fun n hn => hnodes n (mem_nodes_of_next hn)
  have hmissing : b.next.isMissing = false := by
    have hne := hnodes b.next (mem_nodes_of_next (Expr.self_mem_nodes _))
    cases hb : b.next <;> simp_all [Expr.isMissing]
  simp [Block.print, Item.print, unprintable?, hstmts, hnext, hmissing]

end Block

/-! ## Checked blocks -/

theorem Ty.ne_invalid_of_bytes {T : Ty} (h : T.bytes ≠ 0) : T ≠ .invalid := by
  rintro rfl
  exact h rfl

theorem Temp.nonneg_of_tempTy {temps : Array Ty} {t : Temp} {T : Ty} (h : tempTy temps t = .ok T) :
    0 ≤ t.toInt := (tempTy_eq_ok.mp h).1

section Typed

variable {P : Policy} {temps : Array Ty} {defs : List Temp}

theorem Expr.HasTy.spelled {e : Expr} {T : Ty} (h : e.HasTy P temps defs T)
    (hcallee : ∀ w, e.callee? = some w → IsWord w) : e.Spelled := by
  cases e with
  | missing => exact h
  | tmp t => exact Temp.nonneg_of_tempTy h.1
  | const c =>
    refine ⟨fun htag => h.2.1 ?_, h.2.2⟩
    rw [← h.1, Const.ty, htag]
    rfl
  | get off ty => exact Ty.ne_invalid_of_bytes h.2.2.1
  | getIx w ix bias => exact Ty.ne_invalid_of_bytes h.2.1.2.1
  | unop op a => exact h.2.1
  | binop op a b => exact h.2.1
  | load ty a => exact Ty.ne_invalid_of_bytes h.2.1
  | call callee ty args => exact ⟨hcallee _ rfl, Ty.ne_invalid_of_bytes h.2.2.1⟩
  | select c z x => trivial

theorem Expr.HasTy.counted {e : Expr} {T : Ty} (h : e.HasTy P temps defs T) {w : Window}
    (hw : e.window? = some w) : 0 ≤ w.count := by
  cases e with
  | getIx w' ix bias =>
    obtain rfl : w' = w := by simpa [window?] using hw
    exact Int64.le_of_lt h.2.1.1
  | _ => simp [window?] at hw

theorem Effect.Ok.spelled {e : Effect} (h : e.Ok P temps defs) (hcallee : IsWord e.callee) :
    e.Spelled := by
  have hmem := h.mem
  unfold MemOk at hmem
  refine ⟨hcallee, fun t ht => ?_, fun htouch => ?_, fun htouch => ?_, fun t ht => ?_⟩
  · obtain ⟨-, ⟨T, hT⟩, -⟩ := h.result t ht
    exact Temp.nonneg_of_tempTy hT
  · rwa [htouch] at hmem
  · cases he : e.memTouch with
    | other i => simp [he] at hmem
    | none => exact absurd he htouch
    | read | write | modify => exact ⟨by decide, rfl⟩
  · exact (h.state t ht).1

theorem Stmt.Ok.spelled {s : Stmt} (h : s.Ok P temps defs)
    (hcallee : ∀ w, s.callee? = some w → IsWord w)
    (hexit : ∀ guard kind dst, s = .exit guard kind dst → dst.fits = true) : s.Spelled := by
  cases s with
  | missing => exact h
  | noop | fence | mark | put | store => trivial
  | assign dst src =>
    obtain ⟨T, -, hT, -⟩ := h
    exact Temp.nonneg_of_tempTy hT
  | putIx w ix bias data => exact Ty.ne_invalid_of_bytes h.1.2.1
  | effect e => exact Effect.Ok.spelled h (hcallee _ rfl)
  | exit guard kind dst =>
    obtain ⟨-, htag, hkind, -⟩ := h
    refine ⟨hkind, ?_, hexit _ _ _ rfl⟩
    rcases htag with htag | htag <;> simp [htag]

theorem Stmt.Ok.counted {s : Stmt} (h : s.Ok P temps defs) {w : Window}
    (hw : s.window? = some w) : 0 ≤ w.count := by
  cases s with
  | putIx w' ix bias data =>
    obtain rfl : w' = w := by simpa [window?] using hw
    exact Int64.le_of_lt h.1.1
  | _ => simp [window?] at hw

end Typed

namespace Block

variable {b : Block}

/-- Every node of a checked block has a type. -/
theorem exists_hasTy_of_check (hb : b.check false = .ok ()) {n : Expr} (hn : n ∈ b.nodes) :
    ∃ defs T, n.HasTy .any b.temps defs T := by
  obtain ⟨htyped, hfits, -⟩ := check_eq_ok_iff.mp hb
  rcases List.mem_append.mp hn with hn | hn
  · obtain ⟨s, hs, hn⟩ := List.mem_flatMap.mp hn
    obtain ⟨defs, hok⟩ := htyped.stmts.exists_ok hs
    exact ⟨defs, hok.node hn⟩
  · rcases htyped.next.isAddress hfits with hT | hT
    · exact ⟨_, hT.node hn⟩
    · exact ⟨_, hT.node hn⟩

/-- The windows of a checked block have counts. -/
theorem counted_of_check (hb : b.check false = .ok ()) : b.Counted := by
  intro w hw
  rcases List.mem_append.mp hw with hw | hw
  · obtain ⟨n, hn, hw⟩ := List.mem_filterMap.mp hw
    obtain ⟨defs, T, hT⟩ := exists_hasTy_of_check hb hn
    exact hT.counted hw
  · obtain ⟨s, hs, hw⟩ := List.mem_filterMap.mp hw
    obtain ⟨defs, hok⟩ := (check_eq_ok_iff.mp hb).1.stmts.exists_ok hs
    exact hok.counted hw

/-- The parts of a checked block have written forms, up to what the checker does not look at. -/
theorem spelled_of_check (hb : b.check false = .ok ()) (hcallees : ∀ w ∈ b.callees, IsWord w)
    (hexits : b.ExitsFit) : b.Spelled := by
  obtain ⟨htyped, -, -⟩ := check_eq_ok_iff.mp hb
  refine ⟨fun T hT => Ty.ne_invalid_of_bytes (htyped.temps T hT), fun s hs => ?_, fun n hn => ?_,
    htyped.kind⟩
  · obtain ⟨defs, hok⟩ := htyped.stmts.exists_ok hs
    refine hok.spelled (fun w hw => hcallees w ?_) fun guard kind dst he =>
      hexits guard kind dst (he ▸ hs)
    exact List.mem_append_right _ (List.mem_filterMap.mpr ⟨s, hs, hw⟩)
  · obtain ⟨defs, T, hT⟩ := exists_hasTy_of_check hb hn
    refine hT.spelled fun w hw => hcallees w ?_
    exact List.mem_append_left _ (List.mem_filterMap.mpr ⟨n, hn, hw⟩)

end Block
end Straightline
