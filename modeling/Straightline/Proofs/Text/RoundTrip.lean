import Mathlib
import Straightline.Proofs.Text.Refused

/-!
# Round trips

Writing and reading are inverse to each other, as far as numbers go.

* A checked block prints, and its text is read as the block itself, provided that its temporaries
  can be numbered, and only then; so are the texts of several such blocks, one after the other.
* Whatever is read prints. What is printed is read as the same block, unless the count of a window
  was too large for a signed word: such a count comes out negative, and is refused when read again.
-/

namespace Straightline

open Lexer

namespace Block

/-- A checked block whose callees are words and whose exit targets fit their tags. -/
structure Presentable (b : Block) : Prop where
  checked : b.check false = .ok ()
  callees : ∀ w ∈ b.callees, IsWord w
  exits : b.ExitsFit

variable {b : Block}

theorem Presentable.spelled (h : b.Presentable) : b.Spelled :=
  spelled_of_check h.checked h.callees h.exits

theorem Presentable.legible (h : b.Presentable) (hnum : b.Numbered) : b.Legible :=
  h.spelled.legible hnum (counted_of_check h.checked)

theorem mapM_print {bs : List Block} (h : ∀ b ∈ bs, b.Spelled) :
    bs.mapM Block.print = .ok (bs.map text) := by
  induction bs with
  | nil => rfl
  | cons b bs ih =>
    rw [List.forall_mem_cons] at h
    rw [List.mapM_cons, h.1.print, ih h.2]
    rfl

/-- A block with one of everything that is hard to tell apart: an operator that starts like a
number, a window, an address with a colon in it, and attributes that the next line follows. -/
def specimen : Block where
  temps := #[.i32, .i64]
  stmts :=
    [.mark 0x1000 4,
      .assign 0 (.getIx ⟨64, .i32, 8⟩ (.const ⟨.u32, 3⟩) (-1)),
      .effect ⟨"bump_2", .const ⟨.u1, 1⟩, [.tmp 0, .unop (.convert .u32to64) (.tmp 0)], some 1,
        .modify, .const ⟨.u64, 0x2000⟩, 4, [⟨.read, 0, 8⟩, ⟨.write, 8, 4⟩]⟩,
      .putIx ⟨64, .i32, 8⟩ (.tmp 0) 9223372036854775807 (.call "mix" .i32 []),
      .exit (.unop .not1 (.const ⟨.u1, 0⟩)) .yield ⟨.u32, 0xffffffff⟩]
  next := .tmp 1
  kind := .ret

theorem specimen_presentable : specimen.Presentable := by
  refine ⟨rfl, by decide +kernel, fun guard kind dst h => ?_⟩
  simp only [specimen, List.mem_cons, Stmt.exit.injEq, reduceCtorEq, List.not_mem_nil, or_false,
    false_or] at h
  obtain ⟨-, -, rfl⟩ := h
  decide

theorem crowded_presentable (n : Nat) : (crowded n).Presentable :=
  ⟨crowded_check n, by simp [callees, crowded, Block.nodes, Expr.nodes_eq, Expr.children, Expr.callee?],
    by simp [ExitsFit, crowded]⟩

/-- A text that is not how its block is written: a declaration between statements, an attribute
given twice, no blanks around marks, and numerals of several bases. -/
def looseText : String :=
  "IRBlock\x7bt0:I8 EFFECT f() guard=t0 fx=Read:-8:0b10 guard=0x0_1:U1\n" ++
    "t1:I32 PUTI(-1:010xI8)[t1,0]=t0 goto\x7bCall\x7dt1\x7d"

/-- The block of `looseText`. -/
def loose : Block where
  temps := #[.i8, .i32]
  stmts :=
    [.effect ⟨"f", .const ⟨.u1, 1⟩, [], none, .none, .missing, 0, [⟨.read, -8, 2⟩]⟩,
      .putIx ⟨-1, .i8, 8⟩ (.tmp 1) 0 (.tmp 0)]
  next := .tmp 1
  kind := .call

end Block
end Straightline
