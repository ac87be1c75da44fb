import Mathlib
import Straightline.Proofs.Translation

/-!
# What passes do to well-formed blocks

The passes were proved sound for blocks that keep a policy, whatever the policy is. A well-formed
block keeps a policy of its own (`Block.policy`), which allows the windows and effects that stand in
it and no others. So what a pass asks of the policy is asked of the block, and each main statement
here is about one pass alone: it returns a well-formed block, and where the given block ends, the
result ends alike.

Dropping register writes does more: at each access to memory the two runs have the same values in
the registers that have to be precise (`dropped_writes_access_alike`). Flat form does less: it has
no place for what is computed under a condition, so runs that skip an effect can be lost
(`flattened_block_ends_alike`). Unrolling does something else: one run of the result is some runs of
the block (`unrolled_loop_iterates`).
-/

namespace Straightline

namespace Block

variable {b r : Block} {env : Env}

/-! ## The policy of a block -/

/-- Some access of the block goes through the window with the displacement. -/
def Indexes (b : Block) (w : Window) (bias : Int64) : Prop :=
  (∃ ix, .getIx w ix bias ∈ b.nodes) ∨ ∃ ix data, .putIx w ix bias data ∈ b.stmts

/-- The windows of the block that are accessed, with the displacements. -/
def indexed (b : Block) : List (Window × Int64) :=
  (b.nodes.filterMap fun
    | .getIx w _ bias => some (w, bias)
    | _ => none) ++
  b.stmts.filterMap fun
    | .putIx w _ bias _ => some (w, bias)
    | _ => none

/-- What all indexed accesses have in common can be decided. -/
theorem forall_indexes {p : Window → Int64 → Prop} :
    (∀ w bias, b.Indexes w bias → p w bias) ↔ ∀ a ∈ b.indexed, p a.1 a.2 := by
  constructor
  · rintro h ⟨w, bias⟩ ha
    refine h w bias ?_
    rcases List.mem_append.mp ha with ha | ha
    · obtain ⟨e, he, heq⟩ := List.mem_filterMap.mp ha
      cases e with
      | getIx w' ix bias' =>
        rw [Option.some.injEq, Prod.mk.injEq] at heq
        exact .inl ⟨ix, heq.1 ▸ heq.2 ▸ he⟩
      | _ => simp at heq
    · obtain ⟨s, hs, heq⟩ := List.mem_filterMap.mp ha
      cases s with
      | putIx w' ix bias' data =>
        rw [Option.some.injEq, Prod.mk.injEq] at heq
        exact .inr ⟨ix, data, heq.1 ▸ heq.2 ▸ hs⟩
      | _ => simp at heq
  · rintro h w bias (⟨ix, he⟩ | ⟨ix, data, hs⟩)
    · exact h (w, bias) (List.mem_append_left _ (List.mem_filterMap.mpr ⟨_, he, rfl⟩))
    · exact h (w, bias) (List.mem_append_right _ (List.mem_filterMap.mpr ⟨_, hs, rfl⟩))

/-- The windows of the block end at offsets. -/
def WindowsEnd (b : Block) : Prop := ∀ w bias, b.Indexes w bias → w.Unwrapped

/-- The displacements of the block can be added to every index. -/
def BiasesSteady (b : Block) : Prop := ∀ w bias, b.Indexes w bias → Steady bias

/-- The windows of the block have no more elements than there are indices. -/
def WindowsSmall (b : Block) : Prop := ∀ w bias, b.Indexes w bias → w.count.toInt ≤ 2 ^ 32

/-- Effects of the block that declare no register write leave the registers alone. -/
def KeepsRegs (b : Block) (env : Env) : Prop :=
  ∀ e f, .effect e ∈ b.stmts → e.writesState = false → env.effect e.callee = some f →
    EffectHelper.KeepsRegs f

/-- Effects of the block that declare no touch of registers neither write nor read them. -/
def Blind (b : Block) (env : Env) : Prop :=
  ∀ e f, .effect e ∈ b.stmts → e.state = [] → env.effect e.callee = some f → EffectHelper.Blind f

/-- Allows the windows and effects of the block. -/
def policy (b : Block) : Policy where
  slot _ _ := True
  window := b.Indexes
  helper _ _ _ := True
  effect callee n state :=
    ∃ e, .effect e ∈ b.stmts ∧ e.callee = callee ∧ e.args.length = n ∧ e.state = state
  exit _ := True

theorem Typed.policy (hb : b.Typed .any) : b.Typed b.policy := by
  have hnode : ∀ e ∈ b.nodes, b.policy.Allows b.temps e := by
    intro e he
    cases e with
    | getIx w ix bias => exact .inl ⟨ix, he⟩
    | call => exact fun _ _ => trivial
    | _ => trivial
  refine hb.of_allows ?_ (fun e he => hnode e (mem_nodes_of_next he)) fun _ _ => trivial
  intro s hs
  refine ⟨?_, fun e he => hnode e (mem_nodes_of_stmt hs he)⟩
  cases s with
  | put => exact fun _ _ => trivial
  | putIx w ix bias data => exact .inr ⟨ix, data, hs⟩
  | effect e => exact ⟨e, hs, rfl, rfl, rfl⟩
  | _ => trivial

theorem KeepsRegs.policy (h : b.KeepsRegs env) : b.policy.KeepsRegs env := by
  intro e he hwrites f hf
  obtain ⟨e', he', hcallee, -, hstate⟩ := he
  refine h e' f he' ?_ (by rw [hcallee]; exact hf)
  rw [Effect.writesState, hstate]
  exact hwrites

theorem Blind.policy (h : b.Blind env) : b.policy.Blind env := by
  intro e he htouches f hf
  obtain ⟨e', he', hcallee, -, hstate⟩ := he
  refine h e' f he' ?_ (by rw [hcallee]; exact hf)
  rw [hstate]
  simpa [Effect.touchesState] using htouches

/-- What a pass makes of a well-formed block is well-formed. -/
theorem Keeps.check {P : Policy} {flat : Bool} (h : b.Keeps P r) (hb : b.check flat = .ok ()) :
    r.check flat = .ok () := by
  obtain ⟨-, hnext, hflat⟩ := check_eq_ok_iff.mp hb
  exact check_eq_ok_iff.mpr
    ⟨h.typed.mono (.any _), h.fits.mpr hnext, fun hf => h.flat (hflat hf)⟩

end Block

/-! ## Indexed accesses -/

/-- Indexed writes that nothing observes are dropped from every well-formed flat block whose windows
end at offsets and whose displacements can be added to indices. The result is well-formed, and where
effects that declare no touch of registers are blind to them, it ends as the block does. -/
theorem dropped_elements_end_alike {b : Block} (o : Precise) (hb : b.check true = .ok ())
    (hwindows : b.WindowsEnd) (hbiases : b.BiasesSteady) :
    ∃ r, (b.dropElements o).result = .ok r ∧ r.check true = .ok () ∧
      ∀ env, b.Blind env → b.RefinedBy env r := by
  obtain ⟨htyped, -, hflat⟩ := Block.check_eq_ok_iff.mp hb
  obtain ⟨r, hr, hkeeps, href⟩ := Block.dropElements_spec o htyped.policy
  exact ⟨r, hr, hkeeps.check hb, fun env hblind =>
    href env (hflat rfl) hwindows hbiases hblind.policy⟩

/-- Writes elements of a ring of four words, counted from the index in the first register: three
times the same one, and another one, which it reads back and stores. -/
def Block.ring : Block where
  temps := #[.i32, .i32]
  stmts := [.assign 0 (.get 0 .i32),
    .putIx ⟨4, .i32, 4⟩ (.tmp 0) 0 (.const ⟨.u32, 1⟩),
    .putIx ⟨4, .i32, 4⟩ (.tmp 0) 1 (.const ⟨.u32, 2⟩),
    .effect ⟨"tick", .const ⟨.u1, 1⟩, [], none, .none, .missing, 0, []⟩,
    .putIx ⟨4, .i32, 4⟩ (.tmp 0) 4 (.const ⟨.u32, 3⟩),
    .put 20 (.const ⟨.u32, 5⟩),
    .assign 1 (.getIx ⟨4, .i32, 4⟩ (.tmp 0) 5),
    .store (.const ⟨.u32, 64⟩) (.tmp 1),
    .put 20 (.tmp 1),
    .putIx ⟨4, .i32, 4⟩ (.tmp 0) (-4) (.const ⟨.u32, 4⟩)]
  next := .const ⟨.u32, 32⟩
  kind := .boring

namespace Block

theorem ring_windowsEnd : ring.WindowsEnd := by
  refine forall_indexes.mpr ?_
  unfold Window.Unwrapped
  decide

theorem ring_biasesSteady : ring.BiasesSteady := by
  refine forall_indexes.mpr ?_
  unfold Steady
  decide

theorem blind_bump (b : Block) : b.Blind .bump := by
  rintro e f - - hf s vs addr x s' hx
  obtain rfl := Option.some.inj hf
  cases hx
  exact ⟨rfl, fun _ _ => rfl⟩

theorem keepsRegs_bump (b : Block) : b.KeepsRegs .bump := by
  rintro e f - - hf s vs addr x s' hx
  obtain rfl := Option.some.inj hf
  cases hx
  rfl

theorem ring_ends : ∃ out, ring.ends (.zero 24) .bump = some out := ⟨_, rfl⟩

end Block

theorem dropped_elements_end_alike_ring :
    ∃ r out, (Block.ring.dropElements .none).result = .ok r ∧ r.check true = .ok () ∧
      Block.ring.ends (.zero 24) .bump = some out ∧ r.ends (.zero 24) .bump = some out := by
  obtain ⟨r, hr, hcheck, href⟩ := dropped_elements_end_alike (b := .ring) .none rfl
    Block.ring_windowsEnd Block.ring_biasesSteady
  obtain ⟨out, hout⟩ := Block.ring_ends
  exact ⟨r, out, hr, hcheck, hout, href .bump (Block.blind_bump _) _ _ hout⟩

/-- Of three writes to one element the first two are dropped, each because of the next. -/
example : (Block.ring.dropElements .none).result.map (·.stmts.length) = .ok 8 := rfl

/-- Elements that are known from an earlier access are not read again, in every well-formed flat
block whose windows end at offsets and whose displacements can be added to indices. The result is
well-formed, and where effects that declare no register write leave the registers alone, it ends as
the block does. -/
theorem reused_elements_end_alike {b : Block} (hb : b.check true = .ok ())
    (hwindows : b.WindowsEnd) (hbiases : b.BiasesSteady) :
    ∃ r, b.reuseElements.result = .ok r ∧ r.check true = .ok () ∧
      ∀ env, b.KeepsRegs env → b.RefinedBy env r := by
  obtain ⟨htyped, -, -⟩ := Block.check_eq_ok_iff.mp hb
  obtain ⟨r, hr, hkeeps, href⟩ := Block.reuseElements_spec htyped.policy
  exact ⟨r, hr, hkeeps.check hb, fun env hregs => href env hwindows hbiases hregs.policy⟩

theorem reused_elements_end_alike_ring :
    ∃ r out, Block.ring.reuseElements.result = .ok r ∧ r.check true = .ok () ∧
      Block.ring.ends (.zero 24) .bump = some out ∧ r.ends (.zero 24) .bump = some out := by
  obtain ⟨r, hr, hcheck, href⟩ := reused_elements_end_alike (b := .ring) rfl
    Block.ring_windowsEnd Block.ring_biasesSteady
  obtain ⟨out, hout⟩ := Block.ring_ends
  exact ⟨r, out, hr, hcheck, hout, href .bump (Block.keepsRegs_bump _) _ _ hout⟩

/-- The element that is read back was written under another displacement, a round away. -/
example : Block.ring.reuseElements.result.map (·.stmts[6]?) =
    .ok (some (.assign 1 (.const ⟨.u32, 2⟩))) := rfl

/-! ## Precise registers -/

/-- The oracle calls a range precise just when one of its bytes is in `V`. -/
def Precise.Marks (o : Precise) (V : Nat → Prop) : Prop :=
  ∀ lo hi : Int64, o lo hi = true ↔ ∃ j : Nat, V j ∧ lo.toInt ≤ j ∧ j ≤ hi.toInt

theorem Precise.Marks.guards {o : Precise} {V : Nat → Prop} (h : o.Marks V) : o.Guards V := by
  intro r j hj hcov
  obtain ⟨hlo, hhi⟩ := hcov
  -- the last byte of the region is an offset, as a byte lies in front of the end
  have hlast : (r.hi - 1).toInt = r.hi.toInt - 1 := by
    have hlt := Int64.toInt_lt r.hi
    rw [Int64.toInt_sub, show (1 : Int64).toInt = 1 from rfl]
    apply Int.bmod_eq_of_le
    · omega
    · omega
  exact (h _ _).mpr ⟨j, hj, hlo, by omega⟩

/-- From the state, `r` ends as `b` does, and makes the same accesses to the same memory, each with
the same values in the register bytes of `V`. -/
structure Block.AccessesAlike (V : Nat → Prop) (s : State) (env : Env) (b r : Block) : Prop where
  ends : r.ends s env = b.ends s env
  trace : List.Forall₂ (SameAccess V) (b.trace s env) (r.trace s env)

theorem Alongside.accessesAlike {V : Nat → Prop} {b : Block} {kept : List Stmt} {s : State}
    {env : Env} {out : Outcome} (h : Alongside V b.stmts (.start b.temps env s) kept s)
    (hflat : b.Flat) (hout : b.ends s env = some out) :
    b.AccessesAlike V s env { b with stmts := kept } := by
  refine ⟨?_, h.trace hflat.1 b.next⟩
  rw [hout]
  exact h.ends hout

/-- Dropping register writes keeps registers precise at accesses to memory. Let the oracle mark the
bytes of `V`, and let effects that declare no touch of registers be blind to them. Where a well-formed
flat block ends, what is left of it without the register writes, or the indexed writes, that nothing
observes makes the same accesses to memory, and at each of them the bytes of `V` have the same
values. -/
theorem dropped_writes_access_alike {b : Block} {o : Precise} {V : Nat → Prop} (ho : o.Marks V)
    (hb : b.check true = .ok ()) (hwindows : b.WindowsEnd) (hbiases : b.BiasesSteady) :
    ∃ r r', b.dropWrites o = .ok r ∧ (b.dropElements o).result = .ok r' ∧
      ∀ env s out, b.Blind env → b.ends s env = some out →
        b.AccessesAlike V s env r ∧ b.AccessesAlike V s env r' := by
  obtain ⟨htyped, -, hflat⟩ := Block.check_eq_ok_iff.mp hb
  obtain ⟨kept, hr, -, halong⟩ := Block.dropWrites_alongside o htyped.policy
  obtain ⟨kept', hr', -, halong'⟩ := Block.dropElements_alongside o htyped.policy
  refine ⟨_, _, hr, hr', fun env s out hblind hout => ⟨?_, ?_⟩⟩
  · exact (halong V env s out ho.guards hwindows hout).accessesAlike (hflat rfl) hout
  · exact (halong' V env s out ho.guards (hflat rfl) hwindows hbiases hblind.policy
      hout).accessesAlike (hflat rfl) hout

theorem dropped_writes_access_alike_ring :
    Block.ring.trace (.zero 24) .bump ≠ [] ∧
      ∃ r r', Block.ring.dropWrites (fun lo hi => lo ≤ 4 && 4 ≤ hi) = .ok r ∧
        (Block.ring.dropElements fun lo hi => lo ≤ 4 && 4 ≤ hi).result = .ok r' ∧
        Block.ring.AccessesAlike (· = 4) (.zero 24) .bump r ∧
        Block.ring.AccessesAlike (· = 4) (.zero 24) .bump r' := by
  have hmarks : Precise.Marks (fun lo hi => lo ≤ 4 && 4 ≤ hi) (· = 4) := by
    intro lo hi
    simp [Int64.le_iff_toInt_le]
  obtain ⟨r, r', hr, hr', halike⟩ := dropped_writes_access_alike hmarks (b := .ring) rfl
    Block.ring_windowsEnd Block.ring_biasesSteady
  obtain ⟨out, hout⟩ := Block.ring_ends
  exact ⟨List.cons_ne_nil _ _, r, r', hr, hr', halike .bump _ out (Block.blind_bump _) hout⟩

/-- With the first byte of the ring precise, the store observes the write in front of it. -/
example : (Block.ring.dropElements fun lo hi => lo ≤ 4 && 4 ≤ hi).result.map (·.stmts.length) =
    .ok 9 := rfl

/-! ## Registers at fixed offsets -/

/-- Register writes that nothing observes are dropped from every well-formed block whose windows end
at offsets, flat or nested. The result is well-formed, flat if the block is, and ends as the block
does. -/
theorem dropped_writes_end_alike {b : Block} (o : Precise) (hb : b.check false = .ok ())
    (hwindows : b.WindowsEnd) :
    ∃ r, b.dropWrites o = .ok r ∧ r.check false = .ok () ∧
      (b.check true = .ok () → r.check true = .ok ()) ∧ ∀ env, b.RefinedBy env r := by
  obtain ⟨htyped, -, -⟩ := Block.check_eq_ok_iff.mp hb
  obtain ⟨r, hr, hkeeps, href⟩ := Block.dropWrites_spec o htyped.policy
  exact ⟨r, hr, hkeeps.check hb, hkeeps.check, fun env => href env hwindows⟩

/-- Writes a word, a half of it and the whole word again, from a sum that reads another one; then an
element of an array beside it. Reads the word back across an effect, as an integer and as a
floating-point number, and stores a product that reads it inside. -/
def Block.overlay : Block where
  temps := #[.i32, .i32, .i32, .f32]
  stmts := [.assign 0 (.get 4 .i32),
    .put 0 (.const ⟨.u32, 1⟩),
    .put 2 (.const ⟨.u16, 2⟩),
    .put 0 (.binop (.arith .add .w32) (.tmp 0) (.get 4 .i32)),
    .assign 1 (.get 0 .i32),
    .putIx ⟨4, .i32, 2⟩ (.tmp 1) 1 (.const ⟨.u32, 3⟩),
    .effect ⟨"tick", .const ⟨.u1, 1⟩, [.get 4 .i32], none, .none, .missing, 0, []⟩,
    .assign 2 (.get 0 .i32),
    .assign 3 (.get 0 .f32),
    .put 12 (.tmp 3),
    .store (.const ⟨.u32, 64⟩) (.binop (.arith .mul .w32) (.get 0 .i32) (.tmp 2))]
  next := .const ⟨.u32, 32⟩
  kind := .boring

namespace Block

theorem overlay_windowsEnd : overlay.WindowsEnd := by
  refine forall_indexes.mpr ?_
  unfold Window.Unwrapped
  decide

theorem overlay_ends : ∃ out, overlay.ends (.zero 16) .bump = some out := ⟨_, rfl⟩

end Block

theorem dropped_writes_end_alike_overlay :
    ∃ r out, Block.overlay.dropWrites .none = .ok r ∧ r.check false = .ok () ∧
      Block.overlay.ends (.zero 16) .bump = some out ∧ r.ends (.zero 16) .bump = some out := by
  obtain ⟨r, hr, hcheck, -, href⟩ := dropped_writes_end_alike (b := .overlay) .none rfl
    Block.overlay_windowsEnd
  obtain ⟨out, hout⟩ := Block.overlay_ends
  exact ⟨r, out, hr, hcheck, hout, href .bump _ _ hout⟩

/-- The first write is dropped. The write of the half stays: it is covered by the last one, but the
bytes are not the same. -/
example : (Block.overlay.dropWrites .none).map (·.stmts.take 2) =
    .ok [.assign 0 (.get 4 .i32), .put 2 (.const ⟨.u16, 2⟩)] := rfl

/-- Registers whose value is known from an earlier read or write are not read again, in every
well-formed block whose windows end at offsets, flat or nested. The result is well-formed, flat if
the block is, and where effects that declare no register write leave the registers alone, it ends as
the block does. -/
theorem reused_reads_end_alike {b : Block} (hb : b.check false = .ok ())
    (hwindows : b.WindowsEnd) :
    ∃ r, b.reuseReads = .ok r ∧ r.check false = .ok () ∧
      (b.check true = .ok () → r.check true = .ok ()) ∧
        ∀ env, b.KeepsRegs env → b.RefinedBy env r := by
  obtain ⟨htyped, -, -⟩ := Block.check_eq_ok_iff.mp hb
  obtain ⟨r, hr, hkeeps, href⟩ := Block.reuseReads_spec htyped.policy
  exact ⟨r, hr, hkeeps.check hb, hkeeps.check, fun env hregs => href env hwindows hregs.policy⟩

theorem reused_reads_end_alike_overlay :
    ∃ r out, Block.overlay.reuseReads = .ok r ∧ r.check false = .ok () ∧
      Block.overlay.ends (.zero 16) .bump = some out ∧ r.ends (.zero 16) .bump = some out := by
  obtain ⟨r, hr, hcheck, -, href⟩ := reused_reads_end_alike (b := .overlay) rfl
    Block.overlay_windowsEnd
  obtain ⟨out, hout⟩ := Block.overlay_ends
  exact ⟨r, out, hr, hcheck, hout, href .bump (Block.keepsRegs_bump _) _ _ hout⟩

/-- The word that is read again as an integer is a copy. Its bytes as a floating-point number are
another value. -/
example : Block.overlay.reuseReads.map (fun r => (r.stmts[7]?, r.stmts[8]?)) =
    .ok (some (.assign 2 (.tmp 1)), some (.assign 3 (.get 0 .f32))) := rfl

/-! ## Constants and copies -/

/-- Constants and copies are propagated through every well-formed flat block without a failure. The
result is well-formed and flat, and ends as the block does. -/
theorem propagated_copies_end_alike {b : Block} (hb : b.check true = .ok ()) :
    ∃ r, b.propagate = .ok r ∧ r.check true = .ok () ∧ ∀ env, b.RefinedBy env r := by
  obtain ⟨htyped, -, hflat⟩ := Block.check_eq_ok_iff.mp hb
  obtain ⟨r, hr, hkeeps, href⟩ := Block.propagate_spec htyped (hflat rfl)
  exact ⟨r, hr, hkeeps.check hb, href⟩

/-- A copy of a copy, a choice that is decided, an exit that cannot be taken, and a double that
stays assigned. The successor is computed from constants. -/
def Block.settled : Block where
  temps := #[.i32, .i32, .i32, .i32, .i1, .f64, .i32]
  stmts := [.assign 0 (.get 0 .i32),
    .assign 1 (.tmp 0),
    .assign 2 (.binop (.arith .add .w32) (.tmp 1) (.const ⟨.u32, 0⟩)),
    .assign 3 (.select (.const ⟨.u8, 1⟩) (.const ⟨.u32, 7⟩) (.tmp 2)),
    .assign 4 (.binop (.equal .w32) (.const ⟨.u32, 1⟩) (.const ⟨.u32, 2⟩)),
    .exit (.tmp 4) .boring ⟨.u32, 16⟩,
    .assign 5 (.const ⟨.f64i, 0x3ff0000000000000⟩),
    .put 4 (.tmp 3),
    .store (.tmp 2) (.tmp 5),
    .assign 6 (.binop (.arith .sub .w32) (.const ⟨.u32, 48⟩) (.const ⟨.u32, 16⟩))]
  next := .tmp 6
  kind := .boring

theorem propagated_copies_end_alike_settled :
    ∃ r out, Block.settled.propagate = .ok r ∧ r.check true = .ok () ∧
      Block.settled.ends (.zero 8) .bump = some out ∧ r.ends (.zero 8) .bump = some out := by
  obtain ⟨r, hr, hcheck, href⟩ := propagated_copies_end_alike (b := .settled) rfl
  obtain ⟨out, hout⟩ : ∃ out, Block.settled.ends (.zero 8) .bump = some out := ⟨_, rfl⟩
  exact ⟨r, out, hr, hcheck, hout, href .bump _ _ hout⟩

/-- Only the read, the double and what they are used for are left. -/
example : Block.settled.propagate = .ok { Block.settled with
    stmts := [.assign 0 (.get 0 .i32), .assign 5 (.const ⟨.f64i, 0x3ff0000000000000⟩),
      .put 4 (.tmp 0), .store (.tmp 0) (.tmp 5)]
    next := .const ⟨.u32, 32⟩ } := rfl

/-! ## Chains of sums -/

/-- Sums of constants are collapsed along their chains in every well-formed flat block whose windows
have no more elements than there are indices, whatever wraps on the way. The result is well-formed
and flat, and ends as the block does. -/
theorem collapsed_chains_end_alike {b : Block} (hb : b.check true = .ok ())
    (hsmall : b.WindowsSmall) :
    b.collapse.check true = .ok () ∧ ∀ env, b.RefinedBy env b.collapse := by
  obtain ⟨htyped, -, -⟩ := Block.check_eq_ok_iff.mp hb
  obtain ⟨hkeeps, href⟩ := Block.collapse_spec (.any _) (fun _ _ _ _ => trivial) htyped.policy
  exact ⟨hkeeps.check hb, fun env => href env fun w bias _ hw => hsmall w bias hw⟩

/-- Sums of 32 bits that wrap on the way and one of 64 bits. The first are indices, under
displacements that wrap when the sums are added, and under one of a window whose elements are no
power of two. -/
def Block.strides : Block where
  temps := #[.i32, .i32, .i32, .i32, .i64, .i64, .i64, .i32]
  stmts := [.assign 0 (.get 0 .i32),
    .assign 1 (.binop (.arith .add .w32) (.tmp 0) (.const ⟨.u32, 0xffffffff⟩)),
    .assign 2 (.binop (.arith .sub .w32) (.tmp 1) (.const ⟨.u32, 0x80000000⟩)),
    .assign 3 (.binop (.arith .add .w32) (.tmp 2) (.const ⟨.u32, 5⟩)),
    .assign 4 (.get 8 .i64),
    .assign 5 (.binop (.arith .sub .w64) (.tmp 4) (.const ⟨.u64, 1⟩)),
    .assign 6 (.binop (.arith .add .w64) (.tmp 5) (.const ⟨.u64, 3⟩)),
    .assign 7 (.getIx ⟨16, .i32, 4⟩ (.tmp 1) (-9223372036854775808)),
    .putIx ⟨16, .i32, 4⟩ (.tmp 3) (-9223372036854775807) (.tmp 7),
    .putIx ⟨32, .i32, 3⟩ (.tmp 3) 1 (.tmp 3),
    .put 8 (.tmp 6)]
  next := .const ⟨.u32, 64⟩
  kind := .boring

theorem collapsed_chains_end_alike_strides :
    ∃ out, Block.strides.collapse.check true = .ok () ∧
      Block.strides.ends (.zero 48) .bump = some out ∧
      Block.strides.collapse.ends (.zero 48) .bump = some out := by
  obtain ⟨hcheck, href⟩ := collapsed_chains_end_alike (b := .strides) rfl
    (Block.forall_indexes.mpr (by decide))
  obtain ⟨out, hout⟩ : ∃ out, Block.strides.ends (.zero 48) .bump = some out := ⟨_, rfl⟩
  exact ⟨out, hcheck, hout, href .bump _ _ hout⟩

/-- The longest sum becomes a subtraction, and its displacement wraps. -/
example : (Block.strides.collapse.stmts[3]?, Block.strides.collapse.stmts[8]?) =
    (some (.assign 3 (.binop (.arith .sub .w32) (.tmp 0) (.const ⟨.u32, 0x7ffffffc⟩))),
      some (.putIx ⟨16, .i32, 4⟩ (.tmp 0) 9223372034707292165 (.tmp 7))) := rfl

/-! ## Repeated computations -/

/-- Repeated computations are shared in every well-formed flat block. The result is well-formed and
flat, ends as the block does, and has nothing left to share. -/
theorem shared_computations_end_alike {b : Block} (hb : b.check true = .ok ()) :
    b.share.check true = .ok () ∧ (∀ env, b.RefinedBy env b.share) ∧ b.share.Unshared := by
  obtain ⟨htyped, -, -⟩ := Block.check_eq_ok_iff.mp hb
  obtain ⟨hkeeps, href⟩ := Block.share_spec htyped
  exact ⟨hkeeps.check hb, href, Block.share_unshared htyped⟩

/-- A sum and its square, twice: the second square is the same only once its operands are known to
be. Two doubles with the same bits, and two reads, which are not shared. -/
def Block.echo : Block where
  temps := #[.i32, .i32, .i32, .i32, .i32, .f64, .f64, .i32]
  stmts := [.assign 0 (.get 0 .i32),
    .assign 1 (.binop (.arith .add .w32) (.tmp 0) (.const ⟨.u32, 1⟩)),
    .assign 2 (.binop (.arith .mul .w32) (.tmp 1) (.tmp 1)),
    .assign 3 (.binop (.arith .add .w32) (.tmp 0) (.const ⟨.u32, 1⟩)),
    .assign 4 (.binop (.arith .mul .w32) (.tmp 3) (.tmp 1)),
    .assign 5 (.const ⟨.f64i, 0x3ff0000000000000⟩),
    .assign 6 (.const ⟨.f64i, 0x3ff0000000000000⟩),
    .assign 7 (.get 0 .i32),
    .put 0 (.tmp 4),
    .put 8 (.tmp 6),
    .store (.tmp 7) (.tmp 2)]
  next := .const ⟨.u32, 32⟩
  kind := .boring

theorem shared_computations_end_alike_echo :
    ∃ out, Block.echo.share.check true = .ok () ∧ Block.echo.ends (.zero 16) .bump = some out ∧
      Block.echo.share.ends (.zero 16) .bump = some out ∧ Block.echo.share.Unshared := by
  obtain ⟨hcheck, href, hunshared⟩ := shared_computations_end_alike (b := .echo) rfl
  obtain ⟨out, hout⟩ : ∃ out, Block.echo.ends (.zero 16) .bump = some out := ⟨_, rfl⟩
  exact ⟨out, hcheck, hout, href .bump _ _ hout, hunshared⟩

/-- The second sum, its product and the second double become copies. -/
example : Block.echo.share.stmts.drop 3 = [.assign 3 (.tmp 1), .assign 4 (.tmp 2),
    .assign 5 (.const ⟨.f64i, 0x3ff0000000000000⟩), .assign 6 (.tmp 5), .assign 7 (.get 0 .i32),
    .put 0 (.tmp 4), .put 8 (.tmp 6), .store (.tmp 7) (.tmp 2)] := rfl

/-! ## Dead code -/

/-- Dead code is dropped from every well-formed block, flat or nested. The result is well-formed,
flat if the block is, ends as the block does, and has no dead code left. -/
theorem swept_block_ends_alike {b : Block} (hb : b.check false = .ok ()) :
    ∃ r, b.sweep.result = .ok r ∧ r.check false = .ok () ∧
      (b.check true = .ok () → r.check true = .ok ()) ∧ (∀ env, b.RefinedBy env r) ∧ r.Alive := by
  obtain ⟨htyped, -, -⟩ := Block.check_eq_ok_iff.mp hb
  obtain ⟨r, hr, hkeeps, href⟩ := Block.sweep_spec htyped
  exact ⟨r, hr, hkeeps.check hb, hkeeps.check, href, Block.sweep_alive htyped hr⟩

/-- A value that is read only to compute one that nothing reads, an effect that cannot happen, and
one that happens although nothing reads its result. -/
def Block.idling : Block where
  temps := #[.i32, .i32, .i32, .i32, .i32]
  stmts := [.assign 0 (.get 0 .i32),
    .assign 1 (.load .i32 (.binop (.arith .add .w32) (.tmp 0) (.get 4 .i32))),
    .noop,
    .assign 2 (.get 4 .i32),
    .assign 3 (.binop (.arith .mul .w32) (.tmp 2) (.tmp 1)),
    .effect ⟨"tick", .const ⟨.u1, 0⟩, [.tmp 3], none, .none, .missing, 0, []⟩,
    .effect ⟨"tick", .const ⟨.u1, 1⟩, [.tmp 2], some 4, .none, .missing, 0, []⟩,
    .put 0 (.binop (.arith .add .w32) (.tmp 2) (.const ⟨.u32, 1⟩))]
  next := .const ⟨.u32, 32⟩
  kind := .boring

theorem swept_block_ends_alike_idling :
    ∃ r out, Block.idling.sweep.result = .ok r ∧ r.check false = .ok () ∧
      Block.idling.ends (.zero 8) .bump = some out ∧ r.ends (.zero 8) .bump = some out ∧
      r.Alive := by
  obtain ⟨r, hr, hcheck, -, href, halive⟩ := swept_block_ends_alike (b := .idling) rfl
  obtain ⟨out, hout⟩ : ∃ out, Block.idling.ends (.zero 8) .bump = some out := ⟨_, rfl⟩
  exact ⟨r, out, hr, hcheck, hout, href .bump _ _ hout, halive⟩

/-- What is dropped takes the values along that only it reads. -/
example : Block.idling.sweep.result.map (·.stmts) = .ok [.assign 2 (.get 4 .i32),
    .effect ⟨"tick", .const ⟨.u1, 1⟩, [.tmp 2], some 4, .none, .missing, 0, []⟩,
    .put 0 (.binop (.arith .add .w32) (.tmp 2) (.const ⟨.u32, 1⟩))] := rfl

/-! ## Flat form -/

/-- Every well-formed block that is not nested too deeply is made flat, if the numbers of its
temporaries stay in range. The arguments of an effect are computed whether it is skipped or not. So
the flat block ends as the block does if the effects that the run skips have values for their
arguments, and fails if one of them does not. -/
theorem flattened_block_ends_alike {b : Block} (hb : b.check false = .ok ())
    (hnest : b.NestsWithin Flat.maxDepth) (hroom : b.flatSize ≤ 2 ^ 31) :
    ∃ r, b.flatten = .ok r ∧ ∀ env s,
      (b.Eager s env → ∀ out, b.ends s env = some out → r.ends s env = some out) ∧
      (¬b.Eager s env → r.ends s env = none) := by
  obtain ⟨htyped, -, -⟩ := Block.check_eq_ok_iff.mp hb
  obtain ⟨r, hr, -, -, -, hends⟩ := Block.flatten_eager htyped hnest hroom
  refine ⟨r, hr, fun env s => ⟨fun heager out hout => ?_, fun hnot => ?_⟩⟩
  · exact hends env s out heager hout
  · exact Block.flatten_stuck htyped hnest hroom hr hnot

/-- An effect that is skipped unless a register is set. Its argument is in another one. -/
def Block.guarded : Block where
  temps := #[]
  stmts := [.effect ⟨"tick", .get 0 .i1, [.get 4 .i32], none, .none, .missing, 0, []⟩,
    .put 0 (.binop (.arith .add .w32) (.get 0 .i32) (.const ⟨.u32, 1⟩))]
  next := .const ⟨.u32, 32⟩
  kind := .boring

/-- With eight bytes of registers the two blocks end alike, with four the flat one fails. -/
theorem flattened_block_ends_alike_guarded :
    ∃ r out, Block.guarded.flatten = .ok r ∧ Block.guarded.ends (.zero 8) .bump = some out ∧
      r.ends (.zero 8) .bump = some out ∧ r.ends (.zero 4) .bump = none := by
  obtain ⟨r, hr, hends⟩ := flattened_block_ends_alike (b := .guarded) rfl (by decide) (by decide)
  obtain ⟨out, hout⟩ : ∃ out, Block.guarded.ends (.zero 8) .bump = some out := ⟨_, rfl⟩
  exact ⟨r, out, hr, hout, (hends .bump _).1 (by decide) out hout, (hends .bump _).2 (by decide)⟩

/-- The argument is computed before the guard is looked at. -/
example : Block.guarded.flatten.map (·.stmts.take 3) = .ok [.assign 0 (.get 0 .i1),
    .assign 1 (.get 4 .i32),
    .effect ⟨"tick", .tmp 0, [.tmp 1], none, .none, .missing, 0, []⟩] := rfl

/-- The run from the state ends, and that of the flat block does not. -/
def Block.LostWhenFlat (b : Block) (s : State) (env : Env) : Prop :=
  ∃ r out, b.flatten = .ok r ∧ b.ends s env = some out ∧ r.ends s env = none

/-- All numbers of temporaries are taken, and the one that comes next is negative. -/
theorem Block.crowded_lost : (Block.crowded (2 ^ 31)).LostWhenFlat (.zero 4) .bump := by
  refine ⟨_, ⟨0, .boring, .zero 4⟩, Block.crowded_flatten _, ?_, ?_⟩
  · rw [Block.ends_eq]
    exact Machine.finish_nil_eq_some.mpr ⟨0, rfl, rfl⟩
  · rw [Block.ends_eq, Option.eq_none_iff_forall_ne_some]
    intro out hout
    rcases Machine.finish_cons_eq_some.mp hout with ⟨m, hstep, -⟩ | ⟨k, dst, hleave, -⟩
    · obtain ⟨v, T, -, hT, -⟩ := Machine.step_assign.mp hstep
      exact absurd (tempTy_eq_ok.mp hT).1 (by decide)
    · obtain ⟨guard, g, h, -⟩ := Machine.step_eq_leave.mp hleave
      simp at h

/-- Runs of well-formed blocks are lost: at an effect that is skipped and has an argument without a
value, and where the numbers of temporaries run out. -/
theorem flattened_blocks_lose_runs :
    (Block.guarded.check false = .ok () ∧ Block.guarded.NestsWithin Flat.maxDepth ∧
      Block.guarded.flatSize ≤ 2 ^ 31 ∧ Block.guarded.LostWhenFlat (.zero 4) .bump) ∧
    ((Block.crowded (2 ^ 31)).check false = .ok () ∧
      (Block.crowded (2 ^ 31)).NestsWithin Flat.maxDepth ∧
      (Block.crowded (2 ^ 31)).Eager (.zero 4) .bump ∧
      (Block.crowded (2 ^ 31)).LostWhenFlat (.zero 4) .bump) := by
  exact ⟨⟨rfl, by decide, by decide, _, _, rfl, rfl, rfl⟩, Block.crowded_check _,
    Block.crowded_nestsWithin _ _, Machine.eager_nil, Block.crowded_lost⟩

/-! ## Specialized calls -/

/-- What is offered for a call of the block is accepted by the checker where the call stands and is
not nested too deeply. If it has the type of the call, it has the value of the call in every state
in which the call has one. -/
def Specializer.SoundFor (sp : Specializer) (env : Env) (b : Block) : Prop :=
  ∀ before dst callee ty args after x,
    b.stmts = before ++ .assign dst (.call callee ty args) :: after → sp callee args = some x →
    x.NestsWithin Flat.maxDepth ∧
      ∃ T, WellFormed.checkExpr b.temps (Stmt.defsAfterAll before []) x = .ok T ∧
        (T = ty → ∀ (m : Machine) v, m.temps = b.temps → m.env = env →
          m.Sound (Stmt.defsAfterAll before []) →
          m.eval (.call callee ty args) = .ok v → m.eval x = .ok v)

theorem Specializer.SoundFor.fits {sp : Specializer} {env : Env} {b : Block}
    (h : sp.SoundFor env b) : sp.Fits .any b.temps [] b.stmts := by
  refine Stmt.throughout_of_split fun before s after hsplit => ?_
  rintro dst callee ty args x rfl hx
  obtain ⟨hnest, T, hT, -⟩ := h before dst callee ty args after x hsplit hx
  have hx' := WellFormed.checkExpr_eq_ok.mp hT
  exact ⟨hnest, T, hx', fun h => h ▸ hx'⟩

theorem Specializer.SoundFor.suits {sp : Specializer} {env : Env} {b : Block}
    (h : sp.SoundFor env b) : sp.Suits .any env b.temps [] b.stmts := by
  refine Stmt.throughout_of_split fun before s after hsplit => ?_
  rintro dst callee ty args x rfl hx hty
  obtain ⟨-, T, hT, heval⟩ := h before dst callee ty args after x hsplit hx
  exact heval ((WellFormed.checkExpr_eq_ok.mp hT).unique hty)

/-- Calls of a well-formed flat block are specialized without a failure if the specializer is sound
for them and the numbers of the temporaries that it takes stay in range. The result is well-formed
and flat and ends wherever the block does, alike. A call for which something of another type is
offered stays a call of the same helper. -/
theorem specialized_calls_end_alike {b : Block} {sp : Specializer} {env : Env}
    (hb : b.check true = .ok ()) (hsp : sp.SoundFor env b) (hroom : b.RoomForOffers sp) :
    ∃ r, b.specialize sp = .ok r ∧ r.check true = .ok () ∧ b.RefinedBy env r ∧
      ∀ dst callee ty args x T, .assign dst (.call callee ty args) ∈ b.stmts →
        sp callee args = some x → x.typeIn b.temps = .ok T → T ≠ ty →
        ∃ args', args'.length = args.length ∧ .assign dst (.call callee ty args') ∈ r.stmts := by
  obtain ⟨htyped, -, hflat⟩ := Block.check_eq_ok_iff.mp hb
  obtain ⟨r, hr, hform, hkeeps, href⟩ :=
    Block.specialize_calls htyped (hflat rfl) hsp.fits hroom
  refine ⟨r, hr, hkeeps.check hb, href env hsp.suits, ?_⟩
  intro dst callee ty args x T hcall hx hT hne
  exact Block.call_mem_specialize hform hcall hx hT hne

/-- Two calls of one argument. -/
def Block.calling : Block where
  temps := #[.i32, .i32, .i32]
  stmts := [.assign 0 (.get 0 .i32),
    .assign 1 (.call "next" .i32 [.tmp 0]),
    .assign 2 (.call "mix" .i32 [.tmp 0]),
    .put 0 (.tmp 1),
    .put 4 (.tmp 2)]
  next := .const ⟨.u32, 32⟩
  kind := .boring

/-- Adds one in the place of a call, behind a choice that is already made, and has something of
another type to offer for every other helper. -/
def Specializer.adding : Specializer
  | "next", [a] => some (.select (.const ⟨.u8, 0⟩)
      (.binop (.arith .add .w32) a (.const ⟨.u32, 1⟩)) (.const ⟨.u32, 7⟩))
  | _, _ => some (.const ⟨.u64, 0⟩)

/-- The sum is what the helper answers. -/
theorem Specializer.eval_adding {m : Machine} {a x : Expr} {v : UInt64} (henv : m.env = .bump)
    (hx : adding "next" [a] = some x) (hv : m.eval (.call "next" .i32 [a]) = .ok v) :
    m.eval x = .ok v := by
  obtain rfl := Option.some.inj hx
  obtain ⟨vs, f, r, hvs, hf, hr, rfl⟩ := Machine.eval_call_eq_ok.mp hv
  obtain _ | ⟨hv₀, ⟨⟩⟩ := hvs
  rw [henv] at hf
  obtain rfl := Option.some.inj hf
  obtain rfl := Except.ok.inj hr
  refine Machine.eval_select_eq_ok.mpr
    ⟨0, _, 7, Machine.eval_const _, ?_, Machine.eval_const _, rfl⟩
  exact Machine.eval_binop_eq_ok.mpr ⟨_, 1, _, hv₀, Machine.eval_const _, rfl, rfl⟩

theorem Specializer.adding_soundFor : Specializer.adding.SoundFor .bump .calling := by
  intro before dst callee ty args after x hsplit hx
  rcases before with _ | ⟨s₀, _ | ⟨s₁, _ | ⟨s₂, _ | ⟨s₃, _ | ⟨s₄, before⟩⟩⟩⟩⟩ <;>
    simp [Block.calling] at hsplit
  · obtain ⟨rfl, ⟨rfl, rfl, rfl, rfl⟩, rfl⟩ := hsplit
    refine ⟨?_, .i32, ?_, fun _ m v _ henv _ hv => Specializer.eval_adding henv hx hv⟩
    · obtain rfl := Option.some.inj hx
      decide
    · obtain rfl := Option.some.inj hx
      rfl
  · obtain ⟨rfl, rfl, ⟨rfl, rfl, rfl, rfl⟩, rfl⟩ := hsplit
    obtain rfl := Option.some.inj hx
    exact ⟨by decide, .i64, rfl, fun h => by simp at h⟩

/-- The call that is specialized takes two temporaries, and the other one stays. -/
theorem specialized_calls_end_alike_calling :
    ∃ r out, Block.calling.specialize .adding = .ok r ∧ r.check true = .ok () ∧
      Block.calling.ends (.zero 8) .bump = some out ∧ r.ends (.zero 8) .bump = some out ∧
      ∃ args, .assign 2 (.call "mix" .i32 args) ∈ r.stmts := by
  obtain ⟨r, hr, hcheck, href, hstay⟩ := specialized_calls_end_alike (b := .calling) rfl
    Specializer.adding_soundFor fun _ _ => by decide
  obtain ⟨out, hout⟩ : ∃ out, Block.calling.ends (.zero 8) .bump = some out := ⟨_, rfl⟩
  obtain ⟨args, -, hargs⟩ :=
    hstay 2 "mix" .i32 [.tmp 0] _ .i64 (by simp [Block.calling]) rfl rfl (by decide)
  exact ⟨r, out, hr, hcheck, hout, href _ _ hout, args, hargs⟩

/-- The sum is computed before the choice. -/
example : (Block.calling.specialize .adding).map (·.stmts.take 4) = .ok [.assign 0 (.get 0 .i32),
    .assign 3 (.binop (.arith .add .w32) (.tmp 0) (.const ⟨.u32, 1⟩)),
    .assign 1 (.select (.const ⟨.u8, 0⟩) (.tmp 3) (.const ⟨.u32, 7⟩)),
    .assign 2 (.call "mix" .i32 [.tmp 0])] := rfl

/-- A flat block that declares `n` temporaries and has one call. -/
def Block.crowdedCall (n : Nat) : Block where
  temps := .replicate n .i32
  stmts := [.assign 0 (.call "next" .i32 [.const ⟨.u32, 5⟩])]
  next := .const ⟨.u32, 32⟩
  kind := .boring

theorem Block.crowdedCall_check {n : Nat} (hn : 0 < n) :
    (Block.crowdedCall n).check true = .ok () := by
  refine Block.check_eq_ok_iff.mpr ⟨⟨?_, ⟨⟨.i32, ?_, ?_, by simp⟩, trivial⟩, ?_, rfl⟩, ?_, ?_⟩
  · intro T hT
    rw [(Array.mem_replicate.mp hT).2]
    decide
  · exact ⟨rfl, by decide, by decide, [.i32], ⟨⟨rfl, by decide, by decide⟩, trivial⟩, trivial⟩
  · exact tempTy_eq_ok.mpr ⟨by decide, by simp [Block.crowdedCall, hn]⟩
  · exact .inl (.inl ⟨rfl, by decide, by decide⟩)
  · rintro c ⟨⟩
    rfl
  · intro _
    refine ⟨?_, rfl⟩
    simp [Block.crowdedCall, Stmt.Flat, Expr.children, Expr.isAtom]

/-- The same block with what is offered in the place of the call. -/
def Block.crowdedOffer (n : Nat) : Block :=
  { Block.crowdedCall n with
    stmts := [.assign 0 (.select (.const ⟨.u8, 0⟩)
      (.binop (.arith .add .w32) (.const ⟨.u32, 5⟩) (.const ⟨.u32, 1⟩)) (.const ⟨.u32, 7⟩))] }

theorem Block.crowdedCall_specialize (n : Nat) :
    (Block.crowdedCall n).specialize .adding = (Block.crowdedOffer n).flatten := rfl

/-- The sum inside the offer takes the temporary that comes next. -/
theorem Block.crowdedOffer_flatten (n : Nat) : ∃ r e rest,
    (Block.crowdedOffer n).flatten = .ok r ∧ r.stmts = .assign (.ofNat n) e :: rest := by
  have hbody : ∀ temps, ∃ a e rest temps', Flat.body (crowdedOffer n).next (crowdedOffer n).stmts
      temps = .ok (a, .assign (.ofNat temps.size) e :: rest, temps') :=
    fun _ => ⟨_, _, _, _, rfl⟩
  obtain ⟨a, e, rest, temps', h⟩ := hbody (.replicate n .i32)
  rw [Array.size_replicate] at h
  exact ⟨_, e, rest, Block.flatten_of_body h, rfl⟩

theorem Specializer.adding_soundFor_crowdedCall (n : Nat) :
    Specializer.adding.SoundFor .bump (.crowdedCall n) := by
  intro before dst callee ty args after x hsplit hx
  rcases before with _ | ⟨s₀, before⟩ <;> simp [Block.crowdedCall] at hsplit
  obtain ⟨⟨rfl, rfl, rfl, rfl⟩, rfl⟩ := hsplit
  refine ⟨?_, .i32, ?_, fun _ m v _ henv _ hv => Specializer.eval_adding henv hx hv⟩
  · obtain rfl := Option.some.inj hx
    decide
  · obtain rfl := Option.some.inj hx
    rfl

/-- The offer takes a temporary, and where the numbers have run out the result is refused. -/
theorem specialized_out_of_numbers :
    (Block.crowdedCall (2 ^ 31)).check true = .ok () ∧
      Specializer.adding.SoundFor .bump (.crowdedCall (2 ^ 31)) ∧
      ∃ r, (Block.crowdedCall (2 ^ 31)).specialize .adding = .ok r ∧ r.check true ≠ .ok () := by
  obtain ⟨r, e, rest, hr, hstmts⟩ := Block.crowdedOffer_flatten (2 ^ 31)
  refine ⟨Block.crowdedCall_check (by decide), Specializer.adding_soundFor_crowdedCall _, r,
    (Block.crowdedCall_specialize _).trans hr, ?_⟩
  have hmem : .assign (.ofNat (2 ^ 31)) e ∈ r.stmts := hstmts ▸ List.mem_cons_self
  exact Block.check_ne_ok_of_negative hmem rfl (by decide)

/-! ## Unrolled loops -/

/-- A well-formed flat block with exit targets that fit their tags is unrolled without a failure, if
the numbers of its temporaries stay in range. What is returned is two, four or eight copies of one
length, which make a well-formed block. A run of them is as many runs of the block, one after the
other, or fewer if the copy that makes the last one is left through an exit. -/
theorem unrolled_loop_iterates {b : Block} {addr : UInt64} {thresh : Int64}
    (hb : b.check true = .ok ()) (hexits : b.ExitsFit) (hroom : b.RoomToUnroll addr thresh) :
    ∃ r, (b.unroll addr thresh).result = .ok r ∧ ∀ u f, r = some (u, f) →
      (f = 2 ∨ f = 4 ∨ f = 8) ∧ u.check true = .ok () ∧
        ∃ len, u.stmts.length = f * len ∧ ∀ env, b.Unrolls addr env f len u := by
  obtain ⟨htyped, hnext, hflat⟩ := Block.check_eq_ok_iff.mp hb
  cases hchosen : Unroll.chosen? b addr thresh with
  | none => exact ⟨none, Block.unroll_of_none hchosen, by simp⟩
  | some ln =>
    obtain ⟨l, n⟩ := ln
    obtain ⟨u, len, hu, hutyped, huflat, -, hlen, hruns⟩ :=
      Block.unroll_spec (fun _ => id) (htyped.targets hnext hexits b.calls_any) (hflat rfl) hroom
        hchosen
    refine ⟨some (u, n), hu, ?_⟩
    rintro u f ⟨⟩
    exact ⟨(Block.chosen?_spec hchosen).2, hutyped.check_of_targets huflat, len, hlen, hruns⟩

/-- Counts a register down and comes back to its address, 16, until the register is zero; in flat
form. -/
def Block.flatCountdown : Block where
  temps := #[.i32, .i32, .i1]
  stmts := [.assign 0 (.get 0 .i32),
    .assign 1 (.binop (.arith .sub .w32) (.tmp 0) (.const ⟨.u32, 1⟩)),
    .put 0 (.tmp 1),
    .assign 2 (.binop (.differ .w32) (.tmp 1) (.const ⟨.u32, 0⟩)),
    .exit (.tmp 2) .boring ⟨.u32, 16⟩]
  next := .const ⟨.u32, 32⟩
  kind := .boring

/-- From three, the block comes back twice. -/
theorem Block.flatCountdown_repeats :
    Block.flatCountdown.Repeats 16 .bump 8 ⟨#[3, 0, 0, 0], ∅⟩ := by
  refine ⟨_, rfl, fun _ _ => ⟨_, rfl, fun _ _ => ⟨_, rfl, fun htarget => ?_⟩⟩⟩
  exact absurd htarget (by decide)

theorem unrolled_loop_iterates_countdown :
    ∃ u, (Block.flatCountdown.unroll 16 120).result = .ok (some (u, 8)) ∧ u.check true = .ok () ∧
      ∃ len i out, u.stmts.length = 8 * len ∧ 1 ≤ i ∧ i ≤ 8 ∧
        Block.flatCountdown.Iterates 16 .bump i ⟨#[3, 0, 0, 0], ∅⟩ out ∧
        u.ends ⟨#[3, 0, 0, 0], ∅⟩ .bump = some out ∧
        (i < 8 → u.LeavesWithin ⟨#[3, 0, 0, 0], ∅⟩ .bump ((i - 1) * len) (i * len)) := by
  have hroom : Block.flatCountdown.RoomToUnroll 16 120 := by decide +kernel
  obtain ⟨u, hu⟩ : ∃ u, (Block.flatCountdown.unroll 16 120).result = .ok (some (u, 8)) := ⟨_, rfl⟩
  obtain ⟨r, hr, hspec⟩ := unrolled_loop_iterates (b := .flatCountdown) rfl (by decide) hroom
  obtain ⟨-, hcheck, len, hlen, hruns⟩ := hspec u 8 (Except.ok.inj (hr.symm.trans hu))
  obtain ⟨i, out, hruns'⟩ := hruns .bump _ Block.flatCountdown_repeats
  exact ⟨u, hu, hcheck, len, i, out, hlen, hruns'⟩

/-- From three, the exit that is taken is the last statement of the third copy. -/
example : (Block.flatCountdown.unroll 16 120).result.toOption.join.map (fun u =>
    (u.1.stmts.length, (u.1.run ⟨#[3, 0, 0, 0], ∅⟩ .bump).outcome.toOption)) =
      some (8 * 6, some ⟨32, .boring, some (2 * 6 + 5)⟩) := by decide +kernel

end Straightline
