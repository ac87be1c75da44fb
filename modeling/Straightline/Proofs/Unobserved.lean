import Mathlib
import Straightline.Proofs.Accesses
import Straightline.Proofs.Lockstep

/-!
# States that differ where nothing looks

A dropped register write leaves bytes that differ from those of the original run, until they are
written again. `State.AgreeOff D` says that two states differ at most in the register bytes that `D`
holds of. Reads elsewhere see no difference, a write removes the bytes it covers from `D`, and a
statement that reads none of `D` takes both states along (`step_agreeOff`).

A run and what is left of it, from such states, go `Alongside` each other: they end alike, and with
some bytes in view at each access to memory, they access memory alike.
-/

namespace Straightline

/-! ## States -/

/-- The states differ at most in the register bytes that `D` holds of. -/
structure State.AgreeOff (D : Nat → Prop) (s s' : State) : Prop where
  mem : s'.mem = s.mem
  size : s'.regs.size = s.regs.size
  regs : ∀ j, ¬D j → s'.regs[j]? = s.regs[j]?

namespace State.AgreeOff

variable {D D' : Nat → Prop} {s s' s₁ : State} {off : Int64} {T : Ty} {v : UInt64}

theorem refl (D : Nat → Prop) (s : State) : AgreeOff D s s := ⟨rfl, rfl, fun _ _ => rfl⟩

theorem mono (h : AgreeOff D s s') (hD : ∀ j, D j → D' j) : AgreeOff D' s s' :=
  ⟨h.mem, h.size, fun j hj => h.regs j fun hd => hj (hD j hd)⟩

theorem eq (h : AgreeOff D s s') (hD : ∀ j, ¬D j) : s' = s := by
  obtain ⟨regs, mem⟩ := s
  obtain ⟨regs', mem'⟩ := s'
  have hregs : regs' = regs := Array.ext_getElem? fun j => h.regs j (hD j)
  have hmem : mem' = mem := h.mem
  rw [hregs, hmem]

theorem readReg (h : AgreeOff D s s') (hD : ∀ j, (Region.ofTy off T).Covers j → ¬D j) :
    s'.readReg off T = s.readReg off T :=
  readReg_congr h.size fun j hj => h.regs j (hD j hj)

theorem load (h : AgreeOff D s s') (a : UInt64) (T : Ty) : s'.load a T = s.load a T :=
  load_congr h.mem a T

theorem store (h : AgreeOff D s s') (a : UInt64) (T : Ty) (v : UInt64) :
    AgreeOff D (s.store a T v) (s'.store a T v) := by
  refine ⟨mem_store_congr h.mem a T v, ?_, fun j hj => ?_⟩
  · rw [regs_store, regs_store]
    exact h.size
  · rw [regs_store, regs_store]
    exact h.regs j hj

/-- A write to both states makes them agree where it writes. -/
theorem writeReg (h : AgreeOff D s s') (hw : s.writeReg off T v = .ok s₁) :
    ∃ s₁', s'.writeReg off T v = .ok s₁' ∧
      AgreeOff (fun j => D j ∧ ¬(Region.ofTy off T).Covers j) s₁ s₁' := by
  obtain ⟨i, hi, -⟩ := writeReg_eq_ok.mp hw
  obtain ⟨s₁', hw'⟩ : ∃ s₁', s'.writeReg off T v = .ok s₁' :=
    ⟨_, writeReg_eq_ok.mpr ⟨i, by rw [h.size]; exact hi, rfl⟩⟩
  refine ⟨s₁', hw', ?_, ?_, fun j hj => ?_⟩
  · rw [mem_writeReg hw, mem_writeReg hw']
    exact h.mem
  · rw [size_writeReg hw, size_writeReg hw']
    exact h.size
  · rw [getElem?_writeReg hw, getElem?_writeReg hw']
    split
    · rfl
    · rename_i hcov
      exact h.regs j fun hd => hj ⟨hd, hcov⟩

/-- A write to bytes that may differ can be left out. -/
theorem writeReg_left (h : AgreeOff D s s') (hw : s.writeReg off T v = .ok s₁)
    (hD : ∀ j, (Region.ofTy off T).Covers j → D j) : AgreeOff D s₁ s' := by
  refine ⟨?_, ?_, fun j hj => ?_⟩
  · rw [mem_writeReg hw]
    exact h.mem
  · rw [size_writeReg hw]
    exact h.size
  · rw [getElem?_writeReg_of_not_covers hw fun hcov => hj (hD j hcov)]
    exact h.regs j hj

end State.AgreeOff

/-! ## Machines -/

namespace Machine

variable {D : Nat → Prop} {m m₁ : Machine} {st : State} {e : Expr} {s : Stmt} {v : UInt64}

/-- The node reads no byte that `D` holds of. -/
def Unread (D : Nat → Prop) (m : Machine) : Expr → Prop
  | .get off T => ∀ j, (Region.ofTy off T).Covers j → ¬D j
  | .getIx w ix bias => ∀ i off, m.eval ix = .ok i → w.offset? (index i) bias = some off →
      ∀ j, (Region.ofTy off w.elem).Covers j → ¬D j
  | _ => True

theorem headAgrees_of_unread (h : m.state.AgreeOff D st) (he : m.Unread D e) :
    m.HeadAgrees (m.withState st) e := by
  cases e with
  | get off T =>
    intro v hv
    rw [withState_state, h.readReg he]
    exact hv
  | getIx w ix bias =>
    intro i off v hi hoff hv
    rw [withState_state, h.readReg (he i off hi hoff)]
    exact hv
  | load T a => exact fun x => h.load x T
  | _ => simp [HeadAgrees]

/-- An expression that reads none of the bytes has its value in the other state. -/
theorem eval_agreeOff (h : m.state.AgreeOff D st) (he : ∀ n ∈ e.nodes, m.Unread D n)
    (hv : m.eval e = .ok v) : (m.withState st).eval e = .ok v :=
  eval_congr (fun n hn => headAgrees_of_unread h (he n hn)) (fun _ _ _ hu => hu) hv

/-- The register bytes that a write statement writes on the machine. -/
def WritesByte (m : Machine) : Stmt → Nat → Prop
  | .put off data, j => ∃ T, data.typeIn m.temps = .ok T ∧ (Region.ofTy off T).Covers j
  | .putIx w ix bias _, j => ∃ i off, m.eval ix = .ok i ∧ w.offset? (index i) bias = some off ∧
      (Region.ofTy off w.elem).Covers j
  | _, _ => False

/-- An effect that is blind to registers, or finds the same ones, does the same. -/
theorem step_effect_agreeOff {P : Policy} {defs : List Temp} {x : Effect}
    (h : m.state.AgreeOff D st) (hs : (Stmt.effect x).Ok P m.temps defs)
    (hreads : ∀ n ∈ (Stmt.effect x).nodes, m.Unread D n)
    (hx : (∀ j, ¬D j) ∨ x.touchesState = false ∧ P.Blind m.env)
    (hstep : m.step (.effect x) = .next m₁) :
    ∃ st₁, (m.withState st).step (.effect x) = .next (m₁.withState st₁) ∧
      m₁.state.AgreeOff D st₁ := by
  rcases hx with hD | ⟨htouch, hblind⟩
  -- no byte may differ, so the two states are one
  · rw [h.eq hD]
    exact ⟨m₁.state, hstep, .refl D _⟩
  · have heval : ∀ e ∈ x.operands, ∀ v, m.eval e = .ok v → (m.withState st).eval e = .ok v :=
      fun e he v hv => eval_agreeOff h
        (fun n hn => hreads n (List.mem_flatMap.mpr ⟨e, he, hn⟩)) hv
    obtain ⟨addr, g, haddr, hg, hrest⟩ := step_effect.mp hstep
    have haddr' : (m.withState st).EffectAddr x addr := by
      unfold EffectAddr at haddr ⊢
      split at haddr
      · rename_i ht
        rw [if_pos ht]
        exact heval _ (by simp [Effect.operands, ht]) _ haddr
      · rename_i ht
        rw [if_neg ht]
        exact haddr
    have hg' := heval x.guard (by simp [Effect.operands]) g hg
    rcases hrest with ⟨hz, rfl⟩ | ⟨hz, vs, f, r, s₁, hvs, hf, hr, hafter⟩
    · exact ⟨st, step_effect.mpr ⟨addr, g, haddr', hg', .inl ⟨hz, rfl⟩⟩, h⟩
    · have hvs' : (m.withState st).evalAll x.args = .ok vs :=
        evalAll_eq_ok.mpr (values_similar (List.forall₂_same.mpr fun _ _ => rfl)
          (fun a ha a' heq => heq ▸ heval a (by simp [Effect.operands, ha]))
          (evalAll_eq_ok.mp hvs))
      -- a blind helper does the same with any register file of this size
      obtain ⟨hregs, hany⟩ := hblind x hs.policy htouch f hf _ _ _ _ _ hr
      have hr' : f st vs addr = .ok (r, ⟨st.regs, s₁.mem⟩) := by
        have hst : st = ⟨st.regs, m.state.mem⟩ := by rw [← h.mem]
        rw [hst]
        exact hany st.regs h.size
      have hagree : s₁.AgreeOff D ⟨st.regs, s₁.mem⟩ :=
        ⟨rfl, by rw [hregs]; exact h.size, fun j hj => by rw [hregs]; exact h.regs j hj⟩
      refine ⟨⟨st.regs, s₁.mem⟩, step_effect.mpr ⟨addr, g, haddr', hg', .inr ⟨hz, vs, f, r, _, hvs',
        hf, hr', hafter.withState st ⟨st.regs, s₁.mem⟩⟩⟩, ?_⟩
      rw [hafter.state]
      exact hagree

/-- A statement that reads none of the bytes takes both states along, and the bytes it writes agree
then. -/
theorem step_agreeOff {P : Policy} {defs : List Temp} (h : m.state.AgreeOff D st)
    (hs : s.Ok P m.temps defs) (hreads : ∀ n ∈ s.nodes, m.Unread D n)
    (heffect : ∀ x, s = .effect x → (∀ j, ¬D j) ∨ x.touchesState = false ∧ P.Blind m.env)
    (hstep : m.step s = .next m₁) :
    ∃ st₁, (m.withState st).step s = .next (m₁.withState st₁) ∧
      m₁.state.AgreeOff (fun j => D j ∧ ¬m.WritesByte s j) st₁ := by
  have heval : ∀ e ∈ s.operands, ∀ v, m.eval e = .ok v → (m.withState st).eval e = .ok v :=
    fun e he v hv => eval_agreeOff h (fun n hn => hreads n (List.mem_flatMap.mpr ⟨e, he, hn⟩)) hv
  cases s with
  | missing => exact hs.elim
  | noop | mark | fence =>
    rw [← Step.next.inj hstep]
    exact ⟨st, rfl, h.mono fun j hj => ⟨hj, id⟩⟩
  | assign dst src =>
    obtain ⟨v, T, hv, hT, rfl⟩ := step_assign.mp hstep
    exact ⟨st, step_assign.mpr ⟨v, T, heval src (by simp [Stmt.operands]) v hv, hT, rfl⟩,
      h.mono fun j hj => ⟨hj, id⟩⟩
  | put off data =>
    obtain ⟨T, v, s₁, hT, hv, hw, rfl⟩ := step_put.mp hstep
    -- the bytes that are written agree from here on, so they leave the set
    obtain ⟨st₁, hw', hagree⟩ := h.writeReg hw
    refine ⟨st₁, step_put.mpr ⟨T, v, st₁, hT, heval data (by simp [Stmt.operands]) v hv, hw', rfl⟩,
      hagree.mono fun j hj => ⟨hj.1, ?_⟩⟩
    intro hwrites
    obtain ⟨U, hU, hcov⟩ := hwrites
    rw [hT, Except.ok.injEq] at hU
    exact hj.2 (hU ▸ hcov)
  | putIx w ix bias data =>
    obtain ⟨i, v, off, s₁, hi, hv, hoff, hw, rfl⟩ := step_putIx.mp hstep
    obtain ⟨st₁, hw', hagree⟩ := h.writeReg hw
    refine ⟨st₁, step_putIx.mpr ⟨i, v, off, st₁, heval ix (by simp [Stmt.operands]) i hi,
      heval data (by simp [Stmt.operands]) v hv, hoff, hw', rfl⟩,
      hagree.mono fun j hj => ⟨hj.1, ?_⟩⟩
    intro hwrites
    obtain ⟨i', off', hi', hoff', hcov⟩ := hwrites
    rw [hi, Except.ok.injEq] at hi'
    rw [← hi', hoff, Option.some.injEq] at hoff'
    exact hj.2 (hoff' ▸ hcov)
  | store addr data =>
    obtain ⟨a, T, v, ha, hT, hv, rfl⟩ := step_store.mp hstep
    exact ⟨st.store a T v, step_store.mpr ⟨a, T, v, heval addr (by simp [Stmt.operands]) a ha, hT,
      heval data (by simp [Stmt.operands]) v hv, rfl⟩, (h.store a T v).mono fun j hj => ⟨hj, id⟩⟩
  | effect x =>
    obtain ⟨st₁, hstep', hagree⟩ := step_effect_agreeOff h hs hreads (heffect x rfl) hstep
    exact ⟨st₁, hstep', hagree.mono fun j hj => ⟨hj, id⟩⟩
  | exit guard kind dst =>
    obtain ⟨hg, rfl⟩ := step_exit.mp hstep
    exact ⟨st, step_exit.mpr ⟨heval guard (by simp [Stmt.operands]) 0 hg, rfl⟩,
      h.mono fun j hj => ⟨hj, id⟩⟩

end Machine

/-! ## Leaving statements out -/

/-- What is left when statements that define nothing are dropped. -/
inductive Thinned : List Stmt → List Stmt → Prop where
  | nil : Thinned [] []
  | keep {s : Stmt} {ss kept : List Stmt} : Thinned ss kept → Thinned (s :: ss) (s :: kept)
  | drop {s : Stmt} {ss kept : List Stmt} :
    Thinned ss kept → s.def? = none → Thinned (s :: ss) kept

namespace Thinned

variable {P : Policy} {temps : Array Ty} {defs : List Temp} {ss kept : List Stmt} {b : Block}

theorem subset (h : Thinned ss kept) : kept ⊆ ss := by
  induction h with
  | nil => exact List.Subset.refl _
  | keep _ ih => exact List.cons_subset_cons _ ih
  | drop _ _ ih => exact fun s hs => List.mem_cons_of_mem _ (ih hs)

theorem allOk (h : Thinned ss kept) (hok : Stmt.AllOk P temps defs ss) :
    Stmt.AllOk P temps defs kept ∧ Stmt.defsAfterAll kept defs = Stmt.defsAfterAll ss defs := by
  induction h generalizing defs with
  | nil => exact ⟨trivial, rfl⟩
  | keep _ ih =>
    obtain ⟨hkept, hdefs⟩ := ih hok.2
    exact ⟨⟨hok.1, hkept⟩, hdefs⟩
  | @drop s ss kept _ hdef ih =>
    have hsame : s.defsAfter defs = defs := by rw [Stmt.defsAfter, hdef]; rfl
    have hrest := ih hok.2
    rw [hsame] at hrest
    rw [Stmt.defsAfterAll, hsame]
    exact hrest

theorem keeps (h : Thinned b.stmts kept) (hb : b.Typed P) : b.Keeps P { b with stmts := kept } := by
  obtain ⟨hok, hdefs⟩ := h.allOk hb.stmts
  refine ⟨⟨hb.temps, hok, ?_, hb.kind⟩, fun hflat => ?_, Iff.rfl⟩
  · have hnext := hb.next
    unfold Block.NextOk at hnext ⊢
    rw [← hdefs] at hnext
    exact hnext
  · exact ⟨fun s hs => hflat.1 s (h.subset hs), hflat.2⟩

end Thinned

/-! ## Runs side by side -/

/-- The statement does nothing but write registers, if anything. -/
def Stmt.OnlyWritesRegs : Stmt → Prop
  | .noop | .put _ _ | .putIx _ _ _ _ => True
  | _ => False

namespace Stmt.OnlyWritesRegs

variable {s : Stmt}

theorem def?_eq_none (hs : s.OnlyWritesRegs) : s.def? = none := by
  cases s with
  | noop | put | putIx => rfl
  | _ => exact hs.elim

theorem isAtom_of_mem_nodes (hs : s.OnlyWritesRegs) (hflat : s.Flat) {e : Expr}
    (he : e ∈ s.nodes) : e.isAtom = true := by
  have hops : ∀ a ∈ s.operands, a.isAtom = true := by
    cases s with
    | noop | put | putIx => exact hflat
    | _ => exact hs.elim
  obtain ⟨a, ha, hea⟩ := List.mem_flatMap.mp he
  rw [Expr.nodes_eq, Expr.children_of_isAtom (hops a ha), List.flatMap_nil,
    List.mem_singleton] at hea
  exact hea ▸ hops a ha

/-- A flat register write has no access to memory. -/
theorem not_accessesMem (hs : s.OnlyWritesRegs) (hflat : s.Flat) : ¬s.AccessesMem := by
  rintro (⟨T, a, hload⟩ | hacts)
  · have hatom := hs.isAtom_of_mem_nodes hflat hload
    simp [Expr.isAtom] at hatom
  · cases s with
    | noop | put | putIx => exact hacts
    | _ => exact hs

end Stmt.OnlyWritesRegs

namespace Machine

variable {m m₁ : Machine} {s : Stmt}

/-- A register write changes nothing but the state. -/
theorem withState_of_onlyWritesRegs (hs : s.OnlyWritesRegs) (hstep : m.step s = .next m₁)
    (st : State) : m₁.withState st = m.withState st := by
  cases s with
  | noop => rw [← Step.next.inj hstep]
  | put off data =>
    obtain ⟨T, v, s₁, -, -, -, rfl⟩ := step_put.mp hstep
    rfl
  | putIx w ix bias data =>
    obtain ⟨i, v, off, s₁, -, -, -, -, rfl⟩ := step_putIx.mp hstep
    rfl
  | _ => exact hs.elim

end Machine

/-- The same access to the same memory, with the same values in the register bytes of `V`. -/
structure SameAccess (V : Nat → Prop) (x y : MemAccess × State) : Prop where
  access : y.1 = x.1
  mem : y.2.mem = x.2.mem
  regs : ∀ j, V j → y.2.regs[j]? = x.2.regs[j]?

/-- The oracle calls precise every region with a byte of `V`. -/
def Precise.Guards (o : Precise) (V : Nat → Prop) : Prop :=
  ∀ (r : Region) (j : Nat), V j → r.Covers j → o.holds r = true

/-- What is left of statements goes along with them, from a state of its own. A statement is kept, if
it does the same from both states, or left out, if it writes only registers. At each access to
memory the states agree in the bytes of `V`, and where the run ends they are equal. -/
inductive Alongside (V : Nat → Prop) : List Stmt → Machine → List Stmt → State → Prop where
  | done (m : Machine) : Alongside V [] m [] m.state
  | leave {s : Stmt} {ss kept : List Stmt} {m : Machine} {k : JumpKind} {dst : Const} :
    m.step s = .leave k dst → Alongside V (s :: ss) m (s :: kept) m.state
  | keep {s : Stmt} {ss kept : List Stmt} {m m₁ : Machine} {st st₁ : State} :
    m.step s = .next m₁ → (m.withState st).step s = .next (m₁.withState st₁) →
    (s.AccessesMem → m.state.AgreeOff (fun j => ¬V j) st) → Alongside V ss m₁ kept st₁ →
    Alongside V (s :: ss) m (s :: kept) st
  | drop {s : Stmt} {ss kept : List Stmt} {m m₁ : Machine} {st : State} :
    s.OnlyWritesRegs → m.step s = .next m₁ → Alongside V ss m₁ kept st →
    Alongside V (s :: ss) m kept st

namespace Alongside

variable {V : Nat → Prop} {ss kept : List Stmt} {m : Machine} {st : State} {next : Expr}

/-- What is left ends as the original does. -/
theorem finish {kind : JumpKind} {out : Outcome} (h : Alongside V ss m kept st)
    (hout : Machine.finish next kind ss m = some out) :
    Machine.finish next kind kept (m.withState st) = some out := by
  induction h with
  | done m => exact hout
  | leave hleave =>
    obtain ⟨m₁, hstep, -⟩ | hend := Machine.finish_cons_eq_some.mp hout
    · rw [hleave] at hstep
      cases hstep
    · exact Machine.finish_cons_eq_some.mpr (.inr hend)
  | keep hstep hstep' _ _ ih =>
    obtain ⟨m₂, hstep₂, hrest⟩ | ⟨k, dst, hleave, -⟩ := Machine.finish_cons_eq_some.mp hout
    · rw [hstep, Machine.Step.next.injEq] at hstep₂
      exact Machine.finish_cons_eq_some.mpr (.inl ⟨_, hstep', ih (hstep₂ ▸ hrest)⟩)
    · rw [hstep] at hleave
      cases hleave
  | @drop s ss kept m m₁ st hs hstep _ ih =>
    obtain ⟨m₂, hstep₂, hrest⟩ | ⟨k, dst, hleave, -⟩ := Machine.finish_cons_eq_some.mp hout
    · rw [hstep, Machine.Step.next.injEq] at hstep₂
      rw [← Machine.withState_of_onlyWritesRegs hs hstep st]
      exact ih (hstep₂ ▸ hrest)
    · rw [hstep] at hleave
      cases hleave

/-- What is left of a block ends as the block does. -/
theorem ends {b : Block} {s : State} {env : Env} {out : Outcome}
    (h : Alongside V b.stmts (.start b.temps env s) kept s) (hout : b.ends s env = some out) :
    Block.ends { b with stmts := kept } s env = some out := by
  rw [Block.ends_eq] at hout ⊢
  exact h.finish hout

theorem sameAccess_refl (x : MemAccess × State) : SameAccess V x x := ⟨rfl, rfl, fun _ _ => rfl⟩

/-- What is left of flat statements makes their accesses to memory. -/
theorem trace (h : Alongside V ss m kept st) (hflat : ∀ s ∈ ss, s.Flat) (next : Expr) :
    List.Forall₂ (SameAccess V) (Machine.trace next ss m)
      (Machine.trace next kept (m.withState st)) := by
  induction h with
  | done m => exact List.forall₂_same.mpr fun x _ => sameAccess_refl x
  | @leave s ss kept m k dst hleave =>
    have hsame : Machine.trace next (s :: ss) m = Machine.trace next (s :: kept) m := by
      simp only [Machine.trace, hleave]
    rw [hsame]
    exact List.forall₂_same.mpr fun x _ => sameAccess_refl x
  | @keep s ss kept m m₁ st st₁ hstep hstep' hview _ ih =>
    rw [List.forall_mem_cons] at hflat
    simp only [Machine.trace, hstep, hstep', Machine.accesses_withState hflat.1]
    -- the operands are atoms, so both runs access the same addresses
    refine List.rel_append ?_ (ih hflat.2)
    rw [List.forall₂_map_left_iff, List.forall₂_map_right_iff, List.forall₂_same]
    intro x hx
    have hagree := hview (Machine.accessesMem_of_mem hx)
    exact ⟨rfl, hagree.mem, fun j hj => hagree.regs j (not_not.mpr hj)⟩
  | @drop s ss kept m m₁ st hs hstep _ ih =>
    rw [List.forall_mem_cons] at hflat
    -- nothing is missing from the trace, as the dropped statement has no access
    have hnone : m.accesses s = [] := List.eq_nil_iff_forall_not_mem.mpr fun x hx =>
      hs.not_accessesMem hflat.1 (Machine.accessesMem_of_mem hx)
    rw [← Machine.withState_of_onlyWritesRegs hs hstep st]
    simp only [Machine.trace, hstep, hnone]
    exact ih hflat.2

end Alongside
end Straightline
