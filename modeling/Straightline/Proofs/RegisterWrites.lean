import Mathlib
import Straightline.Pass.RegisterWrites
import Straightline.Proofs.Unobserved

/-!
# Dropping register writes is sound

Going backward, the pass keeps a list of pending slots, which will be written again before anything
reads them. `Kept` describes that walk. Along a run, the states of the two blocks differ in pending
slots only, and nothing is pending where the state can be seen: at exits, effects, fences and at the
end. Nothing that the oracle calls precise is pending at an access to memory.
-/

namespace Straightline
namespace RegisterWrites

variable {P : Policy} {temps : Array Ty} {defs : List Temp} {o : Precise} {p p' : Pending} {s : Stmt}
  {ss kept : List Stmt}

/-! ## The walk -/

/-- The node reads nothing of the region, and no memory if the region is precise. -/
def Misses (o : Precise) (r : Region) : Expr → Prop
  | .get off ty => r.overlaps (.ofTy off ty) = false
  | .getIx w _ _ => r.overlaps w.bounds = false
  | .load _ _ => o.holds r = false
  | _ => True

/-- The statement shows the whole state. -/
def Shows : Stmt → Prop
  | .exit _ _ _ | .effect _ | .fence => True
  | _ => False

/-- The statement writes the slot `r`. -/
def Fills (temps : Array Ty) (s : Stmt) (r : Region) : Prop :=
  ∃ off data T, s = .put off data ∧ data.typeIn temps = .ok T ∧ r = .ofTy off T

/-- The statement does nothing, or writes a slot that is pending. -/
def Redundant (temps : Array Ty) (p : Pending) (s : Stmt) : Prop :=
  s = .noop ∨ ∃ r ∈ p, Fills temps s r

theorem Redundant.onlyWritesRegs (h : Redundant temps p s) : s.OnlyWritesRegs := by
  rcases h with rfl | ⟨r, -, off, data, T, rfl, -⟩ <;> trivial

/-- The slot can be pending in front of the statement if `p` is pending behind it: the statement
fills the slot, or leaves it pending. -/
def StaysPending (o : Precise) (temps : Array Ty) (p : Pending) (s : Stmt) (r : Region) : Prop :=
  Fills temps s r ∨ r ∈ p ∧ ¬Shows s ∧ (s.ActsOnMem → o.holds r = false)

/-- What the walk keeps of statements, and the slots pending in front of them. -/
inductive Kept (o : Precise) (temps : Array Ty) : List Stmt → Pending → List Stmt → Prop where
  | nil : Kept o temps [] [] []
  | keep {s : Stmt} {ss kept : List Stmt} {p p' : Pending} :
    Kept o temps ss p kept →
    (∀ r ∈ p', StaysPending o temps p s r ∧ ∀ n ∈ s.nodes, Misses o r n) →
    Kept o temps (s :: ss) p' (s :: kept)
  | drop {s : Stmt} {ss kept : List Stmt} {p : Pending} :
    Kept o temps ss p kept → Redundant temps p s → Kept o temps (s :: ss) p kept

theorem foldlM_node (o : Precise) {es : List Expr} (hes : ∀ e ∈ es, e ≠ .missing) (p : Pending) :
    ∃ p', es.foldlM (Pending.node o) p = .ok p' ∧
      ∀ r ∈ p', r ∈ p ∧ ∀ n ∈ es, Misses o r n := by
  induction es generalizing p with
  | nil => exact ⟨p, rfl, fun r hr => ⟨hr, by simp⟩⟩
  | cons e es ih =>
    rw [List.forall_mem_cons] at hes
    have hnode : ∃ q, Pending.node o p e = .ok q ∧ ∀ r ∈ q, r ∈ p ∧ Misses o r e := by
      cases e with
      | missing => exact absurd rfl hes.1
      | get off ty =>
        refine ⟨_, rfl, fun r hr => ?_⟩
        obtain ⟨hmem, hmiss⟩ := List.mem_filter.mp hr
        exact ⟨hmem, by simpa [Misses] using hmiss⟩
      | getIx w ix bias =>
        refine ⟨_, rfl, fun r hr => ?_⟩
        obtain ⟨hmem, hmiss⟩ := List.mem_filter.mp hr
        exact ⟨hmem, by simpa [Misses] using hmiss⟩
      | load ty a =>
        refine ⟨_, rfl, fun r hr => ?_⟩
        obtain ⟨hmem, hmiss⟩ := List.mem_filter.mp hr
        exact ⟨hmem, by simpa [Misses] using hmiss⟩
      | _ => exact ⟨p, rfl, fun r hr => ⟨hr, trivial⟩⟩
    obtain ⟨q, hq, hqr⟩ := hnode
    obtain ⟨p', hp', hpr⟩ := ih hes.2 q
    refine ⟨p', ?_, fun r hr => ?_⟩
    · rw [List.foldlM_cons, bind_eq_ok]
      exact ⟨q, hq, hp'⟩
    · obtain ⟨hmem, hmiss⟩ := hpr r hr
      obtain ⟨hmem', hmiss'⟩ := hqr r hmem
      exact ⟨hmem', List.forall_mem_cons.mpr ⟨hmiss', hmiss⟩⟩

theorem operands_spec (o : Precise) (p : Pending) (hs : s.Ok P temps defs) :
    ∃ p', Pending.operands o p s = .ok p' ∧ ∀ r ∈ p', r ∈ p ∧ ∀ n ∈ s.nodes, Misses o r n := by
  obtain ⟨p', hp', hspec⟩ := foldlM_node o hs.nodes_ne_missing p
  refine ⟨p', ?_, hspec⟩
  simp only [Pending.operands, bind_eq_ok]
  exact ⟨(), Stmt.demand_eq_ok hs.ne_missing, hp'⟩

/-- One statement of the walk. -/
theorem stmt_spec (hs : s.Ok P temps defs) (hss : Kept o temps ss p kept) :
    ∃ p' s', stmt o temps p s = .ok (p', s') ∧ Kept o temps (s :: ss) p' (s'.toList ++ kept) := by
  have hkeep (q : Pending) (hq : ∀ r ∈ q, StaysPending o temps p s r) :
      ∃ p', Pending.operands o q s = .ok p' ∧ Kept o temps (s :: ss) p' (s :: kept) := by
    obtain ⟨p', hp', hspec⟩ := operands_spec o q hs
    exact ⟨p', hp', .keep hss fun r hr => ⟨hq r (hspec r hr).1, (hspec r hr).2⟩⟩
  cases s with
  | missing => exact hs.elim
  | noop => exact ⟨p, none, rfl, .drop hss (.inl rfl)⟩
  | put off data =>
    obtain ⟨-, T, hT, -⟩ := id hs
    by_cases hmem : Region.ofTy off T ∈ p
    -- the slot is overwritten before anything observes it
    · refine ⟨p, none, ?_, .drop hss (.inr ⟨_, hmem, off, data, T, rfl, hT.typeIn, rfl⟩)⟩
      simp [stmt, hT.typeIn, bind, Except.bind, hmem]
    · obtain ⟨p', hp', hkept⟩ := hkeep (.ofTy off T :: p) fun r hr => by
        rcases List.mem_cons.mp hr with rfl | hr
        · exact .inl ⟨off, data, T, rfl, hT.typeIn, rfl⟩
        · exact .inr ⟨hr, id, False.elim⟩
      refine ⟨p', some (.put off data), ?_, hkept⟩
      simp [stmt, hT.typeIn, bind, Except.bind, hmem, hp']
  | exit guard kind dst =>
    obtain ⟨p', hp', hkept⟩ := hkeep [] (by simp)
    exact ⟨p', some _, by simp [stmt, hp', bind, Except.bind], hkept⟩
  | effect e =>
    obtain ⟨p', hp', hkept⟩ := hkeep [] (by simp)
    exact ⟨p', some _, by simp [stmt, hp', bind, Except.bind], hkept⟩
  | fence =>
    obtain ⟨p', hp', hkept⟩ := hkeep [] (by simp)
    exact ⟨p', some _, by simp [stmt, hp', bind, Except.bind], hkept⟩
  | store addr data =>
    obtain ⟨p', hp', hkept⟩ := hkeep (p.observePrecise o) fun r hr => by
      obtain ⟨hmem, hprecise⟩ := List.mem_filter.mp hr
      exact .inr ⟨hmem, id, fun _ => by simpa using hprecise⟩
    exact ⟨p', some _, by simp [stmt, hp', bind, Except.bind], hkept⟩
  | _ =>
    obtain ⟨p', hp', hkept⟩ := hkeep p fun r hr => .inr ⟨hr, id, False.elim⟩
    exact ⟨p', some _, by simp [stmt, hp', bind, Except.bind], hkept⟩

theorem stmts_spec (o : Precise) (hss : Stmt.AllOk P temps defs ss) :
    ∃ p kept, stmts o temps ss = .ok (p, kept) ∧ Kept o temps ss p kept := by
  induction ss generalizing defs with
  | nil => exact ⟨[], [], rfl, .nil⟩
  | cons s ss ih =>
    obtain ⟨p, kept, hstmts, hkept⟩ := ih hss.2
    obtain ⟨p', s', hstmt, hkept'⟩ := stmt_spec hss.1 hkept
    refine ⟨p', _, ?_, hkept'⟩
    simp only [stmts, bind_eq_ok]
    exact ⟨(p, kept), hstmts, (p', s'), hstmt, rfl⟩

theorem Kept.thinned (h : Kept o temps ss p kept) : Thinned ss kept := by
  induction h with
  | nil => exact .nil
  | keep _ _ ih => exact .keep ih
  | drop _ hred ih => exact .drop ih hred.onlyWritesRegs.def?_eq_none

/-! ## Runs -/

/-- The bytes of the pending slots. -/
def Pending.Byte (p : Pending) (j : Nat) : Prop := ∃ r ∈ p, r.Covers j

/-- A node that misses all pending slots reads none of their bytes. -/
theorem unread_of_misses {m : Machine} {e : Expr} {T : Ty} (hun : P.Unwrapped)
    (he : e.HasTy P m.temps defs T) (hmiss : ∀ r ∈ p, Misses o r e) : m.Unread p.Byte e := by
  cases e with
  | get off ty =>
    intro j hj hbyte
    obtain ⟨r, hr, hcov⟩ := hbyte
    have hover := Region.overlaps_of_covers hcov hj
    rw [show r.overlaps _ = false from hmiss r hr] at hover
    exact Bool.noConfusion hover
  | getIx w ix bias =>
    intro i off _ hoff j hj hbyte
    obtain ⟨r, hr, hcov⟩ := hbyte
    obtain ⟨-, hw, hwin, -⟩ := he
    have hbounds := Window.covers_bounds hw (hun w bias hwin) hoff hj
    have hover := Region.overlaps_of_covers hcov hbounds
    rw [show r.overlaps _ = false from hmiss r hr] at hover
    exact Bool.noConfusion hover
  | _ => trivial

/-- A write to a pending slot changes pending bytes only. -/
theorem agreeOff_of_redundant {m m₁ : Machine} {st : State} (hred : Redundant m.temps p s)
    (hagree : m.state.AgreeOff p.Byte st) (hstep : m.step s = .next m₁) :
    m₁.state.AgreeOff p.Byte st := by
  rcases hred with rfl | ⟨r, hr, off, data, T, rfl, hT, rfl⟩
  · rw [← Machine.Step.next.inj hstep]
    exact hagree
  · obtain ⟨U, v, s₁, hU, -, hw, rfl⟩ := Machine.step_put.mp hstep
    rw [hT, Except.ok.injEq] at hU
    subst hU
    exact hagree.writeReg_left hw fun j hj => ⟨_, hr, hj⟩

/-- Nothing is pending in front of a statement that shows the state. -/
theorem StaysPending.not_shows {r : Region} (h : StaysPending o temps p s r) : ¬Shows s := by
  rcases h with ⟨off, data, T, rfl, -⟩ | ⟨-, hnot, -⟩
  · exact id
  · exact hnot

/-- A slot that is pending in front of an access to memory is not precise. -/
theorem holds_eq_false_of_accessesMem {r : Region} (h : StaysPending o temps p s r)
    (hmiss : ∀ n ∈ s.nodes, Misses o r n) (hs : s.AccessesMem) : o.holds r = false := by
  rcases hs with ⟨T, a, hload⟩ | hacts
  · exact hmiss _ hload
  · rcases h with ⟨off, data, T, rfl, -⟩ | ⟨-, -, hprecise⟩
    · exact hacts.elim
    · exact hprecise hacts

/-- What is kept goes along with the original, from a state that differs in pending slots. -/
theorem Kept.alongside {V : Nat → Prop} {m : Machine} {st : State} {next : Expr} {kind : JumpKind}
    {out : Outcome} (h : Kept o m.temps ss p kept) (ho : o.Guards V) (hun : P.Unwrapped)
    (hss : Stmt.AllOk P m.temps defs ss) (hagree : m.state.AgreeOff p.Byte st)
    (hout : Machine.finish next kind ss m = some out) : Alongside V ss m kept st := by
  generalize htemps : m.temps = temps at h hss
  induction h generalizing m defs st with
  | nil =>
    rw [hagree.eq fun j hj => by obtain ⟨r, hr, -⟩ := hj; simp at hr]
    exact .done m
  | @keep s ss kept p p' hkept hp' ih =>
    subst htemps
    have hreads : ∀ n ∈ s.nodes, m.Unread p'.Byte n := by
      intro n hn
      obtain ⟨T, hT⟩ := hss.1.node hn
      exact unread_of_misses hun hT fun r hr => (hp' r hr).2 n hn
    have hshows : Shows s → ∀ j, ¬Pending.Byte p' j := fun hs j ⟨r, hr, _⟩ =>
      (hp' r hr).1.not_shows hs
    -- a pending slot with a byte of `V` is precise, and then no access to memory leaves it pending
    have hview : s.AccessesMem → m.state.AgreeOff (fun j => ¬V j) st := by
      refine fun hs => hagree.mono fun j ⟨r, hr, hcov⟩ hj => ?_
      have hprecise := holds_eq_false_of_accessesMem (hp' r hr).1 (hp' r hr).2 hs
      rw [ho r j hj hcov] at hprecise
      exact Bool.noConfusion hprecise
    rcases Machine.finish_cons_eq_some.mp hout with ⟨m₁, hstep, hrest⟩ | ⟨k, dst, hleave, -⟩
    · obtain ⟨st₁, hstep', hagree'⟩ := Machine.step_agreeOff hagree hss.1 hreads
        (fun x hx => .inl (hshows (hx ▸ trivial))) hstep
      refine .keep hstep hstep' hview (ih ?_ hrest (Machine.step_temps hstep) hss.2)
      -- a slot that is pending only in front of the statement is one that it fills
      refine hagree'.mono fun j hj => ?_
      obtain ⟨⟨r, hr, hcov⟩, hwrites⟩ := hj
      rcases (hp' r hr).1 with ⟨off, data, T, rfl, hT, rfl⟩ | ⟨hmem, -⟩
      · exact absurd ⟨T, hT, hcov⟩ hwrites
      · exact ⟨r, hmem, hcov⟩
    · obtain ⟨guard, g, rfl, -⟩ := Machine.step_eq_leave.mp hleave
      rw [hagree.eq (hshows trivial)]
      exact .leave hleave
  | @drop s ss kept p hkept hred ih =>
    subst htemps
    rcases Machine.finish_cons_eq_some.mp hout with ⟨m₁, hstep, hrest⟩ | ⟨k, dst, hleave, -⟩
    · have hagree' := agreeOff_of_redundant hred hagree hstep
      exact .drop hred.onlyWritesRegs hstep (ih hagree' hrest (Machine.step_temps hstep) hss.2)
    · obtain ⟨guard, g, rfl, -⟩ := Machine.step_eq_leave.mp hleave
      exact hred.onlyWritesRegs.elim

end RegisterWrites

open RegisterWrites in
/-- Register writes that nothing observes are dropped without a failure. What is left of the block
goes along with it, if its windows end at offsets. -/
theorem Block.dropWrites_alongside {P : Policy} {b : Block} (o : Precise) (hb : b.Typed P) :
    ∃ kept, b.dropWrites o = .ok { b with stmts := kept } ∧ Thinned b.stmts kept ∧
      ∀ V env s out, o.Guards V → P.Unwrapped → b.ends s env = some out →
        Alongside V b.stmts (.start b.temps env s) kept s := by
  obtain ⟨p, kept, hstmts, hkept⟩ := stmts_spec o hb.stmts
  refine ⟨kept, ?_, hkept.thinned, ?_⟩
  · simp only [Block.dropWrites, bind_eq_ok]
    exact ⟨(p, kept), hstmts, rfl⟩
  · intro V env s out ho hun hout
    rw [Block.ends_eq] at hout
    exact Kept.alongside (m := .start b.temps env s) hkept ho hun hb.stmts (.refl _ _) hout

/-- Register writes that nothing observes are dropped without a failure, and the rest of the block
does the same, if its windows end at offsets. -/
theorem Block.dropWrites_spec {P : Policy} {b : Block} (o : Precise) (hb : b.Typed P) :
    ∃ r, b.dropWrites o = .ok r ∧ b.Keeps P r ∧ ∀ env, P.Unwrapped → b.RefinedBy env r := by
  obtain ⟨kept, hr, hthin, halong⟩ := b.dropWrites_alongside o hb
  refine ⟨_, hr, hthin.keeps hb, fun env hun s out hout => ?_⟩
  exact (halong (fun _ => False) env s out (fun _ _ hj => hj.elim) hun hout).ends hout

end Straightline
