import Mathlib
import Straightline.Pass.WindowWrites
import Straightline.Proofs.Unobserved

/-!
# Dropping indexed writes is sound

At each point of a run, the statements ahead make some bytes dead: those of elements that one of
them overwrites before anything looks at them (`DeadByte`). The states of the two blocks differ in
dead bytes only. A dead byte stays dead until a statement writes it (`deadByte_step`), and a dropped
statement writes dead bytes only. Where the state can be seen, nothing is dead, and at an access to
memory, nothing that the oracle calls precise.
-/

namespace Straightline
namespace WindowWrites

variable {P : Policy} {temps : Array Ty} {defs : List Temp} {o : Precise} {acc : Access} {mem : Bool}
  {s : Stmt} {ss kept : List Stmt} {n k : Nat}

/-! ## The search -/

/-- The statement shows the registers. -/
def Shows : Stmt → Prop
  | .exit _ _ _ | .fence => True
  | .effect e => e.touchesState = true
  | _ => False

/-- The node has no byte in common with the access, and reads no memory if `mem` says that this
matters. -/
def Misses (acc : Access) (mem : Bool) : Expr → Prop
  | .get off ty => (Access.fixed off ty).relate acc = .noOverlap
  | .getIx w ix bias => (Access.indexed w ix bias).relate acc = .noOverlap
  | .load _ _ => mem = false
  | _ => True

theorem readsIn_ok {es : List Expr} (h : ∀ e ∈ es, e ≠ .missing) :
    ∃ r, readsIn acc mem es = .ok r := by
  induction es with
  | nil => exact ⟨false, rfl⟩
  | cons e es ih =>
    rw [List.forall_mem_cons] at h
    cases e with
    | missing => exact absurd rfl h.1
    | get off ty =>
      simp only [readsIn]
      split
      · exact ⟨true, rfl⟩
      · exact ih h.2
    | getIx w ix bias =>
      simp only [readsIn]
      split
      · exact ⟨true, rfl⟩
      · exact ih h.2
    | load ty a =>
      simp only [readsIn]
      split
      · exact ⟨true, rfl⟩
      · exact ih h.2
    | _ => exact ih h.2

theorem misses_of_readsIn {es : List Expr} (h : readsIn acc mem es = .ok false) :
    ∀ e ∈ es, Misses acc mem e := by
  induction es with
  | nil => simp
  | cons e es ih =>
    rw [List.forall_mem_cons]
    cases e with
    | missing => simp [readsIn] at h
    | get off ty =>
      simp only [readsIn] at h
      split at h
      · simp at h
      · rename_i hrel
        exact ⟨not_not.mp hrel, ih h⟩
    | getIx w ix bias =>
      simp only [readsIn] at h
      split at h
      · simp at h
      · rename_i hrel
        exact ⟨not_not.mp hrel, ih h⟩
    | load ty a =>
      simp only [readsIn] at h
      split at h
      · simp at h
      · rename_i hmem
        exact ⟨Bool.eq_false_iff.mpr hmem, ih h⟩
    | _ => exact ⟨trivial, ih h⟩

theorem verdict_ok (hs : s.Ok P temps defs) : ∃ v, verdict temps acc mem s = .ok v := by
  cases s with
  | put off data =>
    obtain ⟨-, T, hT, -⟩ := hs
    simp only [verdict, hT.typeIn, bind, Except.bind]
    exact ⟨_, rfl⟩
  | _ => exact ⟨_, rfl⟩

theorem overwriter?_ok (hss : Stmt.AllOk P temps defs ss) (n : Nat) :
    ∃ r, overwriter? temps acc mem n ss = .ok r := by
  induction ss generalizing defs n with
  | nil => exact ⟨none, rfl⟩
  | cons s ss ih =>
    obtain ⟨v, hv⟩ : ∃ v, verdict temps acc mem s = .ok v := verdict_ok hss.1
    obtain ⟨r, hr⟩ : ∃ r, readsIn acc mem s.nodes = .ok r := readsIn_ok hss.1.nodes_ne_missing
    obtain ⟨o, ho⟩ := ih hss.2 (n + 1)
    simp only [overwriter?, hv, bind, Except.bind]
    cases v with
    | overwrites => exact ⟨_, rfl⟩
    | observes => exact ⟨_, rfl⟩
    | passes =>
      simp only [Stmt.demand_eq_ok hss.1.ne_missing, hr]
      cases r with
      | true => exact ⟨none, rfl⟩
      | false => exact ⟨o, ho⟩

/-- Only an indexed write to the same element overwrites. -/
theorem putIx_of_overwrites (hv : verdict temps acc mem s = .ok .overwrites) :
    ∃ w ix bias data, s = .putIx w ix bias data ∧
      (Access.indexed w ix bias).relate acc = .exact := by
  cases s with
  | putIx w ix bias data =>
    simp only [verdict, Except.ok.injEq] at hv
    split at hv
    · rename_i hrel
      exact ⟨w, ix, bias, data, rfl, hrel⟩
    · simp at hv
    · simp at hv
  | put off data =>
    simp only [verdict, bind_eq_ok, Except.ok.injEq] at hv
    obtain ⟨T, -, hv⟩ := hv
    split at hv <;> simp at hv
  | effect e =>
    simp only [verdict, Except.ok.injEq] at hv
    split at hv <;> simp at hv
  | store addr data =>
    simp only [verdict, Except.ok.injEq] at hv
    split at hv <;> simp at hv
  | _ => simp [verdict] at hv

/-- An access that is overwritten is overwritten by the first statement, or passes it: then the
statement neither reads the element nor shows the registers, nor acts on memory if this matters. -/
theorem overwriter?_cons (h : overwriter? temps acc mem n (s :: ss) = .ok (some k)) :
    (∃ w ix bias data, s = .putIx w ix bias data ∧
      (Access.indexed w ix bias).relate acc = .exact) ∨
    ((∀ e ∈ s.nodes, Misses acc mem e) ∧ ¬Shows s ∧ (s.ActsOnMem → mem = false) ∧
      overwriter? temps acc mem (n + 1) ss = .ok (some k)) := by
  simp only [overwriter?, bind_eq_ok] at h
  obtain ⟨v, hv, h⟩ := h
  cases v with
  | observes => simp at h
  | overwrites => exact .inl (putIx_of_overwrites hv)
  | passes =>
    simp only [bind_eq_ok] at h
    obtain ⟨-, -, r, hr, h⟩ := h
    cases r with
    | true => simp at h
    | false =>
      refine .inr ⟨misses_of_readsIn hr, ?_, ?_, by simpa using h⟩
      -- effects on registers, exits and fences observe, so none of them was passed
      · cases s with
        | effect e =>
          simp only [verdict, Except.ok.injEq] at hv
          intro hshows
          have ht : e.touchesState = true := hshows
          simp [ht] at hv
        | exit guard kind dst => simp [verdict] at hv
        | fence => simp [verdict] at hv
        | _ => exact id
      -- where memory matters, so do stores and effects on it
      · cases s with
        | effect e =>
          simp only [verdict, Except.ok.injEq] at hv
          intro hacts
          have ht : e.touchesMem = true := hacts
          cases mem with
          | true => simp [ht] at hv
          | false => rfl
        | store addr data =>
          intro _
          cases mem with
          | true => simp [verdict] at hv
          | false => rfl
        | _ => exact False.elim

/-! ## Dead bytes -/

/-- The assumptions about windows and effects. -/
structure Assumes (P : Policy) (env : Env) : Prop where
  unwrapped : P.Unwrapped
  steady : P.Steady
  blind : P.Blind env

/-- The byte belongs to an element that the statements ahead overwrite unobserved. -/
def DeadByte (o : Precise) (m : Machine) (ss : List Stmt) (j : Nat) : Prop :=
  ∃ w ix bias off, ix.isAtom = true ∧ (Access.indexed w ix bias).Regular ∧
    (Access.indexed w ix bias).Touches m off w.elem ∧ (Region.ofTy off w.elem).Covers j ∧
      ∃ n k, overwriter? m.temps (.indexed w ix bias) (o.holds w.bounds) n ss = .ok (some k)

variable {m m₁ : Machine} {j : Nat}

theorem not_deadByte_nil : ¬DeadByte o m [] j := by
  intro h
  obtain ⟨w, ix, bias, off, -, -, -, -, n, k, hover⟩ := h
  simp [overwriter?] at hover

/-- Nothing is dead in front of a statement that shows the registers. -/
theorem not_deadByte_of_shows (hs : Shows s) : ¬DeadByte o m (s :: ss) j := by
  intro h
  obtain ⟨w, ix, bias, off, -, -, -, -, n, k, hover⟩ := h
  rcases overwriter?_cons hover with ⟨w', ix', bias', data, rfl, -⟩ | ⟨-, hnot, -, -⟩
  · exact hs
  · exact hnot hs

/-- Nothing precise is dead in front of a flat statement that accesses memory. -/
theorem not_deadByte_of_accessesMem {V : Nat → Prop} (ho : o.Guards V) (hs : s.AccessesMem)
    (hflat : s.Flat) (hj : V j) : ¬DeadByte o m (s :: ss) j := by
  intro h
  obtain ⟨w, ix, bias, off, -, hreg, ⟨-, i, -, hoff⟩, hcov, n, k, hover⟩ := h
  have hprecise : o.holds w.bounds = true :=
    ho w.bounds j hj (Window.covers_bounds hreg.1 hreg.2.1 hoff hcov)
  rcases overwriter?_cons hover with ⟨w', ix', bias', data, rfl, -⟩ | ⟨hmiss, -, hacts, -⟩
  · have hwrites : (Stmt.putIx w' ix' bias' data).OnlyWritesRegs := trivial
    exact hwrites.not_accessesMem hflat hs
  · have hnot : o.holds w.bounds = false := by
      rcases hs with ⟨T, a, hload⟩ | hs
      · exact hmiss _ hload
      · exact hacts hs
    rw [hprecise] at hnot
    exact Bool.noConfusion hnot

theorem regular_of_ok {w : Window} {ix : Expr} {bias : Int64} (hP : Assumes P m.env)
    (hw : w.Proper) (hwin : P.window w bias) : (Access.indexed w ix bias).Regular :=
  ⟨hw, hP.unwrapped w bias hwin, hP.steady w bias hwin⟩

theorem agree_self (m : Machine) : ∀ e v v', Expr.isAtom e = true → m.eval e = .ok v →
    m.eval e = .ok v' → v = v' := by
  intro e v v' _ hv hv'
  rw [hv, Except.ok.injEq] at hv'
  exact hv'

/-- A flat statement reads no dead byte. -/
theorem unread_deadByte (hP : Assumes P m.env) (hs : s.Ok P m.temps defs) (hflat : s.Flat) :
    ∀ e ∈ s.nodes, m.Unread (DeadByte o m (s :: ss)) e := by
  intro e he
  obtain ⟨T, hT⟩ := hs.node he
  -- an overwriting statement is an indexed write, whose operands are atoms
  have hdead : ∀ off T j, (∃ a : Access, a.Regular ∧ a.Touches m off T ∧
      ∀ acc mem, Misses acc mem e → a.relate acc = .noOverlap) → e.isAtom = false →
      (Region.ofTy off T).Covers j → ¬DeadByte o m (s :: ss) j := by
    intro off T j ha hatom hj h
    obtain ⟨a, hreg, htouch, hrel⟩ := ha
    obtain ⟨w, ix, bias, off', -, hreg', htouch', hj', n, k, hover⟩ := h
    rcases overwriter?_cons hover with ⟨w', ix', bias', data, rfl, -⟩ | ⟨hmiss, -, -, -⟩
    · have hwrites : (Stmt.putIx w' ix' bias' data).OnlyWritesRegs := trivial
      rw [hwrites.isAtom_of_mem_nodes hflat he] at hatom
      exact Bool.noConfusion hatom
    · exact Access.relate_noOverlap hreg hreg' (hrel _ _ (hmiss e he)) (agree_self m) htouch htouch'
        hj hj'
  cases e with
  | get off ty =>
    intro j hj
    exact hdead off ty j ⟨.fixed off ty, trivial, ⟨rfl, rfl⟩, fun _ _ h => h⟩ rfl hj
  | getIx w ix bias =>
    intro i off hi hoff j hj
    obtain ⟨-, hw, hwin, -⟩ := hT
    exact hdead off w.elem j ⟨.indexed w ix bias, regular_of_ok hP hw hwin, ⟨rfl, i, hi, hoff⟩,
      fun _ _ h => h⟩ rfl hj
  | _ => trivial

/-- A dead byte stays dead, unless the statement writes it. -/
theorem deadByte_step (hP : Assumes P m.env) (hm : m.Sound defs) (hs : s.Ok P m.temps defs)
    (hstep : m.step s = .next m₁) (hj : DeadByte o m (s :: ss) j) :
    m.WritesByte s j ∨ DeadByte o m₁ ss j := by
  obtain ⟨w, ix, bias, off, hatom, hreg, htouch, hcov, n, k, hover⟩ := hj
  rcases overwriter?_cons hover with ⟨w', ix', bias', data, rfl, hrel⟩ | ⟨-, -, -, hrest⟩
  · obtain ⟨i, v, off', st, hi, -, hoff', -⟩ := Machine.step_putIx.mp hstep
    obtain ⟨hw, hwin, -⟩ := hs
    obtain ⟨rfl, helem⟩ := Access.relate_exact (regular_of_ok hP hw hwin) hreg hrel (agree_self m)
      ⟨rfl, i, hi, hoff'⟩ htouch
    exact .inl ⟨i, off', hi, hoff', helem ▸ hcov⟩
  · obtain ⟨-, i, hi, hoff⟩ := htouch
    refine .inr ⟨w, ix, bias, off, hatom, hreg, ⟨rfl, i, ?_, hoff⟩, hcov, n + 1, k, ?_⟩
    · exact hm.eval_atom_step hstep hs hatom hi
    · rw [Machine.step_temps hstep]
      exact hrest

/-! ## Runs -/

/-- What the pass keeps of statements: all but indexed writes that are overwritten unobserved. -/
inductive Kept (o : Precise) (temps : Array Ty) : List Stmt → List Stmt → Prop where
  | nil : Kept o temps [] []
  | keep {s : Stmt} {ss kept : List Stmt} :
    Kept o temps ss kept → Kept o temps (s :: ss) (s :: kept)
  | drop {w : Window} {ix data : Expr} {bias : Int64} {ss kept : List Stmt} {n k : Nat} :
    Kept o temps ss kept →
    overwriter? temps (.indexed w ix bias) (o.holds w.bounds) n ss = .ok (some k) →
    Kept o temps (.putIx w ix bias data :: ss) kept

theorem Kept.thinned (h : Kept o temps ss kept) : Thinned ss kept := by
  induction h with
  | nil => exact .nil
  | keep _ ih => exact .keep ih
  | drop _ _ ih => exact .drop ih rfl

/-- A write that is overwritten unobserved is to bytes that are dead behind it. -/
theorem agreeOff_of_overwriter {w : Window} {ix data : Expr} {bias : Int64} {st : State}
    (hP : Assumes P m.env) (hm : m.Sound defs) (hs : (Stmt.putIx w ix bias data).Ok P m.temps defs)
    (hatom : ix.isAtom = true)
    (hover : overwriter? m.temps (.indexed w ix bias) (o.holds w.bounds) n ss = .ok (some k))
    (hagree : m.state.AgreeOff (DeadByte o m (.putIx w ix bias data :: ss)) st)
    (hstep : m.step (.putIx w ix bias data) = .next m₁) :
    m₁.state.AgreeOff (DeadByte o m₁ ss) st := by
  obtain ⟨i, v, off, s₁, hi, -, hoff, hw, hm₁⟩ := Machine.step_putIx.mp hstep
  obtain ⟨hproper, hwin, -⟩ := id hs
  have hi' := hm.eval_atom_step hstep hs hatom hi
  have hdead : ∀ j, (Region.ofTy off w.elem).Covers j → DeadByte o m₁ ss j := fun j hj =>
    ⟨w, ix, bias, off, hatom, regular_of_ok hP hproper hwin, ⟨rfl, i, hi', hoff⟩, hj, n, k,
      by rw [Machine.step_temps hstep]; exact hover⟩
  rw [show m₁.state = s₁ by rw [hm₁]; rfl]
  refine State.AgreeOff.writeReg_left (hagree.mono fun j hj => ?_) hw hdead
  rcases deadByte_step hP hm hs hstep hj with ⟨i', off', hi₂, hoff₂, hcov⟩ | hdead'
  · rw [hi, Except.ok.injEq] at hi₂
    rw [← hi₂, hoff, Option.some.injEq] at hoff₂
    exact hdead j (hoff₂ ▸ hcov)
  · exact hdead'

/-- What is kept goes along with the original, from a state that differs in dead bytes. -/
theorem Kept.alongside {V : Nat → Prop} {st : State} {next : Expr} {kind : JumpKind} {out : Outcome}
    (h : Kept o m.temps ss kept) (ho : o.Guards V) (hP : Assumes P m.env)
    (hss : Stmt.AllOk P m.temps defs ss) (hflat : ∀ s ∈ ss, s.Flat) (hm : m.Sound defs)
    (hagree : m.state.AgreeOff (DeadByte o m ss) st)
    (hout : Machine.finish next kind ss m = some out) : Alongside V ss m kept st := by
  -- along what is kept; dead bytes depend on the values that the run has reached
  generalize htemps : m.temps = temps at h hss
  induction h generalizing m defs st with
  | nil =>
    rw [hagree.eq fun j => not_deadByte_nil]
    exact .done m
  | @keep s ss kept _ ih =>
    subst htemps
    rw [List.forall_mem_cons] at hflat
    rcases Machine.finish_cons_eq_some.mp hout with ⟨m₁, hstep, hrest⟩ | ⟨k, dst, hleave, -⟩
    · have heffect : ∀ x, s = .effect x →
          (∀ j, ¬DeadByte o m (s :: ss) j) ∨ x.touchesState = false ∧ P.Blind m.env := by
        intro x hx
        cases htouch : x.touchesState with
        | true => exact .inl fun j => not_deadByte_of_shows (hx ▸ htouch)
        | false => exact .inr ⟨rfl, hP.blind⟩
      have hview : s.AccessesMem → m.state.AgreeOff (fun j => ¬V j) st := fun hs =>
        hagree.mono fun j hj hV => not_deadByte_of_accessesMem ho hs hflat.1 hV hj
      obtain ⟨st₁, hstep', hagree'⟩ := Machine.step_agreeOff hagree hss.1
        (unread_deadByte hP hss.1 hflat.1) heffect hstep
      refine .keep hstep hstep' hview (ih ?_ hflat.2 (hm.step hstep hss.1) ?_ hrest
        (Machine.step_temps hstep) hss.2)
      · rw [Machine.step_env hstep]
        exact hP
      · refine hagree'.mono fun j hj => ?_
        exact (deadByte_step hP hm hss.1 hstep hj.1).resolve_left hj.2
    · obtain ⟨guard, g, rfl, -⟩ := Machine.step_eq_leave.mp hleave
      rw [hagree.eq fun j => not_deadByte_of_shows trivial]
      exact .leave hleave
  | @drop w ix data bias ss kept n k _ hover ih =>
    subst htemps
    rw [List.forall_mem_cons] at hflat
    rcases Machine.finish_cons_eq_some.mp hout with ⟨m₁, hstep, hrest⟩ | ⟨k, dst, hleave, -⟩
    · have hatom : ix.isAtom = true := hflat.1 ix (by simp [Stmt.operands])
      refine .drop trivial hstep (ih ?_ hflat.2 (hm.step hstep hss.1) ?_ hrest
        (Machine.step_temps hstep) hss.2)
      · rw [Machine.step_env hstep]
        exact hP
      · exact agreeOff_of_overwriter hP hm hss.1 hatom hover hagree hstep
    · obtain ⟨guard, g, h, -⟩ := Machine.step_eq_leave.mp hleave
      simp at h

/-! ## The pass -/

theorem stays_spec (o : Precise) (i : Nat) (hss : Stmt.AllOk P temps defs ss) :
    ∃ r, (stays o temps i ss s).result = .ok r ∧ (r = false → ∃ w ix bias data n k,
      s = .putIx w ix bias data ∧
        overwriter? temps (.indexed w ix bias) (o.holds w.bounds) n ss = .ok (some k)) := by
  cases s with
  | putIx w ix bias data =>
    obtain ⟨r, hr⟩ : ∃ r, overwriter? temps (.indexed w ix bias) (o.holds w.bounds) (i + 1) ss =
        .ok r := overwriter?_ok hss (i + 1)
    cases r with
    | none =>
      refine ⟨true, ?_, by simp⟩
      simp only [stays, Journaled.result_bind_eq_ok, Journaled.result_silent_eq_ok]
      exact ⟨none, hr, rfl⟩
    | some k =>
      refine ⟨false, ?_, fun _ => ⟨w, ix, bias, data, _, k, rfl, hr⟩⟩
      simp only [stays, Journaled.result_bind_eq_ok, Journaled.result_silent_eq_ok]
      exact ⟨some k, hr, Journaled.result_bind_eq_ok.mpr ⟨(), rfl, rfl⟩⟩
  | _ => exact ⟨true, rfl, by simp⟩

theorem stmts_spec (o : Precise) (i : Nat) (hss : Stmt.AllOk P temps defs ss) :
    ∃ kept, (stmts o temps i ss).result = .ok kept ∧ Kept o temps ss kept := by
  induction ss generalizing defs i with
  | nil => exact ⟨[], rfl, .nil⟩
  | cons s ss ih =>
    obtain ⟨kept, hkept, hrest⟩ := ih (i + 1) hss.2
    obtain ⟨r, hr, hdrop⟩ := stays_spec (s := s) o i hss.2
    refine ⟨if r then s :: kept else kept, ?_, ?_⟩
    · simp only [stmts, Journaled.result_bind_eq_ok, Journaled.result_pure]
      exact ⟨r, hr, kept, hkept, rfl⟩
    · cases r with
      | true => exact .keep hrest
      | false =>
        obtain ⟨w, ix, bias, data, n, k, rfl, hover⟩ := hdrop rfl
        exact .drop hrest hover

end WindowWrites

open WindowWrites in
/-- Indexed writes that nothing observes are dropped without a failure. What is left of a flat block
goes along with it, if its windows end at offsets, its displacements can be added to indices, and its
effects see registers only where they say so. -/
theorem Block.dropElements_alongside {P : Policy} {b : Block} (o : Precise) (hb : b.Typed P) :
    ∃ kept, (b.dropElements o).result = .ok { b with stmts := kept } ∧ Thinned b.stmts kept ∧
      ∀ V env s out, o.Guards V → b.Flat → P.Unwrapped → P.Steady → P.Blind env →
        b.ends s env = some out → Alongside V b.stmts (.start b.temps env s) kept s := by
  obtain ⟨kept, hstmts, hkept⟩ := stmts_spec o 0 hb.stmts
  refine ⟨kept, ?_, hkept.thinned, ?_⟩
  · simp only [Block.dropElements, Journaled.result_bind_eq_ok, Journaled.result_pure]
    exact ⟨kept, hstmts, rfl⟩
  · intro V env s out ho hflat hun hsteady hblind hout
    rw [Block.ends_eq] at hout
    exact Kept.alongside (m := .start b.temps env s) hkept ho ⟨hun, hsteady, hblind⟩ hb.stmts hflat.1
      (Machine.sound_start _ _ _) (.refl _ _) hout

/-- Indexed writes that nothing observes are dropped without a failure, and the rest of a flat block
does the same, if its windows end at offsets, its displacements can be added to indices, and its
effects see registers only where they say so. -/
theorem Block.dropElements_spec {P : Policy} {b : Block} (o : Precise) (hb : b.Typed P) :
    ∃ r, (b.dropElements o).result = .ok r ∧ b.Keeps P r ∧
      ∀ env, b.Flat → P.Unwrapped → P.Steady → P.Blind env → b.RefinedBy env r := by
  obtain ⟨kept, hr, hthin, halong⟩ := b.dropElements_alongside o hb
  refine ⟨_, hr, hthin.keeps hb, fun env hflat hun hsteady hblind s out hout => ?_⟩
  exact (halong (fun _ => False) env s out (fun _ _ hj => hj.elim) hflat hun hsteady hblind
    hout).ends hout

end Straightline
