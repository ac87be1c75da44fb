import Mathlib
import Straightline.Pass.WindowReads
import Straightline.Proofs.Lockstep

/-!
# Reusing indexed reads is sound

The search for the value of a read goes back over the statements that led to the machine, which
`Past` keeps together with the machine. If it finds a value, the element that the read selects was
written with that value, and no statement since then has touched it (`search_value`).

The index of the read may be younger than the statements that the search passes. Where it is defined
on an older machine it has the value that it has now, since temporaries are assigned once.
-/

namespace Straightline
namespace WindowReads

variable {P : Policy} {temps : Array Ty} {env : Env} {defs : List Temp} {before : List Stmt}
  {m m₁ : Machine}

/-! ## What was run -/

/-- The statements behind a point, nearest first, keep the rules and define `defs`. -/
inductive Behind (P : Policy) (temps : Array Ty) : List Stmt → List Temp → Prop where
  | nil : Behind P temps [] []
  | cons {s : Stmt} {before : List Stmt} {defs : List Temp} :
    Behind P temps before defs → s.Ok P temps defs → Behind P temps (s :: before) (s.defsAfter defs)

/-- A machine that a run of the statements, nearest first, has led to. -/
inductive Past (P : Policy) (temps : Array Ty) (env : Env) :
    List Stmt → List Temp → Machine → Prop where
  | nil (s : State) : Past P temps env [] [] (.start temps env s)
  | cons {s : Stmt} {before : List Stmt} {defs : List Temp} {m m₁ : Machine} :
    Past P temps env before defs m → s.Ok P temps defs → m.step s = .next m₁ →
    Past P temps env (s :: before) (s.defsAfter defs) m₁

theorem Past.sound (h : Past P temps env before defs m) :
    m.temps = temps ∧ m.env = env ∧ m.Sound defs := by
  induction h with
  | nil s => exact ⟨rfl, rfl, Machine.sound_start temps env s⟩
  | cons _ hs hstep ih =>
    obtain ⟨rfl, rfl, hsound⟩ := ih
    exact ⟨Machine.step_temps hstep, Machine.step_env hstep, hsound.step hstep hs⟩

/-! ## The search -/

variable {acc : Access} {ty : Ty}

theorem search_ok (h : Behind P temps before defs) (n : Nat) :
    ∃ f, search temps acc ty n before = .ok f := by
  induction h generalizing n with
  | nil => cases n <;> exact ⟨.start, rfl⟩
  | @cons s before defs _ hs ih =>
    cases n with
    | zero => exact ⟨.start, rfl⟩
    | succ n =>
      cases s with
      | put off data =>
        obtain ⟨-, T, hT, -⟩ := hs
        simp only [search, hT.typeIn, bind, Except.bind]
        split
        · exact ih n
        · exact ⟨_, rfl⟩
      | putIx w ix bias data =>
        simp only [search]
        split
        · exact ih n
        · split
          · simp only [hs.2.2.2.typeIn, bind, Except.bind]
            exact ⟨_, rfl⟩
          · exact ⟨_, rfl⟩
        · exact ⟨_, rfl⟩
      | effect e =>
        simp only [search]
        split
        · exact ⟨_, rfl⟩
        · exact ih n
      | _ => exact ih n

/-- The search can see that the statement does not touch the element. -/
inductive Passed (temps : Array Ty) (acc : Access) : Stmt → Prop where
  | put {off : Int64} {data : Expr} {T : Ty} : data.typeIn temps = .ok T →
    (Access.fixed off T).relate acc = .noOverlap → Passed temps acc (.put off data)
  | putIx {w : Window} {ix : Expr} {bias : Int64} {data : Expr} :
    (Access.indexed w ix bias).relate acc = .noOverlap → Passed temps acc (.putIx w ix bias data)
  | effect {e : Effect} : e.writesState = false → Passed temps acc (.effect e)
  | other {s : Stmt} : s.mayWriteRegs = false → Passed temps acc s

/-- A search that finds a value found it here, or went on behind a statement it could pass. -/
theorem search_cons {s : Stmt} {n j : Nat} {v : Expr}
    (h : search temps acc ty (n + 1) (s :: before) = .ok (.value j v)) :
    (∃ w ix bias, s = .putIx w ix bias v ∧ (Access.indexed w ix bias).relate acc = .exact ∧
      v.isAtom = true ∧ v.typeIn temps = .ok ty) ∨
    Passed temps acc s ∧ search temps acc ty n before = .ok (.value j v) := by
  cases s with
  | put off data =>
    simp only [search, bind_eq_ok] at h
    obtain ⟨T, hT, h⟩ := h
    split at h
    · rename_i hrel
      exact .inr ⟨.put hT hrel, h⟩
    · simp at h
  | putIx w ix bias data =>
    simp only [search] at h
    split at h
    · rename_i hrel
      exact .inr ⟨.putIx hrel, h⟩
    · rename_i hrel
      split at h
      · rename_i hatom
        simp only [bind_eq_ok] at h
        obtain ⟨T, hT, h⟩ := h
        split at h
        · rename_i heq
          simp only [Except.ok.injEq, Found.value.injEq] at h
          obtain ⟨-, rfl⟩ := h
          exact .inl ⟨w, ix, bias, rfl, hrel, hatom, heq ▸ hT⟩
        · simp at h
      · simp at h
    · simp at h
  | effect e =>
    simp only [search] at h
    split at h
    · simp at h
    · rename_i hwrites
      exact .inr ⟨.effect (by simpa using hwrites), h⟩
  | _ => exact .inr ⟨.other rfl, h⟩

theorem search_nil {n j : Nat} {v : Expr} : search temps acc ty n [] ≠ .ok (.value j v) := by
  cases n <;> simp [search]

/-- A value that is found is an atom of the right type. -/
theorem search_typed {n j : Nat} {v : Expr} (h : Behind P temps before defs)
    (hfound : search temps acc ty n before = .ok (.value j v)) :
    v.isAtom = true ∧ v.HasTy P temps defs ty := by
  induction h generalizing n with
  | nil => exact absurd hfound search_nil
  | @cons s before defs _ hs ih =>
    have hmono {T : Ty} (hT : v.HasTy P temps defs T) : v.HasTy P temps (s.defsAfter defs) T :=
      hT.mono (.refl P) (fun _ _ => id) (Stmt.subset_defsAfter _ _)
    cases n with
    | zero => simp [search] at hfound
    | succ n =>
      rcases search_cons hfound with ⟨w, ix, bias, rfl, -, hatom, hty⟩ | ⟨-, hrest⟩
      · have hv := hs.2.2.2
        have hw := hv.typeIn
        rw [hty, Except.ok.injEq] at hw
        exact ⟨hatom, hmono (hw ▸ hv)⟩
      · obtain ⟨hatom, hT⟩ := ih hrest
        exact ⟨hatom, hmono hT⟩

/-! ## The value that is found -/

/-- The assumptions about windows and effects. -/
structure Assumes (P : Policy) (env : Env) : Prop where
  unwrapped : P.Unwrapped
  steady : P.Steady
  keepsRegs : P.KeepsRegs env

/-- The machines agree on the atoms that have values on both. -/
def AgreeOnAtoms (m m' : Machine) : Prop :=
  ∀ e v v', e.isAtom = true → m.eval e = .ok v → m'.eval e = .ok v' → v = v'

variable {now : Machine} {off : Int64} {s : Stmt}

/-- A statement that the search passes leaves the element alone. -/
theorem Passed.readReg (h : Passed m.temps acc s) (hP : Assumes P m.env) (hacc : acc.Regular)
    (hnow : acc.Touches now off ty) (hagree : AgreeOnAtoms m now) (hs : s.Ok P m.temps defs)
    (hstep : m.step s = .next m₁) : m₁.state.readReg off ty = m.state.readReg off ty := by
  cases h with
  | @put o data T hT hrel =>
    obtain ⟨U, v, st, hU, -, hst, rfl⟩ := Machine.step_put.mp hstep
    rw [hT, Except.ok.injEq] at hU
    subst hU
    refine State.readReg_congr (State.size_writeReg hst) fun j hj => ?_
    refine State.getElem?_writeReg_of_not_covers hst fun hcov => ?_
    exact Access.relate_noOverlap (a := .fixed o T) trivial hacc hrel hagree ⟨rfl, rfl⟩ hnow hcov hj
  | @putIx w ix bias data hrel =>
    obtain ⟨i, v, o, st, hi, -, ho, hst, rfl⟩ := Machine.step_putIx.mp hstep
    obtain ⟨hw, hwin, -⟩ := hs
    have hreg : (Access.indexed w ix bias).Regular :=
      ⟨hw, hP.unwrapped w bias hwin, hP.steady w bias hwin⟩
    refine State.readReg_congr (State.size_writeReg hst) fun j hj => ?_
    refine State.getElem?_writeReg_of_not_covers hst fun hcov => ?_
    exact Access.relate_noOverlap hreg hacc hrel hagree ⟨rfl, i, hi, ho⟩ hnow hcov hj
  | effect hwrites =>
    exact State.readReg_of_regs_eq (Machine.step_effect_regs hP.keepsRegs hs hwrites hstep)
  | other hregs => exact State.readReg_of_regs_eq (Machine.step_regs hstep hregs)

/-- The element that the read selects holds the value that is found. -/
theorem search_value {n j : Nat} {v : Expr} (h : Past P temps env before defs m)
    (hP : Assumes P env) (hacc : acc.Regular) (hnow : acc.Touches now off ty)
    (hagree : AgreeOnAtoms m now) (hfound : search temps acc ty n before = .ok (.value j v)) :
    v.isAtom = true ∧ ∃ x, m.eval v = .ok x ∧ m.state.readReg off ty = .ok x := by
  induction h generalizing n with
  | nil => exact absurd hfound search_nil
  | @cons s before defs m m₁ hpast hs hstep ih =>
    obtain ⟨rfl, rfl, hsound⟩ := hpast.sound
    -- going back, atoms that had values have the values of today
    have hagree' : AgreeOnAtoms m now := fun e x x' hatom hx hx' =>
      hagree e x x' hatom (hsound.eval_atom_step hstep hs hatom hx) hx'
    cases n with
    | zero => simp [search] at hfound
    | succ n =>
      rcases search_cons hfound with ⟨w, ix, bias, rfl, hrel, hatom, hty⟩ | ⟨hpassed, hrest⟩
      · obtain ⟨i, x, o, st, hi, hx, ho, hst, hm₁⟩ := Machine.step_putIx.mp hstep
        obtain ⟨hw, hwin, -, hdata⟩ := id hs
        have hreg : (Access.indexed w ix bias).Regular :=
          ⟨hw, hP.unwrapped w bias hwin, hP.steady w bias hwin⟩
        obtain ⟨rfl, rfl⟩ := Access.relate_exact hreg hacc hrel hagree' ⟨rfl, i, hi, ho⟩ hnow
        have hfits : x &&& w.elem.mask = x := Machine.eval_fits hsound.fit hdata hx
        refine ⟨hatom, x, hsound.eval_atom_step hstep hs hatom hx, ?_⟩
        rw [hm₁, ← hfits]
        exact State.readReg_writeReg hst
      · obtain ⟨hatom, x, hx, hread⟩ := ih hagree' hrest
        refine ⟨hatom, x, hsound.eval_atom_step hstep hs hatom hx, ?_⟩
        rw [hpassed.readReg hP hacc hnow hagree' hs hstep]
        exact hread

/-! ## The pass -/

/-- What is known at a point of the run: how it was reached. -/
def Inv (P : Policy) (temps : Array Ty) (env : Env) (before : List Stmt) (defs : List Temp)
    (m : Machine) : Prop := Assumes P env ∧ Past P temps env before defs m

/-- A statement that is left as it is adds to the past. -/
theorem replaces_self (hs : s.Ok P temps defs) :
    s.Replaces P temps env defs (Inv P temps env before defs)
      (Inv P temps env (s :: before) (s.defsAfter defs)) s :=
  .self hs fun _ _ _ _ _ hinv hstep => ⟨hinv.1, .cons hinv.2 hs hstep⟩

/-- A read whose value was found is a copy of it. -/
theorem replaces_value {dst : Temp} {w : Window} {ix v : Expr} {bias : Int64} {n j : Nat}
    (h : Behind P temps before defs) (hs : (Stmt.assign dst (.getIx w ix bias)).Ok P temps defs)
    (hfound : search temps (.indexed w ix bias) w.elem n before = .ok (.value j v)) :
    (Stmt.assign dst (.getIx w ix bias)).Replaces P temps env defs (Inv P temps env before defs)
      (Inv P temps env (.assign dst (.getIx w ix bias) :: before)
        ((Stmt.assign dst (.getIx w ix bias)).defsAfter defs)) (.assign dst v) := by
  obtain ⟨hatom, hv⟩ := search_typed h hfound
  obtain ⟨T, ⟨rfl, hw, hwin, hix⟩, hdst, hfresh⟩ := id hs
  refine ⟨⟨_, hv, hdst, hfresh⟩, rfl, fun _ => ?_, ?_, ?_⟩
  · cases v <;> simp_all [Stmt.Flat, Expr.children, Expr.isAtom]
  · intro m m₁ _ _ _ hinv hstep
    refine ⟨?_, hinv.1, .cons hinv.2 hs hstep⟩
    obtain ⟨x, T, hx, hT, rfl⟩ := Machine.step_assign.mp hstep
    obtain ⟨i, off, hi, hoff, hread⟩ := Machine.eval_getIx_eq_ok.mp hx
    have hreg : (Access.indexed w ix bias).Regular :=
      ⟨hw, hinv.1.unwrapped w bias hwin, hinv.1.steady w bias hwin⟩
    have hself : AgreeOnAtoms m m := by
      intro e y y' _ hy hy'
      rw [hy, Except.ok.injEq] at hy'
      exact hy'
    obtain ⟨-, y, hy, hval⟩ := search_value hinv.2 hinv.1 hreg ⟨rfl, i, hi, hoff⟩ hself hfound
    rw [hread, Except.ok.injEq] at hval
    subst hval
    exact Machine.step_assign.mpr ⟨x, T, hy, hT, rfl⟩
  · intro m k c hleave
    simp [Machine.step, Machine.attempt_ne_leave] at hleave

/-- One statement of the pass. -/
theorem stmt_spec (i : Nat) (h : Behind P temps before defs) (hs : s.Ok P temps defs) :
    ∃ s', (stmt temps i before s).result = .ok s' ∧
      ∀ env, s.Replaces P temps env defs (Inv P temps env before defs)
        (Inv P temps env (s :: before) (s.defsAfter defs)) s' := by
  have hsame : (stmt temps i before s).result = .ok s →
      ∃ s', (stmt temps i before s).result = .ok s' ∧
        ∀ env, s.Replaces P temps env defs (Inv P temps env before defs)
          (Inv P temps env (s :: before) (s.defsAfter defs)) s' :=
    fun heq => ⟨s, heq, fun env => replaces_self hs⟩
  cases s with
  | assign dst src =>
    cases src with
    | getIx w ix bias =>
      obtain ⟨f, hf⟩ : ∃ f, search temps (.indexed w ix bias) w.elem i before = .ok f :=
        search_ok h i
      cases f with
      | start =>
        refine hsame ?_
        simp only [stmt, Journaled.result_bind_eq_ok, Journaled.result_silent_eq_ok]
        exact ⟨_, hf, rfl⟩
      | stop j rel =>
        refine hsame ?_
        simp only [stmt, Journaled.result_bind_eq_ok, Journaled.result_silent_eq_ok]
        exact ⟨_, hf, Journaled.result_bind_eq_ok.mpr ⟨(), rfl, rfl⟩⟩
      | value j v =>
        refine ⟨.assign dst v, ?_, fun env => replaces_value h hs hf⟩
        simp only [stmt, Journaled.result_bind_eq_ok, Journaled.result_silent_eq_ok]
        exact ⟨_, hf, Journaled.result_bind_eq_ok.mpr ⟨(), rfl, rfl⟩⟩
    | _ => exact hsame rfl
  | _ => exact hsame rfl

theorem stmts_spec {ss : List Stmt} (i : Nat) (h : Behind P temps before defs)
    (hss : Stmt.AllOk P temps defs ss) :
    ∃ ss', (stmts temps i before ss).result = .ok ss' ∧
      ∀ env, Lockstep P temps env defs (Inv P temps env before defs) ss ss' := by
  induction ss generalizing i before defs with
  | nil => exact ⟨[], rfl, fun env => .nil⟩
  | cons s ss ih =>
    obtain ⟨s', hs', hrep⟩ := stmt_spec i h hss.1
    obtain ⟨ss', hss', hlock⟩ := ih (i + 1) (.cons h hss.1) hss.2
    refine ⟨s' :: ss', ?_, fun env => .cons (hrep env) (hlock env)⟩
    simp only [stmts, Journaled.result_bind_eq_ok, Journaled.result_pure]
    exact ⟨s', hs', ss', hss', rfl⟩

end WindowReads

open WindowReads in
/-- Indexed reads of known elements become copies without a failure, and the block does the same, if
its windows end at offsets, its displacements can be added to indices, and its effects change
registers only where they say so. -/
theorem Block.reuseElements_spec {P : Policy} {b : Block} (hb : b.Typed P) :
    ∃ r, b.reuseElements.result = .ok r ∧ b.Keeps P r ∧
      ∀ env, P.Unwrapped → P.Steady → P.KeepsRegs env → b.RefinedBy env r := by
  have hnil : Behind P b.temps [] [] := .nil
  obtain ⟨ss, hss, hlock⟩ := stmts_spec 0 hnil hb.stmts
  refine ⟨{ b with stmts := ss }, ?_, (hlock ⟨fun _ => none, fun _ => none⟩).keeps hb, ?_⟩
  · simp only [Block.reuseElements, Journaled.result_bind_eq_ok, Journaled.result_pure]
    exact ⟨ss, hss, rfl⟩
  · intro env hun hsteady hkeep
    exact (hlock env).refinedBy hb fun s => ⟨⟨hun, hsteady, hkeep⟩, .nil s⟩

end Straightline
