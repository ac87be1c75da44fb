import Mathlib
import Straightline.Proofs.Idempotence
import Straightline.Proofs.Translation

/-!
# Floating-point constants stay assigned

Flat form gives a floating-point constant that is given by its bits a temporary of its own, and what
comes behind flat form relies on it. Every pass moves atoms around: into reads that are known, into
uses of copies, into the place of a conditional that is decided, into copies of a loop. None of them
moves such a constant into an operand (`Block.Tidy`), whether the rules of typing are kept or not; a
pass that adds operands of its own makes its result flat again.

The main statement is `optimized_doubles_assigned`.
-/

namespace Straightline

/-! ## Tidy blocks -/

/-- The statement does not leave for a floating-point constant. -/
def Stmt.LeavesPlain (s : Stmt) : Prop := ∀ c, s.exit? = some c → c.tag ≠ .f64i

/-- No operand is a floating-point constant, nor is the target of an exit. -/
def Stmt.Tidy (s : Stmt) : Prop := s.Normal ∧ s.LeavesPlain

/-- All statements are tidy, and the successor is no floating-point constant. -/
def Block.Tidy (b : Block) : Prop := (∀ s ∈ b.stmts, s.Tidy) ∧ b.next.needsTemp = false

namespace Stmt

variable {dst : Temp} {src : Expr}

theorem leavesPlain_assign (dst : Temp) (src : Expr) : (assign dst src).LeavesPlain := by
  intro c hc
  simp [exit?] at hc

theorem tidy_assign : (assign dst src).Tidy ↔
    src ≠ .missing ∧ ∀ c ∈ src.children, c.needsTemp = false :=
  and_iff_left (leavesPlain_assign dst src)

/-- An atom is a tidy right side, whatever its tag. -/
theorem tidy_assign_of_isAtom (h : src.isAtom = true) : (assign dst src).Tidy := by
  refine tidy_assign.mpr ⟨?_, by simp [Expr.children_of_isAtom h]⟩
  rintro rfl
  simp [Expr.isAtom] at h

/-- Other operands do not change where an exit leads. -/
theorem exit?_withOperands (s : Stmt) (es : List Expr) : (s.withOperands es).exit? = s.exit? := by
  unfold withOperands
  split
  case h_5 => split <;> rfl
  all_goals rfl

end Stmt

namespace Block

variable {b r : Block}

theorem Tidy.doublesAssigned (h : b.Tidy) : b.DoublesAssigned :=
  Normal.doublesAssigned ⟨fun s hs => (h.1 s hs).1, h.2⟩ fun _ _ c hexit => (h.1 _ hexit).2 c rfl

/-- Leaving statements out keeps a block tidy. -/
theorem Tidy.of_subset {ss : List Stmt} (h : b.Tidy) (hss : ss ⊆ b.stmts) :
    ({ b with stmts := ss } : Block).Tidy :=
  ⟨fun s hs => h.1 s (hss hs), h.2⟩

/-- Flat form is tidy. -/
theorem tidy_of_flatten (hb : ∀ s ∈ b.stmts, s.LeavesPlain) (h : b.flatten = .ok r) : r.Tidy := by
  obtain ⟨-, hnormal, -⟩ := flatten_eq_ok h
  refine ⟨fun s hs => ⟨hnormal.1 s hs, ?_⟩, hnormal.2⟩
  intro c hc
  cases s with
  | exit guard kind dst =>
    obtain ⟨guard', hmem⟩ := exit_mem_of_flatten h hs
    exact hb _ hmem c hc
  | _ => simp [Stmt.exit?] at hc

end Block

/-! ## Passes that leave statements out -/

theorem RegisterWrites.subset_of_stmts {o : Precise} {temps : Array Ty} {ss kept : List Stmt}
    {p : Pending} (h : stmts o temps ss = .ok (p, kept)) : kept ⊆ ss := by
  induction ss generalizing p kept with
  | nil =>
    obtain ⟨-, rfl⟩ := Prod.mk.inj (Except.ok.inj h)
    exact List.Subset.refl _
  | cons s ss ih =>
    simp only [stmts, bind_eq_ok] at h
    obtain ⟨⟨q, rest⟩, hrest, ⟨p', s'⟩, hs, heq⟩ := h
    obtain ⟨-, rfl⟩ := Prod.mk.inj (Except.ok.inj heq)
    rcases stmt_eq_ok hs with ⟨rfl, -⟩ | rfl
    · exact List.subset_cons_of_subset _ (ih hrest)
    · exact List.cons_subset_cons _ (ih hrest)

theorem Liveness.kept_subset {live : BitSet} {ss : List Stmt} {w : Sweep}
    (h : stmts live ss = .ok w) : w.kept ⊆ ss := by
  induction ss generalizing w with
  | nil =>
    obtain rfl := Except.ok.inj h
    exact List.Subset.refl _
  | cons s ss ih =>
    obtain ⟨w₁, hrest, hs⟩ := bind_eq_ok.mp h
    rcases stmt_eq_ok hs with ⟨-, hkept⟩ | ⟨hkept, -⟩
    · exact hkept ▸ List.subset_cons_of_subset _ (ih hrest)
    · exact hkept ▸ List.cons_subset_cons _ (ih hrest)

theorem WindowWrites.subset_of_stmts {o : Precise} {temps : Array Ty} {i : Nat}
    {ss kept : List Stmt} (h : (stmts o temps i ss).result = .ok kept) : kept ⊆ ss := by
  induction ss generalizing i kept with
  | nil =>
    obtain rfl := Except.ok.inj h
    exact List.Subset.refl _
  | cons s ss ih =>
    simp only [stmts, Journaled.result_bind_eq_ok, Journaled.result_pure] at h
    obtain ⟨stays, -, rest, hrest, heq⟩ := h
    obtain rfl := Except.ok.inj heq
    cases stays with
    | true => exact List.cons_subset_cons _ (ih hrest)
    | false => exact List.subset_cons_of_subset _ (ih hrest)

/-! ## Passes that move atoms -/

namespace RegisterReads

variable {temps : Array Ty} {k k' : Known} {s s' : Stmt} {ss ss' : List Stmt}

/-- The known values need no temporaries. -/
def Known.Plain (k : Known) : Prop := ∀ r e, (r, e) ∈ k → e.needsTemp = false

theorem Known.Plain.learn {e : Expr} (h : k.Plain) (he : e.needsTemp = false) (r : Region) :
    (k.learn r e).Plain := by
  intro r' e' hmem
  rcases List.mem_cons.mp hmem with heq | hmem
  · exact (Prod.mk.inj heq).2 ▸ he
  · exact h r' e' (List.mem_of_mem_filter hmem)

theorem Known.Plain.forget (h : k.Plain) (r : Region) : (k.forget r).Plain :=
  fun r' e' hmem => h r' e' (List.mem_of_mem_filter hmem)

/-- A known value is a temporary or was written, so it is no floating-point constant. -/
theorem stmt_tidy (hk : k.Plain) (hs : s.Tidy) (h : stmt temps k s = .ok (k', s')) :
    k'.Plain ∧ s'.Tidy := by
  cases s with
  | assign dst src =>
    cases src with
    | get off ty =>
      simp only [stmt] at h
      split at h
      · obtain ⟨rfl, rfl⟩ := Prod.mk.inj (Except.ok.inj h)
        exact ⟨hk.learn rfl _, hs⟩
      · rename_i v hfind
        obtain ⟨vty, -, h⟩ := bind_eq_ok.mp h
        obtain ⟨rfl, rfl⟩ := Prod.mk.inj (Except.ok.inj h)
        refine ⟨hk, ?_⟩
        split
        · exact Stmt.tidy_assign_of_isAtom
            (Expr.isAtom_of_needsTemp (hk _ v (Known.mem_of_find? hfind)))
        · exact hs
    | _ =>
      obtain ⟨rfl, rfl⟩ := Prod.mk.inj (Except.ok.inj h)
      exact ⟨hk, hs⟩
  | put off data =>
    obtain ⟨ty, -, h⟩ := bind_eq_ok.mp h
    obtain ⟨rfl, rfl⟩ := Prod.mk.inj (Except.ok.inj h)
    refine ⟨?_, hs⟩
    split
    · exact (hk.forget _).learn (hs.1 data (by simp [Stmt.operands])) _
    · exact hk.forget _
  | putIx w ix bias data =>
    obtain ⟨rfl, rfl⟩ := Prod.mk.inj (Except.ok.inj h)
    exact ⟨hk.forget _, hs⟩
  | effect e =>
    obtain ⟨rfl, rfl⟩ := Prod.mk.inj (Except.ok.inj h)
    refine ⟨?_, hs⟩
    split
    · intro r e' hmem
      simp at hmem
    · exact hk
  | _ =>
    obtain ⟨rfl, rfl⟩ := Prod.mk.inj (Except.ok.inj h)
    exact ⟨hk, hs⟩

theorem stmts_tidy (hk : k.Plain) (hss : ∀ s ∈ ss, s.Tidy) (h : stmts temps k ss = .ok ss') :
    ∀ s ∈ ss', s.Tidy := by
  induction ss generalizing k ss' with
  | nil =>
    obtain rfl := Except.ok.inj h
    simp
  | cons s ss ih =>
    rw [List.forall_mem_cons] at hss
    simp only [stmts, bind_eq_ok] at h
    obtain ⟨⟨k₁, s₁⟩, hs, rest, hrest, heq⟩ := h
    obtain rfl := Except.ok.inj heq
    obtain ⟨hk₁, hs₁⟩ := stmt_tidy hk hss.1 hs
    exact List.forall_mem_cons.mpr ⟨hs₁, ih hk₁ hss.2 hrest⟩

end RegisterReads

namespace Propagate

variable {σ σ' : Subst} {dst : Temp} {src src' : Expr} {s : Stmt} {ss ss' : List Stmt}

/-- What is copied is exactly what may stand as an operand. -/
theorem needsTemp_of_isCopyable {e : Expr} (h : isCopyable e = true) : e.needsTemp = false := by
  cases e <;> simp_all [isCopyable, Expr.needsTemp]

/-- The replacements need no temporaries. -/
def Plain (σ : Subst) : Prop := ∀ e, e.needsTemp = false → (σ.apply e).needsTemp = false

theorem plain_empty : Plain .empty := fun e he => by rwa [apply_empty]

theorem Plain.bind {e : Expr} (h : Plain σ) (he : e.needsTemp = false) (t : Temp) :
    Plain (σ.bind t e) := by
  intro a ha
  cases a with
  | tmp u =>
    have hu := h (.tmp u) rfl
    simp only [Subst.apply, Subst.bind] at hu ⊢
    split
    · exact he
    · exact hu
  | const c => exact ha
  | _ => simp [Expr.needsTemp] at ha

/-- A simplified right side is an operand, a constant, or has the operands it had. -/
theorem source_tidy (hσ : Plain σ) (hs : (Stmt.assign dst src).Tidy)
    (h : source σ src = .ok src') : (Stmt.assign dst src').Tidy := by
  obtain ⟨hmissing, hneeds⟩ := Stmt.tidy_assign.mp hs
  unfold source at h
  split at h
  · obtain rfl := Except.ok.inj h
    cases src with
    | tmp t => exact Stmt.tidy_assign_of_isAtom (Expr.isAtom_of_needsTemp (hσ (.tmp t) rfl))
    | const c => exact hs
    | _ => simp_all [Expr.isAtom]
  · obtain ⟨-, -, h⟩ := bind_eq_ok.mp h
    have hsim : src.Similar (fun c c' => c' = σ.apply c) (src.mapChildren σ.apply) :=
      Expr.similar_mapChildren fun _ _ => rfl
    have hneeds' : ∀ c ∈ (src.mapChildren σ.apply).children, c.needsTemp = false :=
      forall_of_forall₂ hsim.children fun c hc c' hcc' => hcc' ▸ hσ c (hneeds c hc)
    rcases Expr.simplify_eq_ok h with rfl | hmem | ⟨c, rfl⟩
    · refine Stmt.tidy_assign.mpr ⟨fun heq => hmissing ?_, hneeds'⟩
      cases src <;> simp_all [Expr.mapChildren]
    · exact Stmt.tidy_assign_of_isAtom (Expr.isAtom_of_needsTemp (hneeds' src' hmem))
    · exact Stmt.tidy_assign_of_isAtom rfl

/-- Replacing operands by atoms that are no floating-point constants keeps a statement tidy. -/
theorem mapOperands_tidy (hσ : Plain σ) (hs : s.Tidy) (hacts : s.acts = true) :
    (s.mapOperands σ.apply).Tidy := by
  have hsim : s.Similar (fun e e' => e' = σ.apply e) id (s.mapOperands σ.apply) :=
    Stmt.similar_mapOperands fun _ _ => rfl
  have hneeds : ∀ e ∈ s.operands, e.needsTemp = false := by
    cases s with
    | missing | noop | assign => simp [Stmt.acts] at hacts
    | _ => exact hs.1
  refine ⟨Stmt.normal_of_acts (hsim.acts.trans hacts) ?_, ?_⟩
  · exact forall_of_forall₂ hsim.operands fun e he e' hee' => hee' ▸ hσ e (hneeds e he)
  · cases s <;> exact hs.2

theorem stmt_tidy {r : Option Stmt} (hσ : Plain σ) (hs : s.Tidy) (h : stmt σ s = .ok (σ', r)) :
    Plain σ' ∧ ∀ s' ∈ r, s'.Tidy := by
  cases s with
  | missing | noop => exact hs.1.elim
  | assign dst src =>
    obtain ⟨src', hsrc, h⟩ := bind_eq_ok.mp h
    rw [Except.ok.injEq] at h
    split at h
    · rename_i hcopy
      obtain ⟨rfl, rfl⟩ := Prod.mk.inj h
      exact ⟨hσ.bind (needsTemp_of_isCopyable hcopy) dst, by simp⟩
    · obtain ⟨rfl, rfl⟩ := Prod.mk.inj h
      exact ⟨hσ, by simpa using source_tidy hσ hs hsrc⟩
  | exit guard kind dst =>
    obtain ⟨rfl, rfl⟩ := Prod.mk.inj (Except.ok.inj h)
    refine ⟨hσ, fun s' hs' => ?_⟩
    split at hs'
    · simp at hs'
    · obtain rfl := Option.some.inj hs'
      exact mapOperands_tidy hσ hs rfl
  | _ =>
    obtain ⟨_, -, h⟩ := bind_eq_ok.mp h
    obtain ⟨rfl, rfl⟩ := Prod.mk.inj (Except.ok.inj h)
    refine ⟨hσ, fun s' hs' => ?_⟩
    obtain rfl := Option.some.inj hs'
    exact mapOperands_tidy hσ hs rfl

theorem stmts_tidy (hσ : Plain σ) (hss : ∀ s ∈ ss, s.Tidy) (h : stmts σ ss = .ok (σ', ss')) :
    Plain σ' ∧ ∀ s ∈ ss', s.Tidy := by
  induction ss generalizing σ ss' with
  | nil =>
    obtain ⟨rfl, rfl⟩ := Prod.mk.inj (Except.ok.inj h)
    exact ⟨hσ, by simp⟩
  | cons s ss ih =>
    rw [List.forall_mem_cons] at hss
    simp only [stmts, bind_eq_ok] at h
    obtain ⟨⟨σ₁, r⟩, hs, ⟨σ₂, rest⟩, hrest, heq⟩ := h
    obtain ⟨rfl, rfl⟩ := Prod.mk.inj (Except.ok.inj heq)
    obtain ⟨hσ₁, hr⟩ := stmt_tidy hσ hss.1 hs
    obtain ⟨hσ₂, hrest⟩ := ih hσ₁ hss.2 hrest
    refine ⟨hσ₂, List.forall_mem_append.mpr ⟨?_, hrest⟩⟩
    simpa using hr

end Propagate

namespace Sharing

variable {k k' : Known} {s s' : Stmt} {ss : List Stmt}

/-- Renamed temporaries are temporaries, and the constant of a computation stays in its place. -/
theorem tidy_expr_rename {dst : Temp} {x : Computation} (f : Temp → Temp)
    (h : (Stmt.assign dst x.expr).Tidy) : (Stmt.assign dst (x.rename f).expr).Tidy := by
  rw [Stmt.tidy_assign] at h ⊢
  obtain ⟨shape, op, left, right, c⟩ := x
  cases shape with
  | unary | tempTemp | constant =>
    simp [Computation.rename, Computation.expr, Expr.children, Expr.needsTemp]
  | tempConst | constTemp =>
    simpa [Computation.rename, Computation.expr, Expr.children, Expr.needsTemp] using h

theorem Shared.tidy (h : Shared k s k' s') (hs : s.Tidy) : s'.Tidy := by
  cases h with
  | same => exact hs
  | copy => exact Stmt.tidy_assign_of_isAtom rfl
  | record => exact tidy_expr_rename _ hs

theorem stmts_tidy (hss : ∀ s ∈ ss, s.Tidy) : ∀ s ∈ stmts k ss, s.Tidy := by
  induction ss generalizing k with
  | nil => simp [stmts]
  | cons s ss ih =>
    rw [List.forall_mem_cons] at hss
    exact List.forall_mem_cons.mpr ⟨(stmt_shared k s).tidy hss.1, ih hss.2⟩

end Sharing

namespace Chain

variable {ch : Links} {s : Stmt}

/-- The number that a sum ends in is none of the floating-point constants. -/
theorem tidy_sum (dst root : Temp) (delta : UInt64) (ty : Ty) :
    (Stmt.assign dst (sum root delta ty)).Tidy := by
  have htag : ty.tag ≠ .f64i := by cases ty <;> simp [Ty.tag]
  rw [Stmt.tidy_assign]
  unfold sum
  dsimp only
  split <;> simp [Expr.children, Expr.needsTemp, Const.ofTy, htag]

/-- An index is left as it is or becomes a temporary. -/
theorem needsTemp_index (w : Window) {ix : Expr} (bias : Int64) (h : ix.needsTemp = false) :
    (index ch w ix bias).1.needsTemp = false := by
  unfold index
  split
  · split
    · dsimp only
      split <;> rfl
    · rfl
  · exact h

theorem source_tidy {dst : Temp} {src : Expr} (hs : (Stmt.assign dst src).Tidy) :
    (Stmt.assign dst (source ch src)).Tidy := by
  unfold source
  split
  · rename_i w ix bias
    have hix := (Stmt.tidy_assign.mp hs).2 ix (by simp [Expr.children])
    refine Stmt.tidy_assign.mpr ⟨by simp, ?_⟩
    simpa [Expr.children] using needsTemp_index w bias hix
  · split
    · exact hs
    · dsimp only
      split
      · exact hs
      · exact tidy_sum _ _ _ _

theorem stmt_tidy (hs : s.Tidy) : (stmt ch s).Tidy := by
  cases s with
  | assign dst src => exact source_tidy hs
  | putIx w ix bias data =>
    obtain ⟨hneeds, hplain⟩ := hs
    have hix := hneeds ix (by simp [Stmt.operands])
    have hdata := hneeds data (by simp [Stmt.operands])
    refine ⟨?_, hplain⟩
    simpa [stmt, Stmt.Normal, Stmt.operands] using ⟨needsTemp_index w bias hix, hdata⟩
  | _ => exact hs

end Chain

namespace WindowReads

variable {temps : Array Ty} {acc : Access} {ty : Ty} {i : Nat} {before ss ss' : List Stmt}
  {s s' : Stmt}

/-- A value that is found was written by a statement in front. -/
theorem needsTemp_of_search {n j : Nat} {v : Expr} (hbefore : ∀ s ∈ before, s.Tidy)
    (h : search temps acc ty n before = .ok (.value j v)) : v.needsTemp = false := by
  induction before generalizing n with
  | nil => exact absurd h search_nil
  | cons s before ih =>
    rw [List.forall_mem_cons] at hbefore
    cases n with
    | zero => simp [search] at h
    | succ n =>
      rcases search_cons h with ⟨w, ix, bias, rfl, -⟩ | ⟨-, h⟩
      · exact hbefore.1.1 v (by simp [Stmt.operands])
      · exact ih hbefore.2 h

theorem stmt_tidy (hbefore : ∀ s ∈ before, s.Tidy) (hs : s.Tidy)
    (h : (stmt temps i before s).result = .ok s') : s'.Tidy := by
  have hsame (hpure : (stmt temps i before s).result = .ok s) : s'.Tidy := by
    rw [hpure, Except.ok.injEq] at h
    exact h ▸ hs
  cases s with
  | assign dst src =>
    cases src with
    | getIx w ix bias =>
      simp only [stmt, Journaled.result_bind_eq_ok, Journaled.result_silent_eq_ok] at h
      obtain ⟨found, hfound, h⟩ := h
      cases found with
      | start =>
        obtain rfl := Except.ok.inj h
        exact hs
      | stop j rel =>
        obtain ⟨_, -, h⟩ := Journaled.result_bind_eq_ok.mp h
        obtain rfl := Except.ok.inj h
        exact hs
      | value j v =>
        obtain ⟨_, -, h⟩ := Journaled.result_bind_eq_ok.mp h
        obtain rfl := Except.ok.inj h
        exact Stmt.tidy_assign_of_isAtom
          (Expr.isAtom_of_needsTemp (needsTemp_of_search hbefore hfound))
    | _ => exact hsame rfl
  | _ => exact hsame rfl

theorem stmts_tidy (hbefore : ∀ s ∈ before, s.Tidy) (hss : ∀ s ∈ ss, s.Tidy)
    (h : (stmts temps i before ss).result = .ok ss') : ∀ s ∈ ss', s.Tidy := by
  induction ss generalizing i before ss' with
  | nil =>
    obtain rfl := Except.ok.inj h
    simp
  | cons s ss ih =>
    rw [List.forall_mem_cons] at hss
    simp only [stmts, Journaled.result_bind_eq_ok, Journaled.result_pure] at h
    obtain ⟨s', hs, rest, hrest, heq⟩ := h
    obtain rfl := Except.ok.inj heq
    exact List.forall_mem_cons.mpr ⟨stmt_tidy hbefore hss.1 hs,
      ih (List.forall_mem_cons.mpr ⟨hss.1, hbefore⟩) hss.2 hrest⟩

end WindowReads

/-! ## Passes that make the block flat again -/

/-- Neither a statement nor its replacement leaves for a floating-point constant. -/
theorem Specialize.leavesPlain_replacement {sp : Specializer} {temps : Array Ty} {ss : List Stmt}
    {rs : List (Option Stmt)} (hss : ∀ s ∈ ss, s.LeavesPlain)
    (h : ss.mapM (replacement? sp temps) = .ok rs) :
    ∀ s ∈ (rs.zip ss).map fun r => r.1.getD r.2, s.LeavesPlain := by
  induction ss generalizing rs with
  | nil => simp
  | cons s ss ih =>
    rw [List.forall_mem_cons] at hss
    simp only [List.mapM_cons, bind_eq_ok] at h
    obtain ⟨r, hr, rest, hrest, heq⟩ := h
    obtain rfl := Except.ok.inj heq
    rw [List.zip_cons_cons, List.map_cons, List.forall_mem_cons]
    refine ⟨?_, ih hss.2 hrest⟩
    cases r with
    | none => exact hss.1
    | some s' =>
      -- only the assignment of a call is replaced, and by an assignment
      unfold replacement? at hr
      split at hr
      · split at hr
        · simp at hr
        · obtain ⟨xty, -, hr⟩ := bind_eq_ok.mp hr
          rw [Except.ok.injEq, Option.ite_none_right_eq_some, Option.some.injEq] at hr
          exact hr.2 ▸ Stmt.leavesPlain_assign _ _
      · simp at hr

namespace Unroll

variable {b : Block} {d : Temp} {s s' : Stmt} {body ss : List Stmt}

/-- A copy of an exit has the target of the exit. -/
theorem exit?_of_shiftStmt (h : shiftStmt d s = .ok s') : s'.exit? = s.exit? := by
  simp only [shiftStmt, Stmt.mapOperandsM_eq, bind_eq_ok] at h
  obtain ⟨-, -, t, ⟨es, -, ht⟩, h⟩ := h
  obtain rfl := Except.ok.inj ht
  rw [← s.exit?_withOperands es]
  split at h
  · rename_i heq
    obtain rfl := Except.ok.inj h
    rw [heq]
    rfl
  · rename_i heq
    obtain rfl := Except.ok.inj h
    rw [heq]
    rfl
  · obtain rfl := Except.ok.inj h
    rfl

theorem leavesPlain_mapM (hbody : ∀ s ∈ body, s.LeavesPlain)
    (h : body.mapM (shiftStmt d) = .ok ss) : ∀ s ∈ ss, s.LeavesPlain := by
  induction body generalizing ss with
  | nil =>
    obtain rfl := Except.ok.inj h
    simp
  | cons s body ih =>
    rw [List.forall_mem_cons] at hbody
    simp only [List.mapM_cons, bind_eq_ok] at h
    obtain ⟨s', hs, rest, hrest, heq⟩ := h
    obtain rfl := Except.ok.inj heq
    refine List.forall_mem_cons.mpr ⟨fun c hc => ?_, ih hbody.2 hrest⟩
    exact hbody.1 c (exit?_of_shiftStmt hs ▸ hc)

theorem leavesPlain_copies {size : Temp} {n k : Nat} (hbody : ∀ s ∈ body, s.LeavesPlain)
    (h : copies size body n k = .ok ss) : ∀ s ∈ ss, s.LeavesPlain := by
  induction n generalizing k ss with
  | zero =>
    obtain rfl := Except.ok.inj h
    simp
  | succ n ih =>
    simp only [copies, bind_eq_ok] at h
    obtain ⟨ss', hss', rest, hrest, heq⟩ := h
    obtain rfl := Except.ok.inj heq
    exact List.forall_mem_append.mpr ⟨leavesPlain_mapM hbody hss', ih hrest⟩

theorem tidy_of_repeated {r : Block} {n : Nat} (hb : ∀ s ∈ b.stmts, s.LeavesPlain)
    (h : repeated b n = .ok r) : r.Tidy := by
  obtain ⟨more, hmore, h⟩ := bind_eq_ok.mp h
  exact Block.tidy_of_flatten
    (List.forall_mem_append.mpr ⟨hb, leavesPlain_copies hb hmore⟩) h

/-- The exit that is inverted leaves for the successor of the block, which has the tag of an
address. -/
theorem leavesPlain_loop {addr : UInt64} {l : Loop} (hb : ∀ s ∈ b.stmts, s.LeavesPlain)
    (h : loop? b addr = some l) : ∀ s ∈ l.body.stmts, s.LeavesPlain := by
  unfold loop? at h
  split at h
  · rename_i next hkind hnext
    rw [Option.ite_none_right_eq_some] at h
    obtain ⟨htag, h⟩ := h
    by_cases haddr : next.bits = addr
    · rw [if_pos haddr, Option.some.injEq] at h
      exact h ▸ hb
    · rw [if_neg haddr, Option.map_eq_some_iff] at h
      obtain ⟨r, hr, rfl⟩ := h
      unfold invert? at hr
      split at hr
      · rename_i front guard dst noops hsplit
        obtain ⟨hstmts, -⟩ := splitLast?_spec hsplit
        rw [Option.ite_none_right_eq_some, Option.some.injEq] at hr
        obtain ⟨-, rfl⟩ := hr
        rw [hstmts, List.forall_mem_append, List.forall_mem_cons] at hb
        refine List.forall_mem_append.mpr ⟨hb.1, List.forall_mem_cons.mpr ⟨?_, hb.2.2⟩⟩
        rintro c ⟨⟩ hf64i
        simp [hf64i] at htag
      · simp at hr
  · simp at h

end Unroll

/-! ## The pipeline -/

/-- Whatever the computation returns satisfies `Q`. -/
def Journaled.Yields {α : Type} (Q : α → Prop) (x : Journaled α) : Prop :=
  ∀ a, x.result = .ok a → Q a

namespace Journaled

variable {α β : Type} {Q : α → Prop} {R : β → Prop}

theorem yields_pure {a : α} (h : Q a) : (pure a : Journaled α).Yields Q := by
  intro a' heq
  exact Except.ok.inj heq ▸ h

theorem Yields.bind {x : Journaled α} {f : α → Journaled β} (hx : x.Yields Q)
    (hf : ∀ a, Q a → (f a).Yields R) : (x >>= f).Yields R := by
  intro b hb
  obtain ⟨a, ha, hb⟩ := result_bind_eq_ok.mp hb
  exact hf a (hx a ha) b hb

/-- What comes behind something whose value does not matter. -/
theorem yields_behind {x : Journaled α} {f : α → Journaled β} (hf : ∀ a, (f a).Yields R) :
    (x >>= f).Yields R :=
  Yields.bind (Q := fun _ => True) (fun _ _ => trivial) fun a _ => hf a

end Journaled

namespace Optimizer

open Journaled

variable {o : Optimizer} {b : Block} {addr : UInt64} {indexed : Bool}

theorem yields_stage {s : Stage} {pass : Block → Journaled Block} (h : (pass b).Yields Block.Tidy) :
    (stage s pass b).Yields Block.Tidy := by
  intro r hr
  rw [result_stage] at hr
  exact h r hr

theorem yields_quiet {s : Stage} {pass : Block → Except Fault Block}
    (h : ∀ r, pass b = .ok r → r.Tidy) : (quiet s pass b).Yields Block.Tidy :=
  yields_stage fun r hr => h r (result_silent_eq_ok.mp hr)

theorem yields_flat (hb : ∀ s ∈ b.stmts, s.LeavesPlain) :
    (quiet .flat Block.flatten b).Yields Block.Tidy :=
  yields_quiet fun _ hr => Block.tidy_of_flatten hb hr

theorem yields_gets (hb : b.Tidy) : (quiet .gets Block.reuseReads b).Yields Block.Tidy := by
  refine yields_quiet fun r hr => ?_
  obtain ⟨ss, hss, heq⟩ := bind_eq_ok.mp hr
  obtain rfl := Except.ok.inj heq
  exact ⟨RegisterReads.stmts_tidy (fun r e he => by simp at he) hb.1 hss, hb.2⟩

theorem yields_puts (hb : b.Tidy) : (quiet .puts (·.dropWrites o.oracle) b).Yields Block.Tidy := by
  refine yields_quiet fun r hr => ?_
  obtain ⟨⟨p, ss⟩, hss, heq⟩ := bind_eq_ok.mp hr
  obtain rfl := Except.ok.inj heq
  exact hb.of_subset (RegisterWrites.subset_of_stmts hss)

theorem yields_cprop (hb : b.Tidy) : (quiet .cprop Block.propagate b).Yields Block.Tidy := by
  refine yields_quiet fun r hr => ?_
  obtain ⟨⟨σ, ss⟩, hss, heq⟩ := bind_eq_ok.mp hr
  obtain rfl := Except.ok.inj heq
  obtain ⟨hσ, htidy⟩ := Propagate.stmts_tidy Propagate.plain_empty hb.1 hss
  exact ⟨htidy, hσ _ hb.2⟩

theorem yields_dead (hb : b.Tidy) : (dead b).Yields Block.Tidy := by
  refine yields_stage fun r hr => ?_
  simp only [Block.sweep, result_bind_eq_ok, result_silent_eq_ok, result_record, result_pure] at hr
  obtain ⟨live, -, -, -, w, hw, -, -, heq⟩ := hr
  obtain rfl := Except.ok.inj heq
  exact hb.of_subset (Liveness.kept_subset hw)

theorem yields_spec (hb : b.Tidy) :
    (quiet .spec (·.specialize o.specializer) b).Yields Block.Tidy := by
  refine yields_quiet fun r hr => ?_
  obtain ⟨rs, hrs, hr⟩ := bind_eq_ok.mp hr
  split at hr
  · exact Block.tidy_of_flatten
      (Specialize.leavesPlain_replacement (fun s hs => (hb.1 s hs).2) hrs) hr
  · exact Except.ok.inj hr ▸ hb

theorem yields_cse (hb : b.Tidy) :
    (quiet .cse (fun b => .ok b.share) b).Yields Block.Tidy := by
  refine yields_quiet fun r hr => ?_
  obtain rfl := Except.ok.inj hr
  exact ⟨Sharing.stmts_tidy hb.1, hb.2⟩

theorem yields_chains (hb : b.Tidy) :
    (quiet .chains (fun b => .ok b.collapse) b).Yields Block.Tidy := by
  refine yields_quiet fun r hr => ?_
  obtain rfl := Except.ok.inj hr
  exact ⟨List.forall_mem_map.mpr fun s hs => Chain.stmt_tidy (hb.1 s hs), hb.2⟩

theorem yields_getis (hb : b.Tidy) : (stage .getis Block.reuseElements b).Yields Block.Tidy := by
  refine yields_stage fun r hr => ?_
  obtain ⟨ss, hss, heq⟩ := result_bind_eq_ok.mp hr
  obtain rfl := Except.ok.inj heq
  exact ⟨WindowReads.stmts_tidy (by simp) hb.1 hss, hb.2⟩

theorem yields_putis (hb : b.Tidy) :
    (stage .putis (·.dropElements o.oracle) b).Yields Block.Tidy := by
  refine yields_stage fun r hr => ?_
  obtain ⟨ss, hss, heq⟩ := result_bind_eq_ok.mp hr
  obtain rfl := Except.ok.inj heq
  exact hb.of_subset (WindowWrites.subset_of_stmts hss)

theorem yields_cheap (hb : b.Tidy) : (o.cheap b).Yields Block.Tidy :=
  (yields_gets hb).bind fun _ hb => (yields_puts hb).bind fun _ hb =>
    (yields_cprop hb).bind fun _ hb => (yields_dead hb).bind fun _ hb =>
      (yields_spec hb).bind fun _ hb => yields_dead hb

theorem yields_expensive (hb : b.Tidy) : (o.expensive b).Yields Block.Tidy :=
  (yields_cse hb).bind fun _ hb => (yields_chains hb).bind fun _ hb =>
    (yields_getis hb).bind fun _ hb => (yields_putis hb).bind fun _ hb => yields_dead hb

theorem yields_polish (hb : b.Tidy) : (o.polish indexed b).Yields Block.Tidy := by
  refine (yields_cheap hb).bind fun b hb => ?_
  cases indexed with
  | false => exact (yields_cse hb).bind fun _ hb => yields_dead hb
  | true => exact (yields_expensive hb).bind fun _ hb => yields_cheap hb

theorem yields_unroll (hb : b.Tidy) : (o.unroll addr indexed b).Yields Block.Tidy := by
  intro r hr
  cases hchosen : Unroll.chosen? b addr o.unrollThresh with
  | none =>
    rw [result_unroll_of_none (Block.unroll_of_none hchosen)] at hr
    exact Except.ok.inj hr ▸ hb
  | some ln =>
    obtain ⟨l, n⟩ := ln
    obtain ⟨hloop, -⟩ := Block.chosen?_spec hchosen
    obtain ⟨o, ho, -⟩ := result_bind_eq_ok.mp hr
    rw [Block.unroll_of_chosen hchosen] at ho
    cases hrep : Unroll.repeated l.body n with
    | error f => simp [hrep, Except.map, Except.mapError] at ho
    | ok u =>
      have hplain := Unroll.leavesPlain_loop (fun s hs => (hb.1 s hs).2) hloop
      rw [result_unroll_of_some (Block.unroll_of_some hchosen hrep)] at hr
      exact yields_polish (Unroll.tidy_of_repeated hplain hrep) r hr

theorem yields_full (hb : b.Tidy) : (o.full addr b).Yields Block.Tidy := by
  unfold full
  split
  · exact yields_behind fun _ => (yields_expensive hb).bind fun _ hb =>
      (yields_cheap hb).bind fun _ hb => yields_unroll hb
  · exact yields_unroll hb

theorem yields_improve (hb : b.Tidy) : (o.improve addr b).Yields Block.Tidy := by
  unfold improve
  split
  · exact yields_pure hb
  · refine (yields_cheap hb).bind fun b hb => ?_
    split
    · exact yields_pure hb
    · exact yields_full hb

theorem yields_optimize (hvalid : o.validate = .ok ()) (hb : ∀ s ∈ b.stmts, s.LeavesPlain) :
    (o.optimize b addr).Yields Block.Tidy := by
  intro r hr
  rw [result_optimize hvalid] at hr
  exact ((yields_flat hb).bind fun _ hb => yields_improve hb) r hr

end Optimizer

/-- In whatever the optimizer returns for a well-formed block, at every level and with every
specializer, each floating-point constant given by its bits is the whole right side of an assignment:
it is no operand, no part of one, no target and no successor. If the block is not nested too deeply,
there is room for temporaries and the specializer offers typed expressions for the calls that can
come up, the optimizer does return a block. -/
theorem optimized_doubles_assigned {o : Optimizer} {b : Block} {addr : UInt64}
    (hb : b.check false = .ok ()) (hvalid : o.validate = .ok ()) :
    (∀ r, (o.optimize b addr).result = .ok r → r.DoublesAssigned) ∧
      ∀ calls, b.NestsWithin Flat.maxDepth → b.Calls calls →
        o.specializer.WellTyped (.calling calls) → o.HasRoom b addr →
        ∃ r, (o.optimize b addr).result = .ok r := by
  obtain ⟨htyped, -, -⟩ := Block.check_eq_ok_iff.mp hb
  constructor
  · intro r hr
    refine (Optimizer.yields_optimize hvalid (fun s hs c hc htag => ?_) r hr).doublesAssigned
    -- the target of an exit is an address, by its tag
    cases s with
    | exit guard kind dst =>
      obtain rfl := Option.some.inj hc
      obtain ⟨defs, -, htarget, -⟩ := htyped.stmts.exists_ok hs
      simp [htag] at htarget
    | _ => simp [Stmt.exit?] at hc
  · intro calls hnest hcalls hspec hroom
    obtain ⟨f, r, -, hr, -⟩ := Optimizer.optimize_returns (Optimizer.admits_calling hspec) hvalid
      (htyped.calling hcalls) hnest hroom
    exact ⟨r, hr⟩

/-- A loop that moves floating-point constants through a register, an element of a window, a copy, a
conditional and a helper call. -/
def Block.ferry : Block where
  temps := #[.f64, .f64, .f64]
  stmts := [.put 8 (.const ⟨.f64i, 1⟩), .assign 0 (.get 8 .f64),
    .putIx ⟨16, .f64, 2⟩ (.const ⟨.u32, 1⟩) 0 (.unop .negF64 (.const ⟨.f64i, 2⟩)),
    .assign 1 (.select (.const ⟨.u8, 1⟩) (.tmp 0) (.getIx ⟨16, .f64, 2⟩ (.const ⟨.u32, 1⟩) 0)),
    .assign 2 (.call "one" .f64 []), .put 40 (.binop (.float .add) (.tmp 1) (.tmp 2)),
    .exit (.get 0 .i1) .boring ⟨.u32, 16⟩]
  next := .const ⟨.u32, 32⟩
  kind := .boring

/-- Knows the value of one helper. -/
def Specializer.one : Specializer :=
  fun callee _ => if callee = "one" then some (.const ⟨.f64i, 0x3ff0000000000000⟩) else none

theorem Specializer.one_wellTyped (P : Policy) : Specializer.one.WellTyped P := by
  intro callee args x temps defs ty hx _ _
  obtain ⟨-, rfl⟩ : callee = "one" ∧ Expr.const ⟨.f64i, 0x3ff0000000000000⟩ = x := by
    simpa [one] using hx
  have hty : ∀ Q : Policy,
      (Expr.const ⟨.f64i, 0x3ff0000000000000⟩).HasTy Q temps defs .f64 :=
    fun _ => ⟨rfl, by decide, by decide⟩
  exact ⟨Expr.nestsWithin_of_isAtom rfl _, .f64, hty _, fun h => h ▸ hty P⟩

theorem optimized_doubles_assigned_ferry :
    ∃ r, (({ Optimizer.default with specializer := .one } : Optimizer).optimize .ferry 16).result =
      .ok r ∧ r.DoublesAssigned := by
  obtain ⟨hform, hreturns⟩ := @optimized_doubles_assigned
    { Optimizer.default with specializer := .one } .ferry 16 rfl rfl
  obtain ⟨r, hr⟩ := hreturns _ (by decide +kernel) Block.ferry.calls_any
    (Specializer.one_wellTyped _) (by decide +kernel)
  exact ⟨r, hr, hform r hr⟩

end Straightline
