import Mathlib
import Straightline.Proofs.Emission
import Straightline.Proofs.Flat
import Straightline.Proofs.Substitution

/-!
# Trees mean what the flat block means

Building trees counts the uses of each temporary first, and that is the only part of it that can
fail: a use of an undeclared temporary, a missing operand or statement. Typed blocks have none of
these.

The walk over the statements then lets bindings of temporaries with a single use wait. Moving them
into an operand is a substitution, `Expr.subst`, because no waiting binding is needed twice. A point
of the walk is described by `Point`, for what is defined in the block and in the trees, and by
`Behind`, for the machines that run them: the machine of the trees lacks the waiting temporaries, but
what waits for a temporary has the value of the temporary now.
-/

namespace Straightline

namespace Nesting

variable {P : Policy} {temps : Array Ty} {env : Env} {defs defs' rest ts us : List Temp}
  {es : List Expr} {e next : Expr} {s : Stmt} {ss : List Stmt} {w : Waiting} {t : Temp} {T : Ty}

/-! ## Counting uses -/

/-- A temporary with a type has a number in range. -/
theorem inRange_of_tempTy (h : tempTy temps t = .ok T) :
    0 ≤ t.toInt ∧ t.toInt < temps.size :=
  ⟨(tempTy_eq_ok.mp h).1, toInt_lt_of_tempTy h⟩

theorem usesOf_eq_ok
    (h : ∀ e ∈ es, e ≠ .missing ∧ ∀ t, e = .tmp t → ∃ T, tempTy temps t = .ok T) :
    usesOf temps.size es = .ok (es.filterMap Expr.temp?) := by
  induction es with
  | nil => rfl
  | cons e es ih =>
    rw [List.forall_mem_cons] at h
    obtain ⟨⟨hmissing, htemp⟩, hrest⟩ := h
    cases e with
    | missing => exact absurd rfl hmissing
    | tmp t =>
      obtain ⟨T, hT⟩ := htemp t rfl
      rw [usesOf, if_pos (inRange_of_tempTy hT), ih hrest]
      rfl
    | _ => exact ih hrest

theorem usesOfStmts_eq_ok (h : Stmt.AllOk P temps defs ss) :
    usesOfStmts temps.size ss = .ok (ss.flatMap Stmt.uses) := by
  induction ss generalizing defs with
  | nil => rfl
  | cons s ss ih =>
    have hnodes : ∀ e ∈ s.nodes, e ≠ .missing ∧ ∀ t, e = .tmp t → ∃ T, tempTy temps t = .ok T := by
      intro e he
      obtain ⟨T, hT⟩ := h.1.node he
      exact ⟨hT.ne_missing, fun t ht => ⟨T, (ht ▸ hT).1⟩⟩
    have huses : s.nodes.filterMap Expr.temp? = s.uses := List.filterMap_flatMap
    rw [usesOfStmts, Stmt.demand_eq_ok h.1.ne_missing, usesOf_eq_ok hnodes, ih h.2, huses]
    rfl

theorem assignsDeclared_of_ok (h : s.Ok P temps defs) : assignsDeclared temps.size s = true := by
  cases s with
  | assign dst src =>
    obtain ⟨T, hT⟩ := (h.of_def? rfl).1
    obtain ⟨h0, hlt⟩ := inRange_of_tempTy hT
    simp [assignsDeclared, h0, hlt]
  | _ => rfl

theorem all_assignsDeclared (h : Stmt.AllOk P temps defs ss) :
    ss.all (assignsDeclared temps.size) = true := by
  induction ss generalizing defs with
  | nil => rfl
  | cons s ss ih => rw [List.all_cons, assignsDeclared_of_ok h.1, ih h.2, Bool.and_self]

/-- The uses in the statements and in the successor. -/
def usesIn (ss : List Stmt) (next : Expr) : List Temp := ss.flatMap Stmt.uses ++ next.uses

theorem usesIn_cons (s : Stmt) (ss : List Stmt) (next : Expr) :
    usesIn (s :: ss) next = s.uses ++ usesIn ss next := by
  rw [usesIn, List.flatMap_cons, List.append_assoc, usesIn]

/-- What a statement that keeps the rules uses is defined. -/
theorem mem_of_mem_uses (h : s.Ok P temps defs) (ht : t ∈ s.uses) : t ∈ defs := by
  obtain ⟨e, he, ht⟩ := List.mem_flatMap.mp ht
  obtain ⟨U, hU⟩ := h.operand he
  obtain ⟨V, hV⟩ := hU.node (Expr.mem_uses.mp ht)
  exact hV.2

/-! ## Waiting bindings -/

/-- What stands for the temporary: the expression that waits for it, or the temporary itself. -/
def Waiting.value (w : Waiting) (t : Temp) : Expr := (w.take t).1

/-- The bindings of other temporaries than the listed ones. -/
def Waiting.without (w : Waiting) (ts : List Temp) : Waiting := w.filter (·.temp ∉ ts)

namespace Waiting

theorem mem_without {h : Held} : h ∈ w.without ts ↔ h ∈ w ∧ h.temp ∉ ts := by
  simp [without]

theorem without_subset (w : Waiting) (ts : List Temp) : w.without ts ⊆ w :=
  fun _ hx => (mem_without.mp hx).1

theorem without_append (w : Waiting) (ts us : List Temp) :
    (w.without ts).without us = w.without (ts ++ us) := by
  rw [without, without, List.filter_filter, without]
  congr 1
  funext h
  simp [Bool.and_comm]

theorem without_of_forall (h : ∀ x ∈ w, x.temp ∉ ts) : w.without ts = w := by
  rw [without, List.filter_eq_self]
  simpa using h

theorem value_of_forall_ne (h : ∀ x ∈ w, x.temp ≠ t) : w.value t = .tmp t := by
  have hnone : w.find? (·.temp = t) = none := by simpa using h
  rw [value, take, hnone]

/-- The value of a temporary is the expression that waits for it. -/
theorem value_of_mem (hnodup : (w.map Held.temp).Nodup) {h : Held} (hh : h ∈ w) :
    w.value h.temp = h.expr := by
  have hsome : (w.find? (·.temp = h.temp)).isSome := by
    rw [List.find?_isSome]
    exact ⟨h, hh, by simp⟩
  obtain ⟨x, hx⟩ := Option.isSome_iff_exists.mp hsome
  have hmem := List.mem_of_find?_eq_some hx
  have htemp : x.temp = h.temp := by simpa using List.find?_some hx
  rw [value, take, hx, List.inj_on_of_nodup_map hnodup hmem hh htemp]

/-- Taking other bindings out does not change a value. -/
theorem value_without (ht : t ∉ ts) : (w.without ts).value t = w.value t := by
  have hfind : (w.without ts).find? (·.temp = t) = w.find? (·.temp = t) := by
    rw [without, List.find?_filter]
    congr 1
    funext h
    by_cases heq : h.temp = t <;> simp [heq, ht]
  rw [value, value, take, take, hfind]
  cases w.find? (·.temp = t) <;> rfl

theorem take_eq (w : Waiting) (t : Temp) : w.take t = (w.value t, w.without [t]) := by
  refine Prod.ext rfl ?_
  rw [take]
  cases hfind : w.find? (·.temp = t) with
  | some h => simp [without, erase]
  | none =>
    rw [without_of_forall]
    simpa using hfind

end Waiting

/-! ## Moving bindings in -/

/-- A waiting binding that is needed at most once in `ts ++ us` is not needed in `us` if it is in
`ts`. -/
theorem not_mem_of_count_le {ts us : List Temp} (h : (ts ++ us).count t ≤ 1) (hu : t ∈ us) :
    t ∉ ts := by
  intro ht
  have := List.count_pos_iff.mpr ht
  have := List.count_pos_iff.mpr hu
  rw [List.count_append] at h
  omega

/-- If nothing that waits is needed twice, what waits for one use still does after the others. -/
theorem Waiting.value_without_of_count_le (hw : ∀ h ∈ w, (ts ++ us).count h.temp ≤ 1)
    (ht : t ∈ us) : (w.without ts).value t = w.value t := by
  by_cases hheld : ∃ h ∈ w, h.temp = t
  · obtain ⟨h, hh, rfl⟩ := hheld
    exact value_without (not_mem_of_count_le (hw h hh) ht)
  · push Not at hheld
    rw [value_of_forall_ne hheld, value_of_forall_ne fun x hx => hheld x (mem_without.mp hx).1]

theorem moveInAll_eq
    (hes : ∀ e ∈ es, ∀ w : Waiting, (∀ h ∈ w, e.uses.count h.temp ≤ 1) →
      moveIn w e = (e.subst w.value, w.without e.uses))
    (hw : ∀ h ∈ w, (es.flatMap Expr.uses).count h.temp ≤ 1) :
    moveInAll w es = (es.map (Expr.subst w.value), w.without (es.flatMap Expr.uses)) := by
  induction es generalizing w with
  | nil => simp [moveInAll, Waiting.without]
  | cons e es ih =>
    rw [List.forall_mem_cons] at hes
    simp only [List.flatMap_cons] at hw
    have hhead : moveIn w e = (e.subst w.value, w.without e.uses) := by
      refine hes.1 w fun h hh => le_trans ?_ (hw h hh)
      rw [List.count_append]
      exact Nat.le_add_right _ _
    have htail := ih (w := w.without e.uses) hes.2 fun h hh => by
      refine le_trans ?_ (hw h (Waiting.mem_without.mp hh).1)
      rw [List.count_append]
      exact Nat.le_add_left _ _
    have hsame : es.map (Expr.subst (w.without e.uses).value) = es.map (Expr.subst w.value) := by
      refine List.map_congr_left fun c hc => Expr.subst_congr fun t ht => ?_
      exact Waiting.value_without_of_count_le hw (List.mem_flatMap.mpr ⟨c, hc, ht⟩)
    simp only [moveInAll, hhead, htail, hsame, List.map_cons, List.flatMap_cons,
      Waiting.without_append]

/-- Bindings that are needed at most once are moved in by a substitution. -/
theorem moveIn_eq (hw : ∀ h ∈ w, e.uses.count h.temp ≤ 1) :
    moveIn w e = (e.subst w.value, w.without e.uses) := by
  induction e using Expr.childInduct generalizing w with
  | h e ih =>
    cases hatom : e.isAtom with
    | true =>
      cases e with
      | tmp t => simp only [moveIn, Waiting.take_eq, Expr.subst, Expr.uses_tmp]
      | const c => simp [moveIn, Expr.subst, Waiting.without]
      | _ => simp [Expr.isAtom] at hatom
    | false =>
      rw [Expr.uses_of_isAtom_eq_false hatom] at hw ⊢
      have hall := moveInAll_eq (fun c hc w hw => ih c hc hw) hw
      rw [moveIn_of_isAtom_eq_false hatom, hall, Expr.subst_eq hatom]

theorem moveInStmt_eq (hw : ∀ h ∈ w, s.uses.count h.temp ≤ 1) :
    moveInStmt w s = (s.subst w.value, w.without s.uses) := by
  have hall := moveInAll_eq (fun _ _ _ => moveIn_eq) hw
  rw [moveInStmt, Stmt.mapOperandsM_eq]
  simp only [bind, StateT.bind, pure, StateT.pure, mapM_moveIn, hall]
  rfl

/-! ## Points of the walk -/

/-- A point of the walk: `defs` is defined in the block and `defs'` in the trees, `rest` lists the
uses to come, and `w` waits. -/
structure Point (P : Policy) (temps : Array Ty) (defs defs' rest : List Temp) (w : Waiting) :
    Prop where
  sub : defs' ⊆ defs
  nodup : (w.map Held.temp).Nodup
  once : ∀ h ∈ w, rest.count h.temp = 1
  held : ∀ h ∈ w, h.temp ∈ defs ∧ h.temp ∉ defs' ∧
    ∃ T, tempTy temps h.temp = .ok T ∧ h.expr.HasTy P temps defs' T
  reads : ∀ h ∈ w, h.load = h.expr.nodes.any isLoad ∧ h.get = h.expr.nodes.any isGet
  avail : ∀ t ∈ rest, t ∈ defs → t ∈ defs' ∨ ∃ h ∈ w, h.temp = t

theorem point_nil (P : Policy) (temps : Array Ty) (rest : List Temp) :
    Point P temps [] [] rest [] :=
  ⟨List.Subset.refl _, List.nodup_nil, by simp, by simp, by simp, by simp⟩

namespace Point

theorem count_le (h : Point P temps defs defs' (ts ++ rest) w) :
    ∀ x ∈ w, ts.count x.temp ≤ 1 := by
  intro x hx
  have := h.once x hx
  rw [List.count_append] at this
  omega

/-- What stands for a temporary that is still to be used has its type. -/
theorem hasTy_value {U : Ty} (h : Point P temps defs defs' rest w) (ht : t ∈ rest)
    (hU : (Expr.tmp t).HasTy P temps defs U) : (w.value t).HasTy P temps defs' U := by
  rcases h.avail t ht hU.2 with hdef | ⟨x, hx, rfl⟩
  · have hne : ∀ x ∈ w, x.temp ≠ t := fun x hx heq => (h.held x hx).2.1 (heq ▸ hdef)
    rw [Waiting.value_of_forall_ne hne]
    exact ⟨hU.1, hdef⟩
  · obtain ⟨-, -, T, hT, hexpr⟩ := h.held x hx
    rw [Waiting.value_of_mem h.nodup hx]
    rw [hU.1, Except.ok.injEq] at hT
    exact hT ▸ hexpr

/-- Used bindings wait no longer. -/
theorem without (h : Point P temps defs defs' (ts ++ rest) w) :
    Point P temps defs defs' rest (w.without ts) := by
  refine ⟨h.sub, ?_, ?_, ?_, ?_, ?_⟩
  · exact h.nodup.sublist (List.filter_sublist.map _)
  · intro x hx
    obtain ⟨hw, hts⟩ := Waiting.mem_without.mp hx
    have hone := h.once x hw
    rwa [List.count_append, List.count_eq_zero.mpr hts, Nat.zero_add] at hone
  · exact fun x hx => h.held x (Waiting.mem_without.mp hx).1
  · exact fun x hx => h.reads x (Waiting.mem_without.mp hx).1
  · intro t ht hdef
    rcases h.avail t (List.mem_append_right _ ht) hdef with hdef' | ⟨x, hx, rfl⟩
    · exact .inl hdef'
    · have hts := not_mem_of_count_le (h.once x hx).le ht
      exact .inr ⟨x, Waiting.mem_without.mpr ⟨hx, hts⟩, rfl⟩

/-- No binding of an undefined temporary waits. -/
theorem temp_ne (h : Point P temps defs defs' rest w) (ht : t ∉ defs) : ∀ x ∈ w, x.temp ≠ t :=
  fun x hx heq => ht (heq ▸ (h.held x hx).1)

theorem hold_eq (h : Point P temps defs defs' rest w) (ht : t ∉ defs) (i : Nat) (e : Expr) :
    w.hold i t e = w ++ [⟨t, e, i, e.nodes.any isLoad, e.nodes.any isGet⟩] := by
  have hself : w.erase t = w := by
    rw [Waiting.erase, List.filter_eq_self]
    simpa using h.temp_ne ht
  rw [Waiting.hold, hself]

/-- The binding of a temporary with a single use waits. -/
theorem hold (h : Point P temps defs defs' rest w) (ht : t ∉ defs) (hone : rest.count t = 1)
    (hT : tempTy temps t = .ok T) (he : e.HasTy P temps defs' T) (i : Nat) :
    Point P temps (t :: defs) defs' rest (w.hold i t e) := by
  rw [h.hold_eq ht]
  refine ⟨fun u hu => List.mem_cons_of_mem _ (h.sub hu), ?_, ?_, ?_, ?_, ?_⟩
  · rw [List.map_append, List.nodup_append]
    refine ⟨h.nodup, by simp, ?_⟩
    intro u hu v hv
    obtain ⟨x, hx, rfl⟩ := List.mem_map.mp hu
    rw [List.map_singleton, List.mem_singleton] at hv
    exact hv ▸ h.temp_ne ht x hx
  · intro x hx
    rcases List.mem_append.mp hx with hx | hx
    · exact h.once x hx
    · rw [List.mem_singleton] at hx
      exact hx ▸ hone
  · intro x hx
    rcases List.mem_append.mp hx with hx | hx
    · exact ⟨List.mem_cons_of_mem _ (h.held x hx).1, (h.held x hx).2⟩
    · rw [List.mem_singleton] at hx
      subst hx
      exact ⟨List.mem_cons_self, fun hdef => ht (h.sub hdef), T, hT, he⟩
  · intro x hx
    rcases List.mem_append.mp hx with hx | hx
    · exact h.reads x hx
    · rw [List.mem_singleton] at hx
      exact hx ▸ ⟨rfl, rfl⟩
  · intro u hu hdef
    rcases List.mem_cons.mp hdef with rfl | hdef
    · exact .inr ⟨_, List.mem_append_right _ (List.mem_singleton.mpr rfl), rfl⟩
    · rcases h.avail u hu hdef with hdef' | ⟨x, hx, hxu⟩
      · exact .inl hdef'
      · exact .inr ⟨x, List.mem_append_left _ hx, hxu⟩

end Point

/-! ## Emitted bindings -/

/-- Bindings with expressions of their types, of temporaries that are not defined. -/
structure Ready (P : Policy) (temps : Array Ty) (defs : List Temp) (l : List Held) : Prop where
  nodup : (l.map Held.temp).Nodup
  held : ∀ h ∈ l, h.temp ∉ defs ∧ ∃ T, tempTy temps h.temp = .ok T ∧ h.expr.HasTy P temps defs T

theorem Ready.tail {h : Held} {l : List Held} (hl : Ready P temps defs (h :: l)) :
    Ready P temps (h.temp :: defs) l := by
  obtain ⟨hfresh, hnodup⟩ := List.nodup_cons.mp hl.nodup
  refine ⟨hnodup, fun x hx => ?_⟩
  obtain ⟨hdef, T, hT, hexpr⟩ := hl.held x (List.mem_cons_of_mem _ hx)
  have hne : x.temp ≠ h.temp := fun heq => hfresh (heq ▸ List.mem_map_of_mem hx)
  exact ⟨by simp [hne, hdef], T, hT,
    hexpr.mono (.refl P) (fun _ _ => id) (List.subset_cons_self _ _)⟩

theorem Ready.allOk {l : List Held} (hl : Ready P temps defs l) :
    Stmt.AllOk P temps defs (l.map emit) := by
  induction l generalizing defs with
  | nil => trivial
  | cons h l ih =>
    obtain ⟨hdef, T, hT, hexpr⟩ := hl.held h List.mem_cons_self
    exact ⟨⟨T, hexpr, hT, hdef⟩, ih hl.tail⟩

theorem mem_defsAfterAll_emit {l : List Held} :
    t ∈ Stmt.defsAfterAll (l.map emit) defs ↔ (∃ h ∈ l, h.temp = t) ∨ t ∈ defs := by
  rw [Stmt.mem_defsAfterAll]
  simp [emit, Stmt.def?]

/-- An expression over defined temporaries does not notice that another one is set. -/
theorem eval_set {m : Machine} {x v : UInt64} (ht : t ∉ defs) (he : e.HasTy P temps defs T)
    (hv : m.eval e = .ok v) : (m.set t x).eval e = .ok v := by
  refine Machine.eval_congr (m := m) (fun n _ => Machine.headAgrees_of_eq rfl rfl n) ?_ hv
  intro u hu y hy
  obtain ⟨U, hU⟩ := he.node hu
  have hne : u ≠ t := fun heq => ht (heq ▸ hU.2)
  rw [Machine.eval_tmp_eq_ok] at hy ⊢
  rwa [Machine.set_vals_of_ne hne]

/-- Emitted bindings define their temporaries and change nothing else. -/
theorem Ready.exec {l : List Held} {m : Machine} (hl : Ready P m.temps defs l)
    (hm : m.Sound defs) (hval : ∀ h ∈ l, ∃ v, m.eval h.expr = .ok v) :
    ∃ m₁, Machine.exec (l.map emit) m = some m₁ ∧ m₁.state = m.state ∧
      (∀ e T v, Expr.HasTy P m.temps defs e T → m.eval e = .ok v → m₁.eval e = .ok v) ∧
      ∀ h ∈ l, ∀ v, m.eval h.expr = .ok v → m₁.eval (.tmp h.temp) = .ok v := by
  induction l generalizing m defs with
  | nil => exact ⟨m, rfl, rfl, fun _ _ _ _ hv => hv, by simp⟩
  | cons h l ih =>
    obtain ⟨hdef, T, hT, hexpr⟩ := hl.held h List.mem_cons_self
    obtain ⟨x, hx⟩ := hval h List.mem_cons_self
    have hfits : x &&& T.mask = x := Machine.eval_fits hm.fit hexpr hx
    have hstep : m.step (emit h) = .next (m.set h.temp x) :=
      Machine.step_assign.mpr ⟨x, T, hx, hT, by rw [hfits]⟩
    have hok : (emit h).Ok P m.temps defs := ⟨T, hexpr, hT, hdef⟩
    have hkeep : ∀ e U v, Expr.HasTy P m.temps defs e U → m.eval e = .ok v →
        (m.set h.temp x).eval e = .ok v := fun e U v he hv => eval_set hdef he hv
    obtain ⟨m₁, hexec, hstate, hold, hnew⟩ := ih (m := m.set h.temp x) hl.tail (hm.step hstep hok) (by
      intro y hy
      obtain ⟨v, hv⟩ := hval y (List.mem_cons_of_mem _ hy)
      obtain ⟨-, U, -, hyU⟩ := hl.held y (List.mem_cons_of_mem _ hy)
      exact ⟨v, hkeep _ U v hyU hv⟩)
    have hsub : ∀ e U, Expr.HasTy P m.temps defs e U → Expr.HasTy P m.temps (h.temp :: defs) e U :=
      fun e U he => he.mono (.refl P) (fun _ _ => id) (List.subset_cons_self _ _)
    refine ⟨m₁, Machine.exec_cons_eq_some.mpr ⟨_, hstep, hexec⟩, hstate, ?_, ?_⟩
    · exact fun e U v he hv => hold e U v (hsub e U he) (hkeep e U v he hv)
    · intro y hy v hv
      rcases List.mem_cons.mp hy with rfl | hy
      · rw [hx, Except.ok.injEq] at hv
        refine hold _ T v ⟨hT, List.mem_cons_self⟩ (Machine.eval_tmp_eq_ok.mpr ⟨⟨T, hT⟩, ?_⟩)
        rw [Machine.set_vals_self, hv]
      · obtain ⟨-, U, -, hyU⟩ := hl.held y (List.mem_cons_of_mem _ hy)
        exact hnew y hy v (hkeep _ U v hyU hv)

namespace Point

variable {p : Held → Bool}

theorem ready (h : Point P temps defs defs' rest w) : Ready P temps defs' (w.filter p) := by
  refine ⟨h.nodup.sublist (List.filter_sublist.map _), fun x hx => ?_⟩
  exact (h.held x (List.mem_of_mem_filter hx)).2

/-- Some of the waiting bindings are emitted. -/
theorem emit (h : Point P temps defs defs' rest w) :
    Point P temps defs (Stmt.defsAfterAll ((w.filter p).map emit) defs') rest
      (w.filter fun x => !p x) := by
  have hmem : ∀ x ∈ w.filter fun x => !p x, x ∈ w ∧ p x = false := fun x hx => by
    simpa using List.mem_filter.mp hx
  refine ⟨?_, ?_, ?_, ?_, ?_, ?_⟩
  · intro t ht
    rcases mem_defsAfterAll_emit.mp ht with ⟨x, hx, rfl⟩ | ht
    · exact (h.held x (List.mem_of_mem_filter hx)).1
    · exact h.sub ht
  · exact h.nodup.sublist (List.filter_sublist.map _)
  · exact fun x hx => h.once x (hmem x hx).1
  · intro x hx
    obtain ⟨hdefs, hdefs', T, hT, hexpr⟩ := h.held x (hmem x hx).1
    refine ⟨hdefs, ?_, T, hT, hexpr.mono (.refl P) (fun _ _ => id) ?_⟩
    · intro hdef
      rcases mem_defsAfterAll_emit.mp hdef with ⟨y, hy, heq⟩ | hdef
      · obtain ⟨hyw, hyp⟩ := List.mem_filter.mp hy
        have hxy := List.inj_on_of_nodup_map h.nodup hyw (hmem x hx).1 heq
        rw [hxy, (hmem x hx).2] at hyp
        exact absurd hyp (by simp)
      · exact hdefs' hdef
    · exact fun t ht => mem_defsAfterAll_emit.mpr (.inr ht)
  · exact fun x hx => h.reads x (hmem x hx).1
  · intro t ht hdef
    rcases h.avail t ht hdef with hdef' | ⟨x, hx, rfl⟩
    · exact .inl (mem_defsAfterAll_emit.mpr (.inr hdef'))
    · cases hp : p x with
      | true => exact .inl (mem_defsAfterAll_emit.mpr (.inl ⟨x, List.mem_filter.mpr ⟨hx, hp⟩, rfl⟩))
      | false => exact .inr ⟨x, List.mem_filter.mpr ⟨hx, by simp [hp]⟩, rfl⟩

/-- A statement that stays defines the same temporary on both sides. -/
theorem define {s' : Stmt} (h : Point P temps defs defs' rest w) (hdef? : s'.def? = s.def?)
    (hfresh : ∀ t, s.def? = some t → t ∉ defs) :
    Point P temps (s.defsAfter defs) (s'.defsAfter defs') rest w := by
  refine ⟨?_, h.nodup, h.once, ?_, h.reads, ?_⟩
  · intro t ht
    rw [Stmt.mem_defsAfter, hdef?] at ht
    exact Stmt.mem_defsAfter.mpr (ht.imp_right fun hd => h.sub hd)
  · intro x hx
    obtain ⟨hdefs, hdefs', T, hT, hexpr⟩ := h.held x hx
    refine ⟨Stmt.subset_defsAfter _ _ hdefs, ?_, T, hT,
      hexpr.mono (.refl P) (fun _ _ => id) (Stmt.subset_defsAfter _ _)⟩
    rw [Stmt.mem_defsAfter, hdef?, not_or]
    exact ⟨fun heq => hfresh _ heq hdefs, hdefs'⟩
  · intro t ht hdef
    rw [Stmt.mem_defsAfter] at hdef
    rcases hdef with hdef | hdef
    · exact .inl (Stmt.mem_defsAfter.mpr (.inl (hdef? ▸ hdef)))
    · exact (h.avail t ht hdef).imp_left fun hd => Stmt.subset_defsAfter _ _ hd

end Point

/-- A statement keeps the rules when bindings are moved into it. -/
theorem ok_subst (h : Point P temps defs defs' (s.uses ++ rest) w) (hs : s.Ok P temps defs)
    (hdefs : defs' ⊆ us) (hus : us ⊆ defs) : (s.subst w.value).Ok P temps us := by
  refine hs.similar (s.similar_subst _) (hs.allowsStmt (.refl P)) ?_ ?_ ?_
  · intro e he e' heq U hU
    rw [heq]
    refine (hU.subst fun t ht V hV => h.hasTy_value ?_ hV).mono (.refl P) (fun _ _ => id) hdefs
    exact List.mem_append_left _ (List.mem_flatMap.mpr ⟨e, he, ht⟩)
  · intro c e' _ heq
    exact heq
  · exact fun t ht => ⟨fun _ => id, fun hmem => (hs.of_def? ht).2 (hus hmem)⟩

/-! ## Machines at a point of the walk -/

/-- The machine `m` of the block and the machine `m'` of the trees at a point of the walk: what
waits for a temporary has its value. -/
structure Behind (defs defs' : List Temp) (w : Waiting) (m m' : Machine) : Prop where
  temps : m'.temps = m.temps
  env : m'.env = m.env
  state : m'.state = m.state
  sound : m.Sound defs
  sound' : m'.Sound defs'
  vals : ∀ t ∈ defs', ∀ v, m.eval (.tmp t) = .ok v → m'.eval (.tmp t) = .ok v
  held : ∀ h ∈ w, ∀ v, m.eval (.tmp h.temp) = .ok v → m'.eval h.expr = .ok v

theorem behind_start (temps : Array Ty) (env : Env) (s : State) :
    Behind [] [] [] (.start temps env s) (.start temps env s) :=
  ⟨rfl, rfl, rfl, Machine.sound_start _ _ _, Machine.sound_start _ _ _, by simp, by simp⟩

namespace Behind

variable {m m' m₁ : Machine} {v : UInt64}

theorem of_subset {w' : Waiting} (h : Behind defs defs' w m m') (hw : w' ⊆ w) :
    Behind defs defs' w' m m' :=
  ⟨h.temps, h.env, h.state, h.sound, h.sound', h.vals, fun x hx => h.held x (hw hx)⟩

theorem eval_value (h : Behind defs defs' w m m') (hp : Point P temps defs defs' rest w)
    (ht : t ∈ rest) (hv : m.eval (.tmp t) = .ok v) : m'.eval (w.value t) = .ok v := by
  have hdef : t ∈ defs := (h.sound.scope t).mp ⟨v, (Machine.eval_tmp_eq_ok.mp hv).2⟩
  rcases hp.avail t ht hdef with hdef' | ⟨x, hx, rfl⟩
  · have hne : ∀ x ∈ w, x.temp ≠ t := fun x hx heq => (hp.held x hx).2.1 (heq ▸ hdef')
    rw [Waiting.value_of_forall_ne hne]
    exact h.vals t hdef' v hv
  · rw [Waiting.value_of_mem hp.nodup hx]
    exact h.held x hx v hv

/-- An expression has its value when bindings are moved in. -/
theorem eval_subst (h : Behind defs defs' w m m') (hp : Point P temps defs defs' rest w)
    (he : e.uses ⊆ rest) (hv : m.eval e = .ok v) : m'.eval (e.subst w.value) = .ok v :=
  Machine.eval_subst h.state h.env (fun _ ht _ hu => h.eval_value hp (he ht) hu) hv

/-- The machine of the trees does nothing when a binding begins to wait. -/
theorem hold (h : Behind defs defs' w m m') (hp : Point P m.temps defs defs' rest w)
    (hs : (Stmt.assign t e).Ok P m.temps defs) (hstep : m.step (.assign t e) = .next m₁)
    {e' : Expr} (he : ∀ v, m.eval e = .ok v → m'.eval e' = .ok v) (i : Nat) :
    Behind (t :: defs) defs' (w.hold i t e') m₁ m' := by
  have hsound : m₁.Sound (t :: defs) := h.sound.step hstep hs
  obtain ⟨T, hT, hdst, hfresh⟩ := hs
  obtain ⟨x, U, hx, hU, rfl⟩ := Machine.step_assign.mp hstep
  rw [hdst, Except.ok.injEq] at hU
  subst hU
  have hfits : x &&& T.mask = x := Machine.eval_fits h.sound.fit hT hx
  rw [hfits] at hsound ⊢
  have hother : ∀ u ≠ t, ∀ v, (m.set t x).eval (.tmp u) = .ok v → m.eval (.tmp u) = .ok v := by
    intro u hu v hv
    rw [Machine.eval_tmp_eq_ok, Machine.set_vals_of_ne hu] at hv
    exact Machine.eval_tmp_eq_ok.mpr hv
  refine ⟨h.temps, h.env, h.state, hsound, h.sound', ?_, ?_⟩
  · intro u hu v hv
    have hne : u ≠ t := fun heq => hfresh (heq ▸ hp.sub hu)
    exact h.vals u hu v (hother u hne v hv)
  · rw [hp.hold_eq hfresh]
    intro y hy v hv
    rcases List.mem_append.mp hy with hy | hy
    · exact h.held y hy v (hother _ (hp.temp_ne hfresh y hy) v hv)
    · rw [List.mem_singleton] at hy
      subst hy
      have hval := (Machine.eval_tmp_eq_ok.mp hv).2
      rw [Machine.set_vals_self, Option.some.injEq] at hval
      exact he v (hval ▸ hx)

/-- The machine of the trees catches up on the bindings that are emitted. -/
theorem emit {p : Held → Bool} (h : Behind defs defs' w m m')
    (hp : Point P m.temps defs defs' rest w) :
    ∃ m₁, Machine.exec ((w.filter p).map emit) m' = some m₁ ∧
      Behind defs (Stmt.defsAfterAll ((w.filter p).map Nesting.emit) defs')
        (w.filter fun x => !p x) m m₁ ∧
      ∀ e T v, Expr.HasTy P m.temps defs' e T → m'.eval e = .ok v → m₁.eval e = .ok v := by
  have hready : Ready P m'.temps defs' (w.filter p) := h.temps ▸ hp.ready
  have hvalue : ∀ x ∈ w, ∃ v, m.eval (.tmp x.temp) = .ok v := by
    intro x hx
    obtain ⟨hdef, -, T, hT, -⟩ := hp.held x hx
    exact h.sound.eval_tmp (P := P) ⟨hT, hdef⟩
  have hval : ∀ x ∈ w.filter p, ∃ v, m'.eval x.expr = .ok v := by
    intro x hx
    obtain ⟨v, hv⟩ := hvalue x (List.mem_of_mem_filter hx)
    exact ⟨v, h.held x (List.mem_of_mem_filter hx) v hv⟩
  obtain ⟨m₁, hexec, hstate, hold, hnew⟩ := hready.exec h.sound' hval
  obtain ⟨htemps, henv⟩ := Machine.exec_temps hexec
  rw [h.temps] at hold
  refine ⟨m₁, hexec, ⟨htemps.trans h.temps, henv.trans h.env, hstate.trans h.state, h.sound,
    (h.sound'.exec hready.allOk hexec).1, ?_, ?_⟩, hold⟩
  · intro t ht v hv
    rcases mem_defsAfterAll_emit.mp ht with ⟨x, hx, rfl⟩ | ht
    · exact hnew x hx v (h.held x (List.mem_of_mem_filter hx) v hv)
    · obtain ⟨T, hT⟩ := (Machine.eval_tmp_eq_ok.mp hv).1
      exact hold _ T v ⟨hT, ht⟩ (h.vals t ht v hv)
  · intro x hx v hv
    have hxw := List.mem_of_mem_filter hx
    obtain ⟨-, -, T, -, hexpr⟩ := hp.held x hxw
    exact hold _ T v hexpr (h.held x hxw v hv)

end Behind

/-- A binding that may move past a statement reads nothing that the statement changes. -/
theorem eval_of_not_blocks {m m₁ : Machine} {h : Held} {v : UInt64} (hm : m.Sound defs)
    (hs : s.Ok P m.temps defs) (hstep : m.step s = .next m₁) (hblocks : blocks s h = false)
    (hload : h.load = h.expr.nodes.any isLoad) (hget : h.get = h.expr.nodes.any isGet)
    (hv : m.eval h.expr = .ok v) : m₁.eval h.expr = .ok v := by
  -- a binding that reads registers is blocked by what may write them, one that loads by what may
  -- write memory
  have hregs : h.get = true → m₁.state.regs = m.state.regs := by
    intro hg
    refine Machine.step_regs hstep ?_
    cases s <;> simp_all [blocks, Stmt.mayWriteRegs]
  have hmem : h.load = true → m₁.state.mem = m.state.mem := by
    intro hl
    cases s with
    | missing => exact absurd hstep Machine.step_missing
    | noop | mark => rw [← Machine.Step.next.inj hstep]
    | assign dst src =>
      obtain ⟨x, T, -, -, rfl⟩ := Machine.step_assign.mp hstep
      rfl
    | exit guard kind dst =>
      obtain ⟨-, rfl⟩ := Machine.step_exit.mp hstep
      rfl
    | put | putIx | store | effect | fence => simp [blocks, hl] at hblocks
  refine Machine.eval_congr ?_ ?_ hv
  · intro n hn
    cases n with
    | get off T =>
      intro x hx
      rwa [State.readReg_of_regs_eq (hregs (hget ▸ List.any_eq_true.mpr ⟨_, hn, rfl⟩))]
    | getIx d ix bias =>
      intro i off x _ _ hx
      rwa [State.readReg_of_regs_eq (hregs (hget ▸ List.any_eq_true.mpr ⟨_, hn, rfl⟩))]
    | load T a =>
      exact fun a => State.load_congr (hmem (hload ▸ List.any_eq_true.mpr ⟨_, hn, rfl⟩)) a T
    | call callee T args => exact congrArg (·.helper callee) (Machine.step_env hstep)
    | _ => trivial
  · exact fun t _ u hu => hm.eval_atom_step hstep hs rfl hu

/-- Behind a statement that stays, the machines are at the next point. -/
theorem Behind.step {m m' m₁ : Machine} {s' : Stmt} {R : Expr → Expr → Prop}
    (h : Behind defs defs' w m m') (hp : Point P m.temps defs defs' rest w)
    (hs : s.Ok P m.temps defs) (hs' : s'.Ok P m.temps defs') (hsim : s.Similar R id s')
    (hR : ∀ e ∈ s.operands, ∀ e', R e e' → m.Carries m' e e')
    (hblocks : ∀ x ∈ w, blocks s' x = false) (hstep : m.step s = .next m₁) :
    ∃ m₁', m'.step s' = .next m₁' ∧ Behind (s.defsAfter defs) (s'.defsAfter defs') w m₁ m₁' := by
  have hdef? : s'.def? = s.def? := by rw [hsim.def?, Option.map_id_fun, id]
  have hold : ∀ t v, t ∈ defs → m₁.eval (.tmp t) = .ok v → m.eval (.tmp t) = .ok v := by
    intro t v ht hv
    rw [Machine.eval_tmp_eq_ok, Machine.step_temps hstep,
      Machine.step_vals hstep fun hd => (hs.of_def? hd).2 ht] at hv
    exact Machine.eval_tmp_eq_ok.mpr hv
  have htemps : m'.temps = m.temps := h.temps
  have key : ∃ m₁', m'.step s' = .next m₁' ∧ m₁'.state = m₁.state ∧
      ∀ t, s.def? = some t → m₁'.vals t = m₁.vals t ∨ m₁.vals t = none := by
    obtain ⟨st, ⟨rfl, hstep'⟩ | ⟨t, x, ht, rfl, hstep'⟩⟩ := Machine.step_similar hsim h.state h.env hR
      (fun t T _ hT => by rw [htemps]; exact hT) hstep
    -- nothing was assigned, so a temporary to be defined has no value yet
    · refine ⟨_, hstep', rfl, fun t ht => .inr ?_⟩
      rw [Option.eq_none_iff_forall_ne_some]
      exact fun v hv => (hs.of_def? ht).2 ((h.sound.scope t).mp ⟨v, hv⟩)
    · refine ⟨_, hstep', rfl, fun u hu => .inl ?_⟩
      rw [ht, Option.some.injEq] at hu
      subst hu
      rw [Machine.set_vals_self, id, Machine.set_vals_self]
  obtain ⟨m₁', hstep', hstate, hdefined⟩ := key
  have htemps₁ : m₁'.temps = m₁.temps := by
    rw [Machine.step_temps hstep', Machine.step_temps hstep, h.temps]
  have henv₁ : m₁'.env = m₁.env := by
    rw [Machine.step_env hstep', Machine.step_env hstep, h.env]
  have hs'' : s'.Ok P m'.temps defs' := by rw [htemps]; exact hs'
  refine ⟨m₁', hstep', htemps₁, henv₁, hstate, h.sound.step hstep hs, h.sound'.step hstep' hs'',
    ?_, ?_⟩
  · intro t ht v hv
    rw [Stmt.mem_defsAfter] at ht
    rcases ht with ht | ht
    · rw [Machine.eval_tmp_eq_ok] at hv ⊢
      rw [htemps₁]
      rcases hdefined t (hdef? ▸ ht) with heq | hnone
      · exact heq ▸ hv
      · rw [hnone] at hv
        exact absurd hv.2 (by simp)
    · exact h.sound'.eval_atom_step hstep' hs'' rfl (h.vals t ht v (hold t v (hp.sub ht) hv))
  -- what waits reads nothing that the statement changes, or it would be blocked
  · intro x hx v hv
    obtain ⟨hload, hget⟩ := hp.reads x hx
    exact eval_of_not_blocks h.sound' hs'' hstep' (hblocks x hx) hload hget
      (h.held x hx v (hold _ v (hp.held x hx).1 hv))

/-! ## The walk -/

/-- The walk from a point to the end of the block, with the statements and the successor that it
makes. At each statement `defs`, `defs'` and `w` are those of the point in front of it. -/
inductive Walk (P : Policy) (temps : Array Ty) (next : Expr) :
    List Temp → List Temp → Waiting → List Stmt → List Stmt × Expr → Prop
  | nil {defs defs' : List Temp} {w : Waiting} (hp : Point P temps defs defs' next.uses w) :
      Walk P temps next defs defs' w [] ([], next.subst w.value)
  | noop {defs defs' : List Temp} {w : Waiting} {ss : List Stmt} {r : List Stmt × Expr}
      (h : Walk P temps next defs defs' w ss r) : Walk P temps next defs defs' w (.noop :: ss) r
  | hold {defs defs' rest : List Temp} {w : Waiting} {i : Nat} {t : Temp} {e : Expr}
      {ss : List Stmt} {r : List Stmt × Expr}
      (hp : Point P temps defs defs' ((Stmt.assign t e).uses ++ rest) w)
      (hs : (Stmt.assign t e).Ok P temps defs)
      (h : Walk P temps next (t :: defs) defs' ((w.without e.uses).hold i t (e.subst w.value)) ss r) :
      Walk P temps next defs defs' w (.assign t e :: ss) r
  | stay {defs defs' rest : List Temp} {w w₁ : Waiting} {s s' : Stmt} {ss : List Stmt}
      {r : List Stmt × Expr} (hp : Point P temps defs defs' (s.uses ++ rest) w)
      (hs : s.Ok P temps defs) (hw₁ : w₁ = w.without s.uses) (hs' : s' = s.subst w.value)
      (h : Walk P temps next (s.defsAfter defs)
        (s'.defsAfter (Stmt.defsAfterAll ((w₁.filter (blocks s')).map emit) defs'))
        (w₁.filter fun x => !blocks s' x) ss r) :
      Walk P temps next defs defs' w (s :: ss)
        ((w₁.filter (blocks s')).map emit ++ s' :: r.1, r.2)

/-- From every point, `build` walks to the end, if undefined temporaries have all their uses to
come. -/
theorem walk_build {uses : List Temp} {i : Nat} {o : Outlet} (ho : o.Ordered)
    {q : o.queue.State} (hq : o.queue.pop? q = none) (hw : w.Lined i)
    (hp : Point P temps defs defs' (usesIn ss next) w) (hss : Stmt.AllOk P temps defs ss)
    (huses : ∀ t ∉ defs, uses.count t = (usesIn ss next).count t) :
    Walk P temps next defs defs' w ss (build o uses next i w q ss) := by
  induction ss generalizing defs defs' w i q with
  | nil =>
    have hp : Point P temps defs defs' (next.uses ++ []) w := by simpa [usesIn] using hp
    rw [build, moveIn_eq hp.count_le]
    exact .nil (by simpa using hp)
  | cons s ss ih =>
    rw [usesIn_cons] at hp huses
    -- `s` uses defined temporaries only, so the others have all their uses behind it
    have hrest : ∀ t ∉ defs, uses.count t = (usesIn ss next).count t := by
      intro t ht
      rw [huses t ht, List.count_append,
        List.count_eq_zero.mpr fun hmem => ht (mem_of_mem_uses hss.1 hmem), Nat.zero_add]
    have hrest' : ∀ t ∉ s.defsAfter defs, uses.count t = (usesIn ss next).count t :=
      fun t ht => hrest t fun hdef => ht (Stmt.subset_defsAfter _ _ hdef)
    by_cases hnoop : s = .noop
    · subst hnoop
      exact .noop (ih hq (hw.sublist (.refl w) i.le_succ) hp hss.2 hrest)
    · cases hwait : waiting? uses s with
      | some te =>
        obtain ⟨t, e⟩ := te
        obtain ⟨rfl, hone⟩ := waiting?_eq_some hwait
        have heq : (Stmt.assign t e).uses = e.uses := by simp [Stmt.uses, Stmt.operands]
        obtain ⟨T, hT, hdst, hfresh⟩ := hss.1
        have hwithout := heq ▸ hp.without
        have hmoved : (e.subst w.value).HasTy P temps defs' T :=
          hT.subst fun u hu U hU => hp.hasTy_value (List.mem_append_left _ (heq ▸ hu)) hU
        have hlined : (w.without e.uses).Lined i := hw.filter _ (le_refl i)
        rw [build_of_waiting hwait, moveIn_eq (heq ▸ hp.count_le)]
        exact .hold hp hss.1 (ih hq (hlined.hold t _)
          (hwithout.hold hfresh (hrest t hfresh ▸ hone) hdst hmoved i) hss.2 hrest')
      | none =>
        have hmove := moveInStmt_eq hp.count_le
        obtain ⟨r, hr, hstay⟩ := build_of_waiting_eq_none ho hw hq hnoop hwait next ss
        rw [hstay, hmove]
        have hlined : (w.without s.uses).Lined i := hw.filter _ (le_refl i)
        refine .stay hp hss.1 rfl rfl (ih hr (hlined.filter _ i.le_succ) ?_ hss.2 hrest')
        exact hp.without.emit.define (Stmt.def?_subst _ _) fun t ht => (hss.1.of_def? ht).2

/-- What the walk makes of statements and the successor behind them: they keep the rules and end as
the block does. -/
structure Builds (P : Policy) (temps : Array Ty) (defs defs' : List Temp) (w : Waiting)
    (ss : List Stmt) (next : Expr) (r : List Stmt × Expr) : Prop where
  stmts : Stmt.AllOk P temps defs' r.1
  succ : ∀ T, next.HasTy P temps (Stmt.defsAfterAll ss defs) T →
    r.2.HasTy P temps (Stmt.defsAfterAll r.1 defs') T
  const : ∀ c, next = .const c → r.2 = .const c
  finish : ∀ kind m m' out, m.temps = temps → Behind defs defs' w m m' →
    Machine.finish next kind ss m = some out → Machine.finish r.2 kind r.1 m' = some out

theorem builds_nil (hp : Point P temps defs defs' next.uses w) :
    Builds P temps defs defs' w [] next ([], next.subst w.value) := by
  refine ⟨trivial, ?_, ?_, ?_⟩
  · exact fun T hT => hT.subst fun t ht U hU => hp.hasTy_value ht hU
  · rintro c rfl
    rfl
  · intro kind m m' out _ hm hout
    obtain ⟨v, hv, rfl⟩ := Machine.finish_nil_eq_some.mp hout
    exact Machine.finish_nil_eq_some.mpr
      ⟨v, hm.eval_subst hp (List.Subset.refl _) hv, by rw [hm.state]⟩

theorem builds_noop {r : List Stmt × Expr} (h : Builds P temps defs defs' w ss next r) :
    Builds P temps defs defs' w (.noop :: ss) next r :=
  ⟨h.stmts, h.succ, h.const, h.finish⟩

/-- A binding begins to wait. -/
theorem builds_hold {r : List Stmt × Expr}
    (hp : Point P temps defs defs' ((Stmt.assign t e).uses ++ rest) w)
    (hs : (Stmt.assign t e).Ok P temps defs)
    {i : Nat}
    (h : Builds P temps (t :: defs) defs' ((w.without e.uses).hold i t (e.subst w.value)) ss next r) :
    Builds P temps defs defs' w (.assign t e :: ss) next r := by
  refine ⟨h.stmts, h.succ, h.const, ?_⟩
  have huses : (Stmt.assign t e).uses = e.uses := by simp [Stmt.uses, Stmt.operands]
  rw [huses] at hp
  rintro kind m m' out rfl hm hout
  rcases Machine.finish_cons_eq_some.mp hout with ⟨m₁, hstep, hrest⟩ | ⟨k, dst, hleave, -⟩
  · refine h.finish kind m₁ m' out (Machine.step_temps hstep) ?_ hrest
    exact (hm.of_subset (w.without_subset _)).hold hp.without hs hstep
      (fun v hv => hm.eval_subst hp (List.subset_append_left _ _) hv) i
  · obtain ⟨guard, g, heq, -⟩ := Machine.step_eq_leave.mp hleave
    cases heq

/-- A statement stays, behind the bindings that must not move past it. -/
theorem builds_emit {r : List Stmt × Expr} {w₁ : Waiting} {s' : Stmt}
    (hp : Point P temps defs defs' (s.uses ++ rest) w) (hs : s.Ok P temps defs)
    (hw₁ : w₁ = w.without s.uses) (hs' : s' = s.subst w.value)
    (h : Builds P temps (s.defsAfter defs)
      (s'.defsAfter (Stmt.defsAfterAll ((w₁.filter (blocks s')).map emit) defs'))
      (w₁.filter fun x => !blocks s' x) ss next r) :
    Builds P temps defs defs' w (s :: ss) next
      ((w₁.filter (blocks s')).map emit ++ s' :: r.1, r.2) := by
  have hp₁ : Point P temps defs defs' rest w₁ := hw₁ ▸ hp.without
  have hp₂ := hp₁.emit (p := blocks s')
  have hok : s'.Ok P temps (Stmt.defsAfterAll ((w₁.filter (blocks s')).map emit) defs') := by
    have := ok_subst hp hs (fun t ht => mem_defsAfterAll_emit.mpr (.inr ht)) hp₂.sub
    rwa [← hs'] at this
  have hsim : s.Similar (fun e e' => e ∈ s.operands ∧ e' = e.subst w.value) id s' := by
    rw [hs']
    apply Stmt.similar_withOperands
    rw [List.forall₂_map_right_iff]
    exact List.forall₂_same.mpr fun _ he => ⟨he, rfl⟩
  refine ⟨?_, ?_, h.const, ?_⟩
  · exact Stmt.allOk_append.mpr ⟨hp₁.ready.allOk, hok, h.stmts⟩
  · intro T hT
    rw [Stmt.defsAfterAll_append]
    exact h.succ T hT
  · rintro kind m m' out rfl hm hout
    have hmw : Behind defs defs' w₁ m m' := hm.of_subset (hw₁ ▸ w.without_subset _)
    obtain ⟨m₁, hexec, hm₁, hkeep⟩ := hmw.emit (p := blocks s') hp₁
    rw [Machine.finish_append hexec]
    -- operands have their values in front of the emitted bindings, and so behind them
    have hcarries : ∀ e ∈ s.operands, m.Carries m₁ e (e.subst w.value) := by
      intro e he
      obtain ⟨U, hU⟩ := hs.operand he
      have hsub : e.uses ⊆ s.uses ++ rest := fun t ht =>
        List.mem_append_left _ (List.mem_flatMap.mpr ⟨e, he, ht⟩)
      have hU' : (e.subst w.value).HasTy P m.temps defs' U :=
        hU.subst fun t ht V hV => hp.hasTy_value (hsub ht) hV
      refine ⟨fun v hv => hkeep _ U v hU' (hm.eval_subst hp hsub hv), fun T hT => ?_⟩
      rw [hU.typeIn, Except.ok.injEq] at hT
      rw [hm₁.temps, ← hT]
      exact hU'.typeIn
    have hR : ∀ e ∈ s.operands, ∀ e', (e ∈ s.operands ∧ e' = e.subst w.value) → m.Carries m₁ e e' :=
      fun e he e' heq => heq.2 ▸ hcarries e he
    rcases Machine.finish_cons_eq_some.mp hout with ⟨m₂, hstep, hrest⟩ | ⟨k, dst, hleave, rfl⟩
    · have hfree : ∀ x ∈ w₁.filter fun x => !blocks s' x, blocks s' x = false := fun x hx => by
        simpa using (List.mem_filter.mp hx).2
      obtain ⟨m₂', hstep', hm₂⟩ := hm₁.step hp₂ hs hok hsim hR hfree hstep
      exact Machine.finish_cons_eq_some.mpr
        (.inl ⟨m₂', hstep', h.finish kind m₂ m₂' out (Machine.step_temps hstep) hm₂ hrest⟩)
    · have hleave' := Machine.leave_similar hsim (fun e he e' heq => (hR e he e' heq).1) hleave
      exact Machine.finish_cons_eq_some.mpr (.inr ⟨k, dst, hleave', by rw [hm₁.state]⟩)

/-- The walk is correct from every point. -/
theorem Walk.builds {r : List Stmt × Expr} (h : Walk P temps next defs defs' w ss r) :
    Builds P temps defs defs' w ss next r := by
  induction h with
  | nil hp => exact builds_nil hp
  | noop _ ih => exact builds_noop ih
  | hold hp hs _ ih => exact builds_hold hp hs ih
  | stay hp hs hw₁ hs' _ ih => exact builds_emit hp hs hw₁ hs' ih

end Nesting

open Nesting in
/-- Nothing is in the way of the walk over a typed block. -/
theorem Block.buildTrees_eq {P : Policy} {b : Block} (hb : b.Typed P) :
    ∃ r, b.buildTrees = .ok { b with stmts := r.1, next := r.2 } ∧
      Walk P b.temps b.next [] [] [] b.stmts r := by
  refine ⟨build .sorted (usesIn b.stmts b.next) b.next 0 [] [] b.stmts, ?_, ?_⟩
  · simp only [Block.buildTrees, Block.buildTreesThrough, bind_eq_ok]
    refine ⟨_, usesOfStmts_eq_ok hb.stmts, _, usesOf_eq_ok hb.next_nodes, ?_⟩
    rw [if_pos (all_assignsDeclared hb.stmts)]
    rfl
  · exact walk_build Outlet.sorted_ordered rfl (Waiting.lined_nil 0) (point_nil P b.temps _) hb.stmts
      fun _ _ => rfl

open Nesting in
/-- Trees are built from every typed block. They keep its rules, and end as the block does in every
environment. -/
theorem Block.buildTrees_spec {P : Policy} {b : Block} (hb : b.Typed P) :
    ∃ r, b.buildTrees = .ok r ∧ r.Typed P ∧ (b.NextFits → r.NextFits) ∧
      ∀ env, b.RefinedBy env r := by
  obtain ⟨r, hr, hwalk⟩ := Block.buildTrees_eq hb
  have hbuilds := hwalk.builds
  refine ⟨_, hr, ?_, ?_, ?_⟩
  · refine ⟨hb.temps, hbuilds.stmts, ?_, hb.kind⟩
    rcases hb.next with haddr | ⟨c, hc, hexit⟩
    · exact .inl (haddr.imp (hbuilds.succ _) (hbuilds.succ _))
    · exact .inr ⟨c, hbuilds.const c hc, hexit⟩
  · intro hfits c hc
    -- a constant that was moved in is typed
    have hfits' {T : Ty} (hT : b.next.HasTy P b.temps (Stmt.defsAfterAll b.stmts []) T) :
        c.fits = true := by
      have hconst := hbuilds.succ T hT
      simp only at hc
      rw [hc] at hconst
      exact hconst.2.2
    rcases hb.next with (hT | hT) | ⟨c', hc', -⟩
    · exact hfits' hT
    · exact hfits' hT
    · have hconst := hbuilds.const c' hc'
      simp only at hc
      rw [hc, Expr.const.injEq] at hconst
      exact hconst ▸ hfits c' hc'
  · intro env s out hout
    rw [Block.ends_eq] at hout ⊢
    exact hbuilds.finish _ _ _ _ rfl (behind_start _ _ _) hout

open Nesting in
/-- Trees are built from every well-formed block, through every queue that keeps its promise, and they
are well-formed. In every environment and from every state they go where the block goes and leave what
it leaves. -/
theorem built_trees_end_alike {o : Outlet} (ho : o.Ordered) {b : Block}
    (hb : b.check false = .ok ()) :
    ∃ r, b.buildTreesThrough o = .ok r ∧ r.check false = .ok () ∧
      ∀ (env : Env) (s : State) (out : Outcome), b.ends s env = some out →
        r.ends s env = some out := by
  obtain ⟨htyped, hfits, -⟩ := Block.check_eq_ok_iff.mp hb
  obtain ⟨r, hr, htyped', hfits', hends⟩ := Block.buildTrees_spec htyped
  rw [Block.buildTreesThrough_eq ho]
  exact ⟨r, hr, Block.check_eq_ok_iff.mpr ⟨htyped', hfits' hfits, by simp⟩, hends⟩

/-- Exchanges a register with a word of memory and reads another word: the read of the register moves
into the store, the loads must not. -/
def Block.exchange : Block where
  temps := #[.i32, .i32, .i32]
  stmts := [.assign 0 (.get 0 .i32), .assign 1 (.load .i32 (.const ⟨.u32, 16⟩)),
    .assign 2 (.load .i32 (.const ⟨.u32, 20⟩)), .store (.const ⟨.u32, 16⟩) (.tmp 0),
    .put 0 (.tmp 1), .put 4 (.tmp 2)]
  next := .const ⟨.u32, 32⟩
  kind := .boring

/-- Emits through a sorted list, which is filled from the latest binding to the first. -/
def Nesting.Outlet.backward : Nesting.Outlet := ⟨.sorted Nesting.Held.earlier, fun _ => List.reverse⟩

theorem Nesting.Outlet.backward_ordered : Nesting.Outlet.backward.Ordered :=
  ⟨Nesting.Outlet.sorted_ordered.queue, fun _ w => w.reverse_perm⟩

example : Block.exchange.buildTreesThrough .backward = .ok { Block.exchange with
    stmts := [.assign 1 (.load .i32 (.const ⟨.u32, 16⟩)), .assign 2 (.load .i32 (.const ⟨.u32, 20⟩)),
      .store (.const ⟨.u32, 16⟩) (.get 0 .i32), .put 0 (.tmp 1), .put 4 (.tmp 2)] } := rfl

theorem built_trees_end_alike_exchange :
    Block.exchange.check false = .ok () ∧
      ∃ r, Block.exchange.buildTreesThrough .backward = .ok r ∧ r.check false = .ok () ∧
        ∀ (env : Env) (s : State) (out : Outcome), Block.exchange.ends s env = some out →
          r.ends s env = some out :=
  ⟨rfl, built_trees_end_alike Nesting.Outlet.backward_ordered rfl⟩

end Straightline
