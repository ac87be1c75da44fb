import Mathlib
import Straightline.Pass.Unroll
import Straightline.Proofs.Flat

/-!
# Unrolled loops

A copy of a body is the body with its temporaries renumbered. It is related to the body by
`Shifted`, statement by statement, and runs as a fresh run of the body does, on temporaries of its
own (`Copy`). Copies one after the other run the body again as long as it falls through to its own
address: `Block.Iterates` counts the runs. If they are fewer than the copies, the last of them is left
through an exit, and so is the flat form of the copy that makes it (`Block.Unrolls`).
-/

namespace Straightline

/-! ## Renumbered temporaries -/

namespace Expr

variable {P : Policy} {temps temps' : Array Ty} {defs defs' : List Temp} {e : Expr} {T : Ty}
  {g : Temp → Temp}

theorem mapTemps_eq (hatom : e.isAtom = false) : e.mapTemps g = e.mapChildren (mapTemps g) := by
  cases e <;> simp_all [mapTemps, mapChildren, isAtom]

theorem similar_mapTemps (hatom : e.isAtom = false) :
    e.Similar (fun c c' => c' = c.mapTemps g) (e.mapTemps g) := by
  rw [mapTemps_eq hatom]
  exact similar_mapChildren fun _ _ => rfl

theorem mapTemps_id (e : Expr) : e.mapTemps id = e := by
  induction e with
  | call callee ty args ih =>
    rw [mapTemps, mapTempsAll_eq, List.map_congr_left ih, List.map_id']
  | _ => simp_all [mapTemps]

theorem isAtom_mapTemps (e : Expr) : (e.mapTemps g).isAtom = e.isAtom := by
  cases e <;> rfl

/-- A renumbered expression has the type of the original. -/
theorem HasTy.mapTemps (h : e.HasTy P temps defs T)
    (hg : ∀ t U, (tmp t).HasTy P temps defs U → (tmp (g t)).HasTy P temps' defs' U) :
    (e.mapTemps g).HasTy P temps' defs' T := by
  induction e using childInduct generalizing T with
  | h e ih =>
    cases hatom : e.isAtom with
    | true =>
      cases e with
      | tmp t => exact hg t T h
      | const c => exact h
      | _ => simp [isAtom] at hatom
    | false =>
      refine h.similar (similar_mapTemps hatom) hatom ?_
      intro c hc c' hc' U hU
      rw [hc']
      exact ih c hc hU

theorem typeIn_mapTemps (h : e.typeIn temps = .ok T)
    (hg : ∀ t U, tempTy temps t = .ok U → tempTy temps' (g t) = .ok U) :
    (e.mapTemps g).typeIn temps' = .ok T := by
  induction e with
  | tmp t => exact hg t T h
  | select c z x _ ih _ => exact ih h
  | _ => exact h

theorem needsTemp_mapTemps (e : Expr) : (e.mapTemps g).needsTemp = e.needsTemp := by
  cases e <;> rfl

theorem sum_fresh_of_forall₂ {es es' : List Expr}
    (h : List.Forall₂ (fun e e' => e' = e.mapTemps g) es es')
    (hfresh : ∀ e ∈ es, (e.mapTemps g).fresh = e.fresh) :
    (es'.map fresh).sum = (es.map fresh).sum := by
  induction h with
  | nil => rfl
  | cons he _ ih =>
    rw [List.forall_mem_cons] at hfresh
    rw [List.map_cons, List.sum_cons, List.map_cons, List.sum_cons, ih hfresh.2, he, hfresh.1]

/-- A renumbered expression takes as many temporaries as the original. -/
theorem fresh_mapTemps (e : Expr) : (e.mapTemps g).fresh = e.fresh := by
  induction e using childInduct with
  | h e ih =>
    rw [fresh_eq, fresh_eq, needsTemp_mapTemps]
    cases hatom : e.isAtom with
    | true => rw [children_of_isAtom hatom, children_of_isAtom ((isAtom_mapTemps e).trans hatom)]
    | false => rw [sum_fresh_of_forall₂ (similar_mapTemps hatom).children ih]

theorem NestsWithin.mapTemps {n : Nat} (h : e.NestsWithin n) : (e.mapTemps g).NestsWithin n := by
  cases hatom : e.isAtom with
  | true => exact nestsWithin_of_isAtom ((isAtom_mapTemps e).trans hatom) n
  | false =>
    have hchildren := (similar_mapTemps (g := g) hatom).children
    induction n generalizing e with
    | zero =>
      rw [NestsWithin] at h ⊢
      rw [h] at hchildren
      exact List.forall₂_nil_left_iff.mp hchildren
    | succ n ih =>
      refine forall_of_forall₂ hchildren fun c hc c' hc' => ?_
      rw [hc']
      cases hc'' : c.isAtom with
      | true => exact nestsWithin_of_isAtom ((isAtom_mapTemps c).trans hc'') n
      | false => exact ih (h c hc) hc'' (similar_mapTemps hc'').children

end Expr

/-- A renumbered expression has the value of the original, on a machine in the same state whose
renumbered temporaries have the values of the original ones. -/
theorem Machine.eval_mapTemps {m m' : Machine} {g : Temp → Temp} {e : Expr} {v : UInt64}
    (hstate : m'.state = m.state) (henv : m'.env = m.env)
    (hg : ∀ t v, m.eval (.tmp t) = .ok v → m'.eval (.tmp (g t)) = .ok v)
    (h : m.eval e = .ok v) : m'.eval (e.mapTemps g) = .ok v := by
  induction e using Expr.childInduct generalizing v with
  | h e ih =>
    cases hatom : e.isAtom with
    | true =>
      cases e with
      | tmp t => exact hg t v h
      | const c => exact h
      | _ => simp [Expr.isAtom] at hatom
    | false =>
      refine eval_similar (Expr.similar_mapTemps hatom) hatom (headAgrees_of_eq hstate henv e) ?_ h
      intro c hc c' hc' u hu
      rw [hc']
      exact ih c hc hu

/-! ## Runs one after the other -/

namespace Block

/-- So many runs of the block one after the other, all but the last ending with a plain jump to
`addr`, have the given outcome. -/
inductive Iterates (b : Block) (addr : UInt64) (env : Env) : Nat → State → Outcome → Prop where
  | one {s : State} {out : Outcome} : b.ends s env = some out → Iterates b addr env 1 s out
  | more {i : Nat} {s s' : State} {out : Outcome} : b.ends s env = some ⟨addr, .boring, s'⟩ →
    Iterates b addr env i s' out → Iterates b addr env (i + 1) s out

/-- The block can be run so many times, as long as it ends with a plain jump to `addr`. -/
def Repeats (b : Block) (addr : UInt64) (env : Env) : Nat → State → Prop
  | 0, _ => True
  | j + 1, s => ∃ out, b.ends s env = some out ∧
    (out.target = addr → out.kind = .boring → b.Repeats addr env j out.state)

/-- The run is left through an exit statement, the number of which is at least `lo` and below
`hi`. -/
def LeavesWithin (b : Block) (s : State) (env : Env) (lo hi : Nat) : Prop :=
  ∃ q guard kind dst, (b.run s env).outcome = .ok ⟨dst.bits, kind, some q⟩ ∧
    b.stmts[q]? = some (.exit guard kind dst) ∧ lo ≤ q ∧ q < hi

/-- Let `u` be `n` copies of `l` statements each. A run of `u` is some runs of `b`, all but the last
with a plain jump to `addr`. There are no more of them than copies, and if there are fewer, then the
run of `u` is left through an exit in the copy that makes the last of them. -/
def Unrolls (addr : UInt64) (env : Env) (n l : Nat) (b u : Block) : Prop :=
  ∀ s, b.Repeats addr env n s →
    ∃ i out, 1 ≤ i ∧ i ≤ n ∧ b.Iterates addr env i s out ∧ u.ends s env = some out ∧
      (i < n → u.LeavesWithin s env ((i - 1) * l) (i * l))

end Block

namespace Unroll

/-- The number of a temporary in copy `k` of a body with `size` temporaries. -/
def renumber (size k : Nat) (t : Temp) : Temp := t + .ofNat k * .ofNat size

variable {P : Policy} {temps final : Array Ty} {defs defs' : List Temp} {k n : Nat} {T : Ty}
  {t : Temp} {s s' : Stmt} {ss ss' : List Stmt}

theorem renumber_zero (size : Nat) : renumber size 0 = id := by
  funext t
  simp [renumber]

theorem size_repeatTemps (temps : Array Ty) (n : Nat) :
    (repeatTemps temps n).size = n * temps.size := by
  induction n with
  | zero => simp [repeatTemps]
  | succ n ih =>
    rw [repeatTemps, Array.size_append, ih]
    ring

theorem getElem?_repeatTemps {i : Nat} (hk : k < n) (hi : i < temps.size) :
    (repeatTemps temps n)[k * temps.size + i]? = temps[i]? := by
  induction n generalizing k with
  | zero => omega
  | succ n ih =>
    rw [repeatTemps]
    cases k with
    | zero => rw [Nat.zero_mul, Nat.zero_add, Array.getElem?_append_left hi]
    | succ k =>
      have hindex : (k + 1) * temps.size + i - temps.size = k * temps.size + i := by
        rw [Nat.add_mul]
        omega
      rw [Array.getElem?_append_right (by rw [Nat.add_mul]; omega), hindex]
      exact ih (by omega)

/-- Numbers of copies are in range if there is room for the last one. -/
theorem toInt_renumber (hT : tempTy temps t = .ok T) (hk : k < n)
    (hroom : n * temps.size ≤ 2 ^ 31) :
    (renumber temps.size k t).toInt = k * temps.size + t.toInt := by
  obtain ⟨h0, hget⟩ := tempTy_eq_ok.mp hT
  have hlt := toInt_lt_of_tempTy hT
  cases k with
  | zero => simp [renumber_zero]
  | succ k =>
    have hcopy : (k + 1 + 1) * temps.size ≤ n * temps.size := Nat.mul_le_mul_right _ hk
    have hone : temps.size ≤ (k + 1) * temps.size := Nat.le_mul_of_pos_left _ (by omega)
    have hle : k + 1 ≤ (k + 1) * temps.size := Nat.le_mul_of_pos_right _ (by omega)
    rw [Nat.add_mul _ 1, Nat.one_mul] at hcopy
    have hk' : (Int32.ofNat (k + 1)).toInt = (k + 1 : Nat) := Int32.toInt_ofNat_of_lt (by omega)
    have hsize' : (Int32.ofNat temps.size).toInt = temps.size :=
      Int32.toInt_ofNat_of_lt (by omega)
    rw [renumber, Int32.toInt_add, Int32.toInt_mul, hk', hsize', ← Int.natCast_mul,
      Int.bmod_eq_of_le (n := (((k + 1) * temps.size : Nat) : Int)) (by omega) (by omega),
      Int.bmod_eq_of_le (by omega) (by omega)]
    omega

theorem tempTy_renumber (hT : tempTy temps t = .ok T) (hk : k < n)
    (hroom : n * temps.size ≤ 2 ^ 31) :
    tempTy (repeatTemps temps n) (renumber temps.size k t) = .ok T := by
  obtain ⟨h0, hget⟩ := tempTy_eq_ok.mp hT
  have hlt := toInt_lt_of_tempTy hT
  rw [tempTy_eq_ok, toInt_renumber hT hk hroom]
  have hindex : ((k * temps.size : Nat) + t.toInt).toNat = k * temps.size + t.toInt.toNat := by
    omega
  rw [← Int.natCast_mul, hindex, getElem?_repeatTemps hk (by omega)]
  exact ⟨by omega, hget⟩

/-! ## Copies of statements -/

/-- The statement in copy `k` of a body with `size` temporaries. -/
def Shifted (size k : Nat) (s s' : Stmt) : Prop :=
  s.Similar (fun e e' => e' = e.mapTemps (renumber size k)) (renumber size k) s'

/-- Copy number zero is the body itself. -/
theorem shifted_zero (size : Nat) (s : Stmt) : Shifted size 0 s s := by
  unfold Shifted
  rw [renumber_zero]
  exact Stmt.similar_self fun e _ => (Expr.mapTemps_id e).symm

theorem shiftExpr_eq (e : Expr) (h : ∀ n ∈ e.nodes, n ≠ .missing) (size k : Nat) :
    shiftExpr (.ofNat k * .ofNat size) e = .ok (e.mapTemps (renumber size k)) := by
  have hany : e.nodes.any Expr.isMissing = false := by
    rw [List.any_eq_false]
    intro n hn hmissing
    have hne := h n hn
    cases n <;> simp_all [Expr.isMissing]
  rw [shiftExpr, hany]
  rfl

theorem mapM_eq_ok {α β : Type} {f : α → Except Fault β} {g : α → β} {l : List α}
    (h : ∀ a ∈ l, f a = .ok (g a)) : l.mapM f = .ok (l.map g) := by
  induction l with
  | nil => rfl
  | cons a l ih =>
    rw [List.forall_mem_cons] at h
    rw [List.mapM_cons, h.1, ih h.2]
    rfl

/-- The operands of a typed statement are renumbered without a failure. -/
theorem mapOperandsM_shiftExpr (hs : s.Ok P temps defs) (size k : Nat) :
    s.mapOperandsM (shiftExpr (.ofNat k * .ofNat size)) =
      .ok (s.withOperands (s.operands.map (Expr.mapTemps (renumber size k)))) := by
  rw [Stmt.mapOperandsM_eq, mapM_eq_ok fun e he => shiftExpr_eq e (fun n hn => ?_) size k]
  · rfl
  · exact hs.nodes_ne_missing n (List.mem_flatMap.mpr ⟨e, he, hn⟩)

/-- The result of an effect has a number of its own in the copy. -/
theorem resultOf_renumber (hT : tempTy temps t = .ok T) (hk : k < n)
    (hroom : n * temps.size ≤ 2 ^ 31) :
    Effect.resultOf (renumber temps.size k t) = some (renumber temps.size k t) := by
  have h0 := (tempTy_eq_ok.mp (tempTy_renumber hT hk hroom)).1
  have hne : renumber temps.size k t ≠ noTemp := by
    intro h
    rw [h] at h0
    exact absurd h0 (by decide)
  rw [Effect.resultOf, if_neg hne]

/-- A typed statement is copied without a failure. -/
theorem shiftStmt_spec (hs : s.Ok P temps defs) (hk : k < n) (hroom : n * temps.size ≤ 2 ^ 31) :
    ∃ s', shiftStmt (.ofNat k * .ofNat temps.size) s = .ok s' ∧ Shifted temps.size k s s' := by
  have hmap := mapOperandsM_shiftExpr hs temps.size k
  have hsim : s.Similar (fun e e' => e' = e.mapTemps (renumber temps.size k)) id
      (s.withOperands (s.operands.map (Expr.mapTemps (renumber temps.size k)))) := by
    refine Stmt.similar_withOperands ?_
    rw [List.forall₂_map_right_iff]
    exact List.forall₂_same.mpr fun _ _ => rfl
  have hdemand := Stmt.demand_eq_ok hs.ne_missing
  -- only definitions have more to renumber than operands
  cases s with
  | missing => exact hs.elim
  | noop | mark | fence => exact ⟨_, rfl, rfl⟩
  | assign dst src =>
    obtain ⟨src', hsrc', rfl⟩ := hsim
    refine ⟨.assign (renumber temps.size k dst) (src.mapTemps (renumber temps.size k)), ?_,
      _, rfl, rfl⟩
    simp only [shiftStmt, bind_eq_ok]
    exact ⟨(), hdemand, _, hmap, by rw [hsrc']; rfl⟩
  | effect x =>
    obtain ⟨y, hy, hxy⟩ := hsim
    have hresult : (y.result.bind fun t => Effect.resultOf (t + .ofNat k * .ofNat temps.size)) =
        x.result.map (renumber temps.size k) := by
      have hyx : y.result = x.result := by simpa using hxy.result
      rw [hyx]
      cases hr : x.result with
      | none => rfl
      | some t =>
        obtain ⟨⟨T, hT⟩, -⟩ := hs.of_def? (t := t) hr
        exact resultOf_renumber hT hk hroom
    refine ⟨.effect { y with result := x.result.map (renumber temps.size k) }, ?_, _, rfl,
      hxy.callee, hxy.guard, hxy.args, rfl, hxy.memTouch, hxy.memAddr, hxy.memSize, hxy.state⟩
    simp only [shiftStmt, bind_eq_ok]
    refine ⟨(), hdemand, _, hmap, ?_⟩
    rw [hy]
    simp only [hresult]
  | put off data =>
    obtain ⟨data', hdata', hd⟩ := hsim
    refine ⟨_, ?_, data', rfl, hd⟩
    simp only [shiftStmt, bind_eq_ok]
    exact ⟨(), hdemand, _, hmap, by rw [hdata']⟩
  | putIx w ix bias data =>
    obtain ⟨ix', data', hs', hi, hd⟩ := hsim
    refine ⟨_, ?_, ix', data', rfl, hi, hd⟩
    simp only [shiftStmt, bind_eq_ok]
    exact ⟨(), hdemand, _, hmap, by rw [hs']⟩
  | store addr data =>
    obtain ⟨addr', data', hs', ha, hd⟩ := hsim
    refine ⟨_, ?_, addr', data', rfl, ha, hd⟩
    simp only [shiftStmt, bind_eq_ok]
    exact ⟨(), hdemand, _, hmap, by rw [hs']⟩
  | exit guard kind dst =>
    obtain ⟨guard', hs', hg⟩ := hsim
    refine ⟨_, ?_, guard', rfl, hg⟩
    simp only [shiftStmt, bind_eq_ok]
    exact ⟨(), hdemand, _, hmap, by rw [hs']⟩

theorem Shifted.fresh {size : Nat} (h : Shifted size k s s') : s'.fresh = s.fresh := by
  have hops : (s'.operands.map Expr.fresh).sum = (s.operands.map Expr.fresh).sum :=
    Expr.sum_fresh_of_forall₂ h.operands fun e _ => e.fresh_mapTemps
  cases s with
  | assign dst src =>
    obtain ⟨src', rfl, rfl⟩ := h
    cases hatom : src.isAtom with
    | true =>
      simp [Stmt.fresh, Expr.children_of_isAtom hatom,
        Expr.children_of_isAtom ((Expr.isAtom_mapTemps src).trans hatom)]
    | false =>
      exact Expr.sum_fresh_of_forall₂ (Expr.similar_mapTemps hatom).children
        fun e _ => e.fresh_mapTemps
  | missing | noop | mark | fence => rw [show s' = _ from h]
  | put off data =>
    obtain ⟨data', rfl, -⟩ := id h
    exact hops
  | putIx w ix bias data =>
    obtain ⟨ix', data', rfl, -⟩ := id h
    exact hops
  | store addr data =>
    obtain ⟨addr', data', rfl, -⟩ := id h
    exact hops
  | effect x =>
    obtain ⟨y, rfl, -⟩ := id h
    exact hops
  | exit guard kind dst =>
    obtain ⟨guard', rfl, -⟩ := id h
    exact hops

theorem Shifted.flatLength {size : Nat} (h : Shifted size k s s') : s'.flatLength = s.flatLength := by
  rw [Stmt.flatLength, Stmt.flatLength, h.fresh, Stmt.Similar.isNoop h]

theorem sum_shifted {f : Stmt → Nat} {size : Nat} (hf : ∀ s s', Shifted size k s s' → f s' = f s)
    (hss' : List.Forall₂ (Shifted size k) ss ss') : (ss'.map f).sum = (ss.map f).sum := by
  induction hss' with
  | nil => rfl
  | cons hs' _ ih => rw [List.map_cons, List.sum_cons, List.map_cons, List.sum_cons, ih, hf _ _ hs']

/-! ## Typing of copies -/

/-- Behind some copies and the part of copy `k` that defines `defs`, the definitions `defs'` are
those of earlier copies and the renumbered ones. -/
structure Copy (temps : Array Ty) (k : Nat) (defs defs' : List Temp) : Prop where
  declared : ∀ t ∈ defs, ∃ T, tempTy temps t = .ok T
  sub : ∀ t ∈ defs, renumber temps.size k t ∈ defs'
  own : ∀ t ∈ defs', t.toInt < k * temps.size ∨ ∃ u ∈ defs, t = renumber temps.size k u

theorem renumber_inj {u : Temp} {U : Ty} (hT : tempTy temps t = .ok T) (hU : tempTy temps u = .ok U)
    (hk : k < n) (hroom : n * temps.size ≤ 2 ^ 31)
    (h : renumber temps.size k t = renumber temps.size k u) : t = u := by
  have hsum := congrArg Int32.toInt h
  rw [toInt_renumber hT hk hroom, toInt_renumber hU hk hroom] at hsum
  exact Int32.toInt_inj.mp (by omega)

theorem Copy.not_mem (h : Copy temps k defs defs') (hT : tempTy temps t = .ok T) (ht : t ∉ defs)
    (hk : k < n) (hroom : n * temps.size ≤ 2 ^ 31) : renumber temps.size k t ∉ defs' := by
  intro hmem
  rcases h.own _ hmem with hlt | ⟨u, hu, heq⟩
  · have h0 := (tempTy_eq_ok.mp hT).1
    rw [toInt_renumber hT hk hroom] at hlt
    omega
  · obtain ⟨U, hU⟩ := h.declared u hu
    exact ht (renumber_inj hT hU hk hroom heq ▸ hu)

/-- A copied statement keeps the rules. -/
theorem Copy.ok (h : Copy temps k defs defs') (hs : s.Ok P temps defs)
    (hs' : Shifted temps.size k s s') (hk : k < n) (hroom : n * temps.size ≤ 2 ^ 31) :
    s'.Ok P (repeatTemps temps n) defs' ∧ Copy temps k (s.defsAfter defs) (s'.defsAfter defs') := by
  have hdef := hs'.def?
  refine ⟨?_, ?_, ?_, ?_⟩
  · refine hs.similar hs' (hs.allowsStmt (.refl P)) ?_ ?_ ?_
    · intro e _ e' he' U hU
      rw [he']
      refine hU.mapTemps fun t V ht => ?_
      exact ⟨tempTy_renumber ht.1 hk hroom, h.sub t ht.2⟩
    · intro c e' _ he'
      exact he'
    · intro t ht
      obtain ⟨⟨T, hT⟩, hfresh⟩ := hs.of_def? ht
      exact ⟨fun U hU => tempTy_renumber hU hk hroom, h.not_mem hT hfresh hk hroom⟩
  · intro t ht
    rcases Stmt.mem_defsAfter.mp ht with ht | ht
    · exact (hs.of_def? ht).1
    · exact h.declared t ht
  · intro t ht
    rw [Stmt.mem_defsAfter, hdef]
    rcases Stmt.mem_defsAfter.mp ht with ht | ht
    · exact .inl (by rw [ht]; rfl)
    · exact .inr (h.sub t ht)
  · intro t ht
    rw [Stmt.mem_defsAfter, hdef] at ht
    rcases ht with ht | ht
    · obtain ⟨u, hu, rfl⟩ := Option.map_eq_some_iff.mp ht
      exact .inr ⟨u, Stmt.mem_defsAfter.mpr (.inl hu), rfl⟩
    · exact (h.own t ht).imp id fun ⟨u, hu, heq⟩ => ⟨u, Stmt.subset_defsAfter _ _ hu, heq⟩

theorem Copy.allOk (h : Copy temps k defs defs') (hss : Stmt.AllOk P temps defs ss)
    (hss' : List.Forall₂ (Shifted temps.size k) ss ss') (hk : k < n)
    (hroom : n * temps.size ≤ 2 ^ 31) :
    Stmt.AllOk P (repeatTemps temps n) defs' ss' ∧
      Copy temps k (Stmt.defsAfterAll ss defs) (Stmt.defsAfterAll ss' defs') := by
  induction hss' generalizing defs defs' with
  | nil => exact ⟨trivial, h⟩
  | cons hs' _ ih =>
    obtain ⟨hok, hcopy⟩ := h.ok hss.1 hs' hk hroom
    obtain ⟨hall, hcopy'⟩ := ih hcopy hss.2
    exact ⟨⟨hok, hall⟩, hcopy'⟩

/-- The next copy starts with no definitions of its own. -/
theorem Copy.succ (h : Copy temps k defs defs') (hk : k < n) (hroom : n * temps.size ≤ 2 ^ 31) :
    Copy temps (k + 1) [] defs' := by
  refine ⟨by simp, by simp, ?_⟩
  intro t ht
  left
  rw [Nat.cast_add, Nat.cast_one, Int.add_mul, Int.one_mul]
  rcases h.own t ht with hlt | ⟨u, hu, rfl⟩
  · omega
  · obtain ⟨U, hU⟩ := h.declared u hu
    have hlt := toInt_lt_of_tempTy hU
    rw [toInt_renumber hU hk hroom]
    omega

/-! ## Runs of copies -/

/-- The machine `m'` is in copy `k` where `m` is in the body. -/
structure Follows (temps : Array Ty) (n k : Nat) (m m' : Machine) : Prop where
  body : m.temps = temps
  final : m'.temps = repeatTemps temps n
  env : m'.env = m.env
  state : m'.state = m.state
  vals : ∀ t v, m.eval (.tmp t) = .ok v → m'.eval (.tmp (renumber temps.size k t)) = .ok v

theorem expands_shifted (hs : s.Ok P temps defs) (hs' : Shifted temps.size k s s') (hk : k < n)
    (hroom : n * temps.size ≤ 2 ^ 31) :
    s.Expands (Follows temps n k) (Follows temps n k) [s'] := by
  constructor
  · intro m m' m₁ hrel hstep
    obtain ⟨htemps, hfinal, henv, hstate, hvals⟩ := id hrel
    have htype : ∀ t T, tempTy m.temps t = .ok T →
        tempTy m'.temps (renumber temps.size k t) = .ok T := by
      intro t T hT
      rw [hfinal]
      exact tempTy_renumber (htemps ▸ hT) hk hroom
    have hcarry : ∀ e ∈ s.operands, ∀ e', e' = e.mapTemps (renumber temps.size k) →
        m.Carries m' e e' := by
      intro e _ e' he'
      rw [he']
      exact ⟨fun v hv => Machine.eval_mapTemps hstate henv hvals hv,
        fun T hT => Expr.typeIn_mapTemps hT htype⟩
    obtain ⟨st, h⟩ := Machine.step_similar hs' hstate henv hcarry (fun t T _ => htype t T) hstep
    rcases h with ⟨rfl, hstep'⟩ | ⟨t, x, ht, rfl, hstep'⟩
    · exact ⟨_, Machine.exec_cons_eq_some.mpr ⟨_, hstep', rfl⟩, htemps, hfinal, henv, rfl, hvals⟩
    · refine ⟨_, Machine.exec_cons_eq_some.mpr ⟨_, hstep', rfl⟩, htemps, hfinal, henv, rfl, ?_⟩
      intro u v hv
      obtain ⟨⟨U, hU⟩, hv⟩ := Machine.eval_tmp_eq_ok.mp hv
      rw [Machine.eval_tmp_eq_ok]
      refine ⟨⟨U, htype u U hU⟩, ?_⟩
      by_cases hut : u = t
      · rw [hut, Machine.set_vals_self] at hv
        rw [hut, Machine.set_vals_self, hv]
      · -- the number of another temporary is another one in the copy
        rw [Machine.set_vals_of_ne hut] at hv
        have hold := hvals u v (Machine.eval_tmp_eq_ok.mpr ⟨⟨U, hU⟩, hv⟩)
        obtain ⟨⟨T, hT⟩, -⟩ := hs.of_def? ht
        have hne : renumber temps.size k u ≠ renumber temps.size k t := fun heq =>
          hut (renumber_inj (htemps ▸ hU) hT hk hroom heq)
        exact (Machine.set_vals_of_ne hne x).trans (Machine.eval_tmp_eq_ok.mp hold).2
  · intro m m' c dst hrel hleave next kind ss
    have hleave' : m'.step s' = .leave c dst := by
      refine Machine.leave_similar hs' ?_ hleave
      intro e _ e' he' v hv
      rw [he']
      exact Machine.eval_mapTemps hrel.state hrel.env hrel.vals hv
    rw [← hrel.state]
    exact Machine.finish_cons_eq_some.mpr (.inr ⟨c, dst, hleave', rfl⟩)

theorem expanded_shifted (hss : Stmt.AllOk P temps defs ss)
    (hss' : List.Forall₂ (Shifted temps.size k) ss ss') (hk : k < n)
    (hroom : n * temps.size ≤ 2 ^ 31) :
    Expanded (Follows temps n k) (Follows temps n k) ss ss' := by
  induction hss' generalizing defs with
  | nil => exact .nil
  | cons hs' _ ih => exact .cons (expands_shifted hss.1 hs' hk hroom) (ih hss.2)

/-- Copies with the numbers from `k` on, `j` of them. -/
inductive Copies (size : Nat) (body : List Stmt) : Nat → Nat → List Stmt → Prop where
  | nil {k : Nat} : Copies size body k 0 []
  | cons {k j : Nat} {ss rest : List Stmt} : List.Forall₂ (Shifted size k) body ss →
    Copies size body (k + 1) j rest → Copies size body k (j + 1) (ss ++ rest)

/-- What is the same for each copy of a statement adds up copy by copy. -/
theorem Copies.sum {f : Stmt → Nat} {size j : Nat} {cs : List Stmt} (h : Copies size ss k j cs)
    (hf : ∀ k s s', Shifted size k s s' → f s' = f s) : (cs.map f).sum = j * (ss.map f).sum := by
  induction h with
  | nil => simp
  | @cons k j ss' rest hss' _ ih =>
    rw [List.map_append, List.sum_append, ih, sum_shifted (hf k) hss']
    ring

/-- The run of copies with the numbers from `k` on goes through `i` of them and leaves the next one
through an exit. -/
def LeavesCopy (size : Nat) (body : List Stmt) (k i : Nat) (cs : List Stmt) (m : Machine)
    (out : Outcome) : Prop :=
  ∃ k' pre mid rest m₁, cs = pre ++ (mid ++ rest) ∧ Copies size body k i pre ∧
    List.Forall₂ (Shifted size k') body mid ∧ Machine.exec pre m = some m₁ ∧
    Machine.left? mid m₁ = some out

/-- One copy runs as the body does: it is left through an exit, or it comes to its end where the body
jumps to its address. -/
theorem run_copy {b : Block} {c : Const} {env : Env} {m' : Machine} {out : Outcome}
    (hb : Stmt.AllOk P b.temps [] b.stmts) (hnext : b.next = .const c) (hkind : b.kind = .boring)
    (hss' : List.Forall₂ (Shifted b.temps.size k) b.stmts ss') (hk : k < n)
    (hroom : n * b.temps.size ≤ 2 ^ 31) (hfinal : m'.temps = repeatTemps b.temps n)
    (henv : m'.env = env) (hout : b.ends m'.state env = some out) :
    Machine.left? ss' m' = some out ∨
      ∃ m₁', Machine.exec ss' m' = some m₁' ∧ out = ⟨c.bits, .boring, m₁'.state⟩ := by
  have hexp := expanded_shifted hb hss' hk hroom
  have hstart : Follows b.temps n k (.start b.temps env m'.state) m' := by
    refine ⟨rfl, hfinal, henv, rfl, ?_⟩
    intro t v hv
    obtain ⟨-, hval⟩ := Machine.eval_tmp_eq_ok.mp hv
    simp [Machine.start] at hval
  rw [Block.ends_eq, ← List.append_nil b.stmts] at hout
  rcases Machine.finish_append_eq_some.mp hout with hleft | ⟨m₁, hexec, hend⟩
  · exact .inl (hexp.left hstart hleft)
  · obtain ⟨m₁', hexec', hrel⟩ := hexp.exec hstart hexec
    obtain ⟨v, hv, rfl⟩ := Machine.finish_nil_eq_some.mp hend
    rw [hnext, Machine.eval_const, Except.ok.injEq] at hv
    exact .inr ⟨m₁', hexec', by rw [← hv, hkind, hrel.state]⟩

/-- Copies run the body as often as it comes back to its address. If that is fewer times than there
are copies, one of them is left through an exit. -/
theorem Copies.finish {b : Block} {c : Const} {env : Env} {j : Nat} {cs : List Stmt} {m : Machine}
    (h : Copies b.temps.size b.stmts k (j + 1) cs) (hb : Stmt.AllOk P b.temps [] b.stmts)
    (hnext : b.next = .const c) (hkind : b.kind = .boring) (hkj : k + (j + 1) ≤ n)
    (hroom : n * b.temps.size ≤ 2 ^ 31) (hfinal : m.temps = repeatTemps b.temps n)
    (henv : m.env = env) (hrun : b.Repeats c.bits env (j + 1) m.state) :
    ∃ i out, i ≤ j ∧ b.Iterates c.bits env (i + 1) m.state out ∧
      Machine.finish b.next b.kind cs m = some out ∧
      (i < j → LeavesCopy b.temps.size b.stmts k i cs m out) := by
  induction j generalizing k cs m with
  | zero =>
    cases h with
    | @cons _ _ ss' rest hss' hrest =>
      cases hrest
      obtain ⟨out, hout, -⟩ := hrun
      refine ⟨0, out, le_rfl, .one hout, ?_, fun hlt => absurd hlt (lt_irrefl 0)⟩
      rcases run_copy hb hnext hkind hss' (by omega) hroom hfinal henv hout with
        hleft | ⟨m₁', hexec, rfl⟩
      · exact Machine.finish_append_eq_some.mpr (.inl hleft)
      · rw [Machine.finish_append hexec, hnext, hkind]
        exact Machine.finish_nil_eq_some.mpr ⟨c.bits, rfl, rfl⟩
  | succ j ih =>
    cases h with
    | @cons _ _ ss' rest hss' hrest =>
      obtain ⟨out, hout, hagain⟩ := hrun
      rcases run_copy hb hnext hkind hss' (by omega) hroom hfinal henv hout with
        hleft | ⟨m₁', hexec, rfl⟩
      · -- the first copy is left, and with it the whole
        exact ⟨0, out, Nat.zero_le _, .one hout, Machine.finish_append_eq_some.mpr (.inl hleft),
          fun _ => ⟨k, [], ss', rest, m, rfl, .nil, hss', rfl, hleft⟩⟩
      · -- the first copy falls through to the next, as the body jumps to its address
        obtain ⟨htemps, henv'⟩ := Machine.exec_temps hexec
        obtain ⟨i, out', hi, hiter, hfinish, hleaves⟩ := ih hrest (by omega) (htemps.trans hfinal)
          (henv'.trans henv) (hagain rfl rfl)
        refine ⟨i + 1, out', by omega, .more hout hiter, ?_, fun hlt => ?_⟩
        · rw [Machine.finish_append hexec]
          exact hfinish
        · obtain ⟨k', pre, mid, rest', m₂, rfl, hpre, hmid, hexec', hleft⟩ := hleaves (by omega)
          exact ⟨k', ss' ++ pre, mid, rest', m₂, (List.append_assoc _ _ _).symm, .cons hss' hpre,
            hmid, Machine.exec_append_eq_some.mpr ⟨m₁', hexec, hexec'⟩, hleft⟩

/-! ## The unrolled block -/

/-- Bodies that can be made flat: not nested too deeply, with atoms for the arguments of effects. -/
def Shallow (ss : List Stmt) : Prop :=
  ∀ s ∈ ss, (∀ e ∈ s.operands, e.NestsWithin Flat.maxDepth) ∧
    ∀ x, s = .effect x → ∀ a ∈ x.args, a.isAtom = true

theorem Shallow.shifted (h : Shallow ss) (hss' : List.Forall₂ (Shifted temps.size k) ss ss') :
    Shallow ss' := by
  refine forall_of_forall₂ hss' fun s hs s' hs' => ⟨?_, ?_⟩
  · refine forall_of_forall₂ hs'.operands fun e he e' he' => ?_
    rw [he']
    exact ((h s hs).1 e he).mapTemps
  · intro y hy
    subst hy
    cases s with
    | effect x =>
      obtain ⟨y', hy', hxy⟩ := hs'
      cases hy'
      refine forall_of_forall₂ hxy.args fun a ha a' ha' => ?_
      rw [ha', Expr.isAtom_mapTemps]
      exact (h _ hs).2 x rfl a ha
    | assign dst src =>
      obtain ⟨src', h', -⟩ := hs'
      simp at h'
    | put off data =>
      obtain ⟨data', h', -⟩ := hs'
      simp at h'
    | putIx w ix bias data =>
      obtain ⟨ix', data', h', -⟩ := hs'
      simp at h'
    | store addr data =>
      obtain ⟨addr', data', h', -⟩ := hs'
      simp at h'
    | exit guard kind dst =>
      obtain ⟨guard', h', -⟩ := hs'
      simp at h'
    | _ => simp [Shifted, Stmt.Similar] at hs'

/-- Copies keep the rules and can be made flat. -/
theorem Copies.spec {j : Nat} {cs : List Stmt} (h : Copies temps.size ss k j cs)
    (hss : Stmt.AllOk P temps [] ss) (hshallow : Shallow ss) (hcopy : Copy temps k [] defs')
    (hkj : k + j ≤ n) (hroom : n * temps.size ≤ 2 ^ 31) :
    Stmt.AllOk P (repeatTemps temps n) defs' cs ∧ Shallow cs := by
  induction h generalizing defs' with
  | nil => exact ⟨trivial, by simp [Shallow]⟩
  | @cons k j ss' rest hss' _ ih =>
    obtain ⟨hok, hcopy'⟩ := hcopy.allOk hss hss' (by omega) hroom
    obtain ⟨hrest, hshallow'⟩ := ih (hcopy'.succ (n := n) (by omega) hroom) (by omega)
    exact ⟨Stmt.allOk_append.mpr ⟨hok, hrest⟩,
      List.forall_mem_append.mpr ⟨hshallow.shifted hss', hshallow'⟩⟩

theorem mapM_shiftStmt (hss : Stmt.AllOk P temps defs ss) (hk : k < n)
    (hroom : n * temps.size ≤ 2 ^ 31) :
    ∃ ss', ss.mapM (shiftStmt (.ofNat k * .ofNat temps.size)) = .ok ss' ∧
      List.Forall₂ (Shifted temps.size k) ss ss' := by
  induction ss generalizing defs with
  | nil => exact ⟨[], rfl, .nil⟩
  | cons s ss ih =>
    obtain ⟨s', hs', hshift⟩ := shiftStmt_spec hss.1 hk hroom
    obtain ⟨ss', hss', hrest⟩ := ih hss.2
    refine ⟨s' :: ss', ?_, .cons hshift hrest⟩
    rw [List.mapM_cons, hs', hss']
    rfl

theorem copies_spec {j : Nat} (hss : Stmt.AllOk P temps [] ss) (hkj : k + j ≤ n)
    (hroom : n * temps.size ≤ 2 ^ 31) :
    ∃ cs, copies (.ofNat temps.size) ss j k = .ok cs ∧ Copies temps.size ss k j cs := by
  induction j generalizing k with
  | zero => exact ⟨[], rfl, .nil⟩
  | succ j ih =>
    obtain ⟨ss', hss', hshift⟩ := mapM_shiftStmt hss (show k < n by omega) hroom
    obtain ⟨cs, hcs, hcopies⟩ := ih (show k + 1 + j ≤ n by omega)
    refine ⟨ss' ++ cs, ?_, .cons hshift hcopies⟩
    rw [copies, hss', hcs]
    rfl

/-- The number of temporaries of a loop body, `n` times over in flat form. -/
def flatSize (b : Block) (n : Nat) : Nat := n * (b.temps.size + (b.stmts.map Stmt.fresh).sum)

theorem mem_repeatTemps {n : Nat} (h : T ∈ repeatTemps temps n) : T ∈ temps := by
  induction n with
  | zero => simp [repeatTemps] at h
  | succ n ih =>
    rw [repeatTemps, Array.mem_append] at h
    exact h.elim id ih

/-- The block with `n` copies of its body in place of the body. -/
def chained (b : Block) (n : Nat) (cs : List Stmt) : Block :=
  { b with temps := repeatTemps b.temps n, stmts := cs }

/-- A block of copies keeps the rules and can be made flat. -/
theorem Copies.chained_spec {b : Block} {c : Const} {cs : List Stmt}
    (h : Copies b.temps.size b.stmts 0 n cs) (hb : b.Typed P) (hshallow : Shallow b.stmts)
    (hnext : b.next = .const c) (hroom : flatSize b n ≤ 2 ^ 31) :
    (chained b n cs).Typed P ∧ (chained b n cs).NestsWithin Flat.maxDepth ∧
      (chained b n cs).flatSize ≤ 2 ^ 31 ∧ Shallow cs := by
  have hsize : n * b.temps.size ≤ 2 ^ 31 := by
    rw [flatSize, Nat.mul_add] at hroom
    omega
  have hstart : Copy b.temps 0 [] [] := ⟨by simp, by simp, by simp⟩
  obtain ⟨hok, hshallow'⟩ := h.spec hb.stmts hshallow hstart (by omega) hsize
  refine ⟨⟨fun T hT => hb.temps T (mem_repeatTemps hT), hok, ?_, hb.kind⟩,
    ⟨fun s hs => (hshallow' s hs).1, Expr.nestsWithin_of_isAtom (by rw [chained, hnext]; rfl) _⟩, ?_,
    hshallow'⟩
  · -- a constant has its type whatever is defined
    have hold := hb.next
    unfold Block.NextOk at hold ⊢
    simp only [chained, hnext] at hold ⊢
    exact hold
  · rw [Block.flatSize, chained, hb.fresh_next hnext, size_repeatTemps, h.sum fun _ _ _ => Shifted.fresh]
    rw [flatSize, Nat.mul_add] at hroom
    exact hroom

/-- A loop is repeated without a failure, and the result runs it as often as it comes back. -/
theorem repeated_spec {b : Block} {c : Const} {j : Nat} (hb : b.Typed P) (hshallow : Shallow b.stmts)
    (hnext : b.next = .const c) (hkind : b.kind = .boring)
    (hroom : flatSize b (j + 1) ≤ 2 ^ 31) :
    ∃ u l, repeated b (j + 1) = .ok u ∧ u.Typed P ∧ u.Flat ∧ (u.NextFits ↔ b.NextFits) ∧
      u.stmts.length = (j + 1) * l ∧ ∀ env, b.Unrolls c.bits env (j + 1) l u := by
  have hsize : (j + 1) * b.temps.size ≤ 2 ^ 31 := by
    rw [flatSize, Nat.mul_add] at hroom
    omega
  obtain ⟨more, hmore, hcopies⟩ := copies_spec (k := 1) (j := j) hb.stmts (by omega) hsize
  have hall : Copies b.temps.size b.stmts 0 (j + 1) (b.stmts ++ more) :=
    .cons (List.forall₂_same.mpr fun s _ => shifted_zero _ s) hcopies
  obtain ⟨htyped, hnest, hflatSize, hshallow'⟩ := hall.chained_spec hb hshallow hnext hroom
  obtain ⟨u, hu, -, huflat, hkeeps, href⟩ := Block.flatten_spec htyped hnest hflatSize
  refine ⟨u, (b.stmts.map Stmt.flatLength).sum, ?_, hkeeps.typed, huflat, hkeeps.fits, ?_, ?_⟩
  · rw [repeated, Nat.add_sub_cancel, hmore]
    exact hu
  · rw [Block.length_flatten htyped hnest hflatSize hu, chained, hb.fresh_next hnext,
      hall.sum fun _ _ _ => Shifted.flatLength]
    rfl
  · intro env s hrun
    have hcar : ∀ s ∈ b.stmts ++ more,
        Flat.Carried P (chained b (j + 1) (b.stmts ++ more)).temps env (fun defs m => m.Sound defs) s :=
      fun s hs => Flat.carried_sound (hshallow' s hs).2
    obtain ⟨i, out, hi, hiter, hfinish, hleaves⟩ := hall.finish (n := j + 1)
      (m := .start (repeatTemps b.temps (j + 1)) env s) hb.stmts hnext hkind (by omega) hsize rfl rfl
      hrun
    refine ⟨i + 1, out, by omega, by omega, hiter, ?_, fun hlt => ?_⟩
    · refine href env _ hcar s out (Machine.sound_start _ _ _) ?_
      rw [Block.ends_eq]
      exact hfinish
    · -- copies have one flat length, so the number of the exit tells which copy it stands in
      obtain ⟨k', pre, mid, rest, m₁, hsplit, hpre, hmid, hexec, hleft⟩ := hleaves (by omega)
      obtain ⟨q, hlo, hhi, hq⟩ := Block.flatten_exit htyped hnest hflatSize hu hsplit hcar
        (Machine.sound_start _ _ _) hexec hleft
      rw [hpre.sum fun _ _ _ => Shifted.flatLength] at hlo hhi
      rw [sum_shifted (fun _ _ => Shifted.flatLength) hmid, ← Nat.succ_mul] at hhi
      have hout : (u.run s env).outcome = .ok ⟨out.target, out.kind, some q⟩ := by rw [hq]
      obtain ⟨-, guard, dst, hget, htarget⟩ := Machine.exists_exit_of_run hout rfl
      simp only at htarget
      exact ⟨q, guard, out.kind, dst, htarget ▸ hout, hget, hlo, hhi⟩

/-! ## Inverted loops -/

/-- The last statement that is no noop, and the noops behind it. -/
theorem splitLast?_spec {front noops : List Stmt} (h : splitLast? ss = some (front, s, noops)) :
    ss = front ++ s :: noops ∧ ∀ x ∈ noops, x = .noop := by
  unfold splitLast? at h
  simp only at h
  split at h
  · simp at h
  · rename_i s' front' hdrop
    simp only [Option.some.injEq, Prod.mk.injEq] at h
    obtain ⟨rfl, rfl, rfl⟩ := h
    have hnoop : ∀ x ∈ ss.reverse.takeWhile Stmt.isNoop, x = .noop := by
      intro x hx
      have hx' := List.mem_takeWhile_imp hx
      cases x <;> simp_all [Stmt.isNoop]
    refine ⟨?_, hnoop⟩
    -- noops read the same from both ends
    have hsame : (ss.reverse.takeWhile Stmt.isNoop).reverse = ss.reverse.takeWhile Stmt.isNoop := by
      rw [List.eq_replicate_of_mem hnoop, List.reverse_replicate]
    have hsplit := List.takeWhile_append_dropWhile (p := Stmt.isNoop) (l := ss.reverse)
    rw [hdrop] at hsplit
    have hrev := congrArg List.reverse hsplit
    rw [List.reverse_reverse, List.reverse_append, List.reverse_cons, hsame, List.append_assoc] at hrev
    exact hrev.symm

theorem finish_noops {next : Expr} {kind : JumpKind} {m : Machine} (h : ∀ x ∈ ss, x = Stmt.noop) :
    Machine.finish next kind ss m = Machine.finish next kind [] m := by
  induction ss with
  | nil => rfl
  | cons s ss ih =>
    rw [List.forall_mem_cons] at h
    rw [h.1]
    exact ih h.2

/-- An exit at the end of a block goes one way or the other. -/
theorem finish_exit {guard : Expr} {dst next : Const} {m : Machine} {out : Outcome}
    (h : ∀ x ∈ ss, x = Stmt.noop) :
    Machine.finish (.const next) .boring (.exit guard .boring dst :: ss) m = some out ↔
      ∃ g, m.eval guard = .ok g ∧
        out = ⟨if g = 0 then next.bits else dst.bits, .boring, m.state⟩ := by
  rw [Machine.finish, Machine.step]
  cases hg : m.eval guard with
  | error f => simp
  | ok g =>
    by_cases hz : g = 0
    · simp only [hz, if_true, finish_noops h, Machine.finish_nil_eq_some, Machine.eval_const]
      simp
    · simp [hz, eq_comm]

/-- On truth values, negation swaps the two. -/
theorem not_truth {g : UInt64} (h : Ty.i1.Fits g) : (~~~g &&& Ty.i1.mask = 0) ↔ g ≠ 0 := by
  have hlt := Ty.fits_iff_lt.mp h
  have hv : g = 0 ∨ g = 1 := by
    rw [← UInt64.toNat_inj, ← UInt64.toNat_inj]
    simp [Ty.bits] at hlt ⊢
    omega
  rcases hv with rfl | rfl <;> decide

/-- The block with its last exit and its jump exchanged. -/
def exchanged (b : Block) (guard : Expr) (dst next : Const) (front noops : List Stmt) : Block :=
  { b with stmts := front ++ .exit (.unop .not1 guard) .boring next :: noops, next := .const dst }

variable {b : Block} {guard : Expr} {dst next : Const} {front noops : List Stmt}

/-- Exchanging the last exit and the jump behind it changes no outcome. -/
theorem ends_exchanged (hstmts : b.stmts = front ++ .exit guard .boring dst :: noops)
    (hnext : b.next = .const next) (hkind : b.kind = .boring)
    (hnoops : ∀ x ∈ noops, x = Stmt.noop) (hb : b.Typed P) (env : Env) (s : State) (out : Outcome) :
    (exchanged b guard dst next front noops).ends s env = some out ↔ b.ends s env = some out := by
  have hall := hb.stmts
  rw [hstmts, Stmt.allOk_append] at hall
  obtain ⟨hfront, ⟨hguard, -⟩, -⟩ := hall
  rw [Block.ends_eq, Block.ends_eq, exchanged]
  simp only [hstmts, hnext, hkind, Machine.finish_append_eq_some, finish_exit hnoops]
  refine or_congr Iff.rfl (exists_congr fun m => and_congr_right fun hexec => ?_)
  -- the guard is a truth value
  obtain ⟨hsound, -⟩ := (Machine.sound_start b.temps env s).exec hfront hexec
  obtain ⟨htemps, -⟩ := Machine.exec_temps hexec
  have hguard' : guard.HasTy P m.temps (Stmt.defsAfterAll front []) .i1 := by
    rw [show m.temps = b.temps from htemps]
    exact hguard
  have hswap : ∀ g, m.eval guard = .ok g →
      (if ~~~g &&& Ty.i1.mask = 0 then dst.bits else next.bits) =
        if g = 0 then next.bits else dst.bits := by
    intro g hg
    have hnot := not_truth (Machine.eval_fits hsound.fit hguard' hg)
    by_cases hz : g = 0
    · rw [if_pos hz, if_neg fun h => hnot.mp h hz]
    · rw [if_neg hz, if_pos (hnot.mpr hz)]
  constructor
  · intro h
    obtain ⟨g', hg', rfl⟩ := h
    obtain ⟨g, r, hg, hr, rfl⟩ := Machine.eval_unop_eq_ok.mp hg'
    cases hr
    exact ⟨g, hg, by rw [← hswap g hg]; rfl⟩
  · intro h
    obtain ⟨g, hg, rfl⟩ := h
    exact ⟨~~~g &&& Ty.i1.mask, Machine.eval_unop_eq_ok.mpr ⟨g, _, hg, rfl, rfl⟩,
      by rw [hswap g hg]⟩

/-- Exchanging the last exit and the jump behind it keeps the rules, if the old successor would do as
the target of an exit. -/
theorem typed_exchanged (hstmts : b.stmts = front ++ .exit guard .boring dst :: noops)
    (hb : b.Typed P) (htag : next.tag = .u32 ∨ next.tag = .u64) (hexit : P.exit next) :
    (exchanged b guard dst next front noops).Typed P := by
  have hall := hb.stmts
  rw [hstmts, Stmt.allOk_append] at hall
  obtain ⟨hfront, ⟨hguard, hdst, hkind, hP⟩, hrest⟩ := hall
  refine ⟨hb.temps, ?_, .inr ⟨dst, rfl, hdst, hP⟩, hb.kind⟩
  exact Stmt.allOk_append.mpr ⟨hfront, ⟨⟨rfl, rfl, hguard⟩, htag, hkind, hexit⟩, hrest⟩

theorem shallow_of_flat (h : ∀ s ∈ ss, s.Flat) : Shallow ss := by
  refine fun s hs => ⟨(h s hs).nestsWithin, ?_⟩
  intro x hx a ha
  subst hx
  exact h _ hs a (by simp [Stmt.operands, Effect.operands, ha])

theorem shallow_exchanged (hstmts : b.stmts = front ++ .exit guard .boring dst :: noops)
    (hflat : ∀ s ∈ b.stmts, s.Flat) : Shallow (exchanged b guard dst next front noops).stmts := by
  have hshallow := shallow_of_flat hflat
  rw [hstmts, Shallow, List.forall_mem_append, List.forall_mem_cons] at hshallow
  rw [hstmts, List.forall_mem_append, List.forall_mem_cons] at hflat
  refine List.forall_mem_append.mpr ⟨hshallow.1, List.forall_mem_cons.mpr ⟨⟨?_, by simp⟩,
    hshallow.2.2⟩⟩
  have hguard : guard.isAtom = true := hflat.2.1 guard (by simp [Stmt.operands])
  intro e he
  rw [Stmt.operands, List.mem_singleton] at he
  subst he
  intro c hc
  rw [Expr.children, List.mem_singleton] at hc
  exact hc ▸ Expr.nestsWithin_of_isAtom hguard _

/-! ## Loops -/

/-- A loop to `addr` that does what the block does. -/
structure IsLoop (P : Policy) (b : Block) (addr : UInt64) (body : Block) (c : Const) : Prop where
  next : body.next = .const c
  target : c.bits = addr
  kind : body.kind = .boring
  typed : body.Typed P
  shallow : Shallow body.stmts
  ends : ∀ env s out, body.ends s env = some out ↔ b.ends s env = some out

/-- What is found to be a loop is one. -/
theorem loop?_spec {addr : UInt64} {l : Loop} (hP : ∀ c : Const, c.fits = true → P.exit c)
    (hb : b.Typed P) (hflat : ∀ s ∈ b.stmts, s.Flat) (h : loop? b addr = some l) :
    ∃ c, IsLoop P b addr l.body c := by
  unfold loop? at h
  split at h
  · rename_i next hkind hnext
    rw [Option.ite_none_right_eq_some] at h
    obtain ⟨htag, h⟩ := h
    by_cases haddr : next.bits = addr
    -- the jump goes back to the address: the block is the loop as it stands
    · rw [if_pos haddr, Option.some.injEq] at h
      subst h
      exact ⟨next, hnext, haddr, hkind, hb, shallow_of_flat hflat, fun _ _ _ => Iff.rfl⟩
    -- else the last exit may go there, and changes places with the jump
    · rw [if_neg haddr, Option.map_eq_some_iff] at h
      obtain ⟨r, hr, rfl⟩ := h
      unfold invert? at hr
      split at hr
      · rename_i front guard dst noops hsplit
        obtain ⟨hstmts, hnoops⟩ := splitLast?_spec hsplit
        rw [Option.ite_none_right_eq_some, Option.some.injEq] at hr
        obtain ⟨⟨hdst, -⟩, rfl⟩ := hr
        have hexit : P.exit next := by
          rcases hb.next with (h | h) | ⟨c, hc, -, hexit⟩
          · rw [hnext] at h
            exact hP next h.2.2
          · rw [hnext] at h
            exact hP next h.2.2
          · rw [hnext, Expr.const.injEq] at hc
            exact hc ▸ hexit
        exact ⟨dst, rfl, hdst, hkind, typed_exchanged hstmts hb htag hexit,
          shallow_exchanged hstmts hflat, ends_exchanged hstmts hnext hkind hnoops hb⟩
      · simp at hr
  · simp at h

theorem factor_cases (n thresh : Int64) :
    factor n thresh = 0 ∨ factor n thresh = 2 ∨ factor n thresh = 4 ∨ factor n thresh = 8 := by
  unfold factor
  split
  · exact .inl rfl
  · split
    · simp
    · split
      · simp
      · split <;> simp

/-- The loop that is unrolled, and how many times, if the block is one that is. -/
def chosen? (b : Block) (addr : UInt64) (thresh : Int64) : Option (Loop × Nat) :=
  match loop? b addr with
  | none => none
  | some l =>
    match factor (.ofNat l.body.length) thresh with
    | 0 => none
    | n => some (l, n)

end Unroll

namespace Block

open Unroll

variable {b : Block} {addr : UInt64} {thresh : Int64}

theorem unroll_of_none (h : chosen? b addr thresh = none) :
    (b.unroll addr thresh).result = .ok none := by
  unfold chosen? at h
  unfold Block.unroll
  split
  · rfl
  · cases hl : loop? b addr with
    | none => rfl
    | some l =>
      simp only [hl] at h
      cases hf : factor (.ofNat l.body.length) thresh with
      | zero => cases hi : l.inverted <;> simp [hi, hf] <;> rfl
      | succ n => simp [hf] at h

/-- What is chosen is repeated, and fails only if repeating it does. -/
theorem unroll_of_chosen {l : Loop} {n : Nat} (h : chosen? b addr thresh = some (l, n)) :
    (b.unroll addr thresh).result =
      ((repeated l.body n).map fun u => some (u, n)).mapError .fault := by
  unfold chosen? at h
  cases hl : loop? b addr with
  | none => simp [hl] at h
  | some l' =>
    simp only [hl] at h
    cases hf : factor (.ofNat l'.body.length) thresh with
    | zero => simp [hf] at h
    | succ n' =>
      simp only [hf, Option.some.injEq, Prod.mk.injEq] at h
      obtain ⟨rfl, rfl⟩ := h
      have hthresh : ¬thresh ≤ 0 := by
        intro hle
        rw [factor, if_pos hle] at hf
        simp at hf
      unfold Block.unroll
      rw [if_neg hthresh]
      cases hr : repeated l'.body (n' + 1) <;> cases hi : l'.inverted <;>
        simp [hl, hi, hf, hr] <;> rfl

theorem unroll_of_some {l : Loop} {n : Nat} {u : Block} (h : chosen? b addr thresh = some (l, n))
    (hu : repeated l.body n = .ok u) : (b.unroll addr thresh).result = .ok (some (u, n)) := by
  rw [unroll_of_chosen h, hu]
  rfl

/-- What is unrolled is a loop, two, four or eight times. -/
theorem chosen?_spec {l : Loop} {n : Nat} (h : chosen? b addr thresh = some (l, n)) :
    loop? b addr = some l ∧ (n = 2 ∨ n = 4 ∨ n = 8) := by
  unfold chosen? at h
  cases hl : loop? b addr with
  | none => simp [hl] at h
  | some l' =>
    simp only [hl] at h
    have hcases := factor_cases (.ofNat l'.body.length) thresh
    cases hf : factor (.ofNat l'.body.length) thresh with
    | zero => simp [hf] at h
    | succ n' =>
      simp only [hf, Option.some.injEq, Prod.mk.injEq] at h
      obtain ⟨rfl, rfl⟩ := h
      rw [hf] at hcases
      exact ⟨rfl, hcases.resolve_left (by omega)⟩

/-- Nothing is unrolled without a threshold. -/
theorem thresh_pos_of_chosen? {l : Loop} {n : Nat} (h : chosen? b addr thresh = some (l, n)) :
    0 < thresh := by
  refine Int64.not_le.mp fun hle => ?_
  unfold chosen? at h
  cases hl : loop? b addr with
  | none => simp [hl] at h
  | some l' => simp [hl, factor, hle] at h

/-- If the block is unrolled, the numbers of the temporaries that it takes are in range. -/
def RoomToUnroll (b : Block) (addr : UInt64) (thresh : Int64) : Prop :=
  ∀ l n, chosen? b addr thresh = some (l, n) → Unroll.flatSize l.body n ≤ 2 ^ 31

theorem Repeats.congr {b' : Block} {env : Env} {j : Nat} {s : State}
    (hends : ∀ s out, b'.ends s env = some out ↔ b.ends s env = some out)
    (h : b.Repeats addr env j s) : b'.Repeats addr env j s := by
  induction j generalizing s with
  | zero => trivial
  | succ j ih =>
    obtain ⟨out, hout, hagain⟩ := h
    exact ⟨out, (hends s out).mpr hout, fun ht hk => ih (hagain ht hk)⟩

theorem Iterates.congr {b' : Block} {env : Env} {i : Nat} {s : State} {out : Outcome}
    (hends : ∀ s out, b'.ends s env = some out ↔ b.ends s env = some out)
    (h : b'.Iterates addr env i s out) : b.Iterates addr env i s out := by
  induction h with
  | one hout => exact .one ((hends _ _).mp hout)
  | more hout _ ih => exact .more ((hends _ _).mp hout) ih

/-- A flat block is unrolled without a failure. The result runs the block as often as it comes back
to its address, as far as there are copies. -/
theorem unroll_spec {P : Policy} {l : Loop} {n : Nat} (hP : ∀ c : Const, c.fits = true → P.exit c)
    (hb : b.Typed P) (hflat : b.Flat) (hroom : b.RoomToUnroll addr thresh)
    (h : chosen? b addr thresh = some (l, n)) :
    ∃ u len, (b.unroll addr thresh).result = .ok (some (u, n)) ∧ u.Typed P ∧ u.Flat ∧
      (u.NextFits ↔ l.body.NextFits) ∧ u.stmts.length = n * len ∧
      ∀ env, b.Unrolls addr env n len u := by
  obtain ⟨hl, hn⟩ := chosen?_spec h
  obtain ⟨c, hloop⟩ := loop?_spec hP hb hflat.1 hl
  obtain ⟨j, rfl⟩ : ∃ j, n = j + 1 := ⟨n - 1, by omega⟩
  obtain ⟨u, len, hu, htyped, huflat, hfits, hlen, hruns⟩ :=
    repeated_spec hloop.typed hloop.shallow hloop.next hloop.kind (hroom l _ h)
  refine ⟨u, len, unroll_of_some h hu, htyped, huflat, hfits, hlen, ?_⟩
  intro env s hrep
  rw [← hloop.target] at hrep ⊢
  obtain ⟨i, out, h1, hi, hiter, hout⟩ := hruns env s (hrep.congr (hloop.ends env))
  exact ⟨i, out, h1, hi, hiter.congr (hloop.ends env), hout⟩

end Block
end Straightline
