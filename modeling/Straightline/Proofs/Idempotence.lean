import Mathlib
import Straightline.Proofs.Liveness
import Straightline.Proofs.NormalForm
import Straightline.Proofs.Propagate
import Straightline.Proofs.RegisterReads
import Straightline.Proofs.RegisterWrites
import Straightline.Proofs.Sharing
import Straightline.Proofs.Walk
import Straightline.Proofs.WindowReads
import Straightline.Proofs.WindowWrites

/-!
# A second run of a pass changes nothing

Each pass leaves nothing for itself to do. A pass that walks over the statements with something it
knows is compared with itself on what it left: the second walk knows the same at each point, or has
nothing to know, and leaves the statement there as it is (`stmt_again`); then it leaves all of them
(`stmts_again`). Chains are collapsed to links whose bases are roots, and roots stay roots.

The main statement is `passes_settle`.
-/

namespace Straightline

/-! ## Flat form -/

namespace Flat

variable {P : Policy} {temps : Array Ty} {defs : List Temp} {e next : Expr} {es : List Expr}
  {s : Stmt} {ss : List Stmt} {n : Nat}

/-- `x` does not fail. -/
def Emit.Succeeds {α : Type} (x : Emit α) : Prop :=
  ∀ temps, ∃ u code temps', x temps = .ok (u, code, temps')

theorem Emit.succeeds_pure {α : Type} (u : α) : (pure u : Emit α).Succeeds :=
  fun temps => ⟨u, [], temps, rfl⟩

theorem Emit.succeeds_stmt (s : Stmt) : (Emit.stmt s).Succeeds := fun temps => ⟨(), [s], temps, rfl⟩

theorem Emit.Succeeds.bind {α β : Type} {x : Emit α} {f : α → Emit β} (hx : x.Succeeds)
    (hf : ∀ u, (f u).Succeeds) : (x >>= f).Succeeds := by
  intro temps
  obtain ⟨u, code, temps', hu⟩ := hx temps
  obtain ⟨v, code', temps'', hv⟩ := hf u temps'
  exact ⟨v, code ++ code', temps'', Emit.bind_ok hu hv⟩

theorem Emit.succeeds_mapM {f : Expr → Emit Expr} (h : ∀ e ∈ es, (f e).Succeeds) :
    (es.mapM f).Succeeds := by
  induction es with
  | nil => exact Emit.succeeds_pure _
  | cons e es ih =>
    rw [List.forall_mem_cons] at h
    rw [List.mapM_cons]
    exact h.1.bind fun a => (ih h.2).bind fun as => Emit.succeeds_pure _

theorem succeeds_atomUpTo (h : e.isAtom = true) : (atomUpTo (n + 1) e).Succeeds := by
  cases e with
  | tmp t => exact Emit.succeeds_pure _
  | const c =>
    rw [atomUpTo]
    split
    · exact fun temps => ⟨_, _, _, rfl⟩
    · exact Emit.succeeds_pure _
  | _ => simp [Expr.isAtom] at h

/-- A flat statement is made flat without a failure. -/
theorem succeeds_stmt (hs : s.Ok P temps defs) (hflat : s.Flat) : (stmt s).Succeeds := by
  have hother (hatoms : ∀ e ∈ s.operands, e.isAtom = true) : (do
      Emit.check s.demand
      let s ← s.mapOperandsM atom
      Emit.stmt s : Emit Unit).Succeeds := by
    rw [Stmt.demand_eq_ok hs.ne_missing, Stmt.mapOperandsM_eq]
    refine .bind (fun temps => ⟨(), [], temps, rfl⟩) fun _ =>
      .bind (.bind (Emit.succeeds_mapM fun e he => ?_) fun _ => Emit.succeeds_pure _)
        Emit.succeeds_stmt
    exact succeeds_atomUpTo (hatoms e he)
  cases s with
  | missing => exact hs.elim
  | noop => exact Emit.succeeds_pure _
  | assign dst src =>
    refine .bind ?_ fun _ => Emit.succeeds_stmt _
    obtain ⟨T, hT, -⟩ := hs
    rw [source]
    split
    · exact Emit.succeeds_pure _
    · rw [operands, Expr.demand_eq_ok hT.ne_missing, Expr.mapChildrenM_eq]
      refine .bind (fun temps => ⟨(), [], temps, rfl⟩) fun _ =>
        .bind (Emit.succeeds_mapM fun c hc => ?_) fun _ => Emit.succeeds_pure _
      -- below a right side there is room for `maxDepth` levels, and an atom is one
      exact succeeds_atomUpTo (n := 511) (hflat c hc)
  | _ => exact hother hflat

theorem succeeds_body (hss : Stmt.AllOk P temps defs ss) (hflat : ∀ s ∈ ss, s.Flat)
    (hnext : next.isAtom = true) : (body next ss).Succeeds := by
  induction ss generalizing defs with
  | nil => exact succeeds_atomUpTo hnext
  | cons s ss ih =>
    rw [List.forall_mem_cons] at hflat
    exact (succeeds_stmt hss.1 hflat.1).bind fun _ => ih hss.2 hflat.2

end Flat

/-- A normal block is in flat form already. -/
theorem Block.Normal.flatten {b : Block} (h : b.Normal) : b.flatten = .ok b := by
  have hfilter : b.stmts.filter (!·.isNoop) = b.stmts := by
    rw [List.filter_eq_self]
    intro s hs
    cases s with
    | noop => exact (h.1 _ hs).elim
    | _ => rfl
  rw [Block.flatten_of_normal (fun s hs => .inr (h.1 s hs)) h.2, hfilter]

theorem Block.flatten_again {P : Policy} {b : Block} (hb : b.Typed P) (hflat : b.Flat) :
    ∃ r, b.flatten = .ok r ∧ r.flatten = .ok r := by
  obtain ⟨a, code, temps, hbody⟩ := Flat.succeeds_body hb.stmts hflat.1 hflat.2 b.temps
  have hr := Block.flatten_of_body hbody
  exact ⟨_, hr, (Block.flatten_eq_ok hr).2.1.flatten⟩

/-! ## Registers at fixed offsets -/

namespace RegisterReads

variable {P : Policy} {temps : Array Ty} {defs : List Temp} {k k' : Known} {s s' : Stmt}
  {ss ss' : List Stmt}

/-- What was made of a statement is left alone, and the same is known behind it. -/
theorem stmt_again (hk : k.Ok P temps defs) (h : stmt temps k s = .ok (k', s')) :
    stmt temps k s' = .ok (k', s') := by
  have hsame (heq : s' = s) : stmt temps k s' = .ok (k', s') := by rw [heq, h, heq]
  cases s with
  | assign dst src =>
    cases src with
    | get off ty =>
      simp only [stmt] at h
      cases hfind : k.find? (.ofTy off ty) with
      | none =>
        rw [hfind] at h
        exact hsame (Prod.mk.inj (Except.ok.inj h)).2.symm
      | some v =>
        rw [hfind] at h
        obtain ⟨vty, -, heq⟩ := bind_eq_ok.mp h
        rw [Except.ok.injEq, Prod.mk.injEq] at heq
        obtain ⟨rfl, rfl⟩ := heq
        by_cases hty : vty = ty
        · -- a copy of an atom is no read
          obtain ⟨hatom, -⟩ := hk _ v (Known.mem_of_find? hfind)
          rw [if_pos hty]
          cases v with
          | tmp | const => rfl
          | _ => simp [Expr.isAtom] at hatom
        · exact hsame (by rw [if_neg hty])
    | _ => exact hsame (Prod.mk.inj (Except.ok.inj h)).2.symm
  | put off data =>
    obtain ⟨ty, -, heq⟩ := bind_eq_ok.mp h
    exact hsame (Prod.mk.inj (Except.ok.inj heq)).2.symm
  | _ => exact hsame (Prod.mk.inj (Except.ok.inj h)).2.symm

theorem stmts_again (hk : k.Ok P temps defs) (hss : Stmt.AllOk P temps defs ss)
    (h : stmts temps k ss = .ok ss') : stmts temps k ss' = .ok ss' := by
  induction ss generalizing k defs ss' with
  | nil =>
    obtain rfl := Except.ok.inj h
    rfl
  | cons s ss ih =>
    simp only [stmts, bind_eq_ok] at h
    obtain ⟨⟨k₁, s₁⟩, hs, rest, hrest, heq⟩ := h
    obtain rfl := Except.ok.inj heq
    obtain ⟨k₂, s₂, hs₂, hk₂, -⟩ := stmt_spec hk hss.1
    obtain ⟨rfl, rfl⟩ := Prod.mk.inj (Except.ok.inj (hs.symm.trans hs₂))
    simp only [stmts, bind_eq_ok]
    exact ⟨_, stmt_again hk hs, rest, ih hk₂ hss.2 hrest, rfl⟩

end RegisterReads

open RegisterReads in
theorem Block.reuseReads_again {P : Policy} {b : Block} (hb : b.Typed P) :
    ∃ r, b.reuseReads = .ok r ∧ r.reuseReads = .ok r := by
  have hempty : Known.Ok P b.temps [] [] := by
    intro r e he
    simp at he
  obtain ⟨ss, hss, -⟩ := stmts_spec hempty hb.stmts
  refine ⟨{ b with stmts := ss }, bind_eq_ok.mpr ⟨ss, hss, rfl⟩, bind_eq_ok.mpr ⟨ss, ?_, rfl⟩⟩
  exact stmts_again hempty hb.stmts hss

namespace RegisterWrites

variable {o : Precise} {temps : Array Ty} {p p' : Pending} {s : Stmt} {s' : Option Stmt}
  {ss kept : List Stmt}

/-- A statement stays as it is, or goes and leaves the pending slots as they are. -/
theorem stmt_eq_ok (h : stmt o temps p s = .ok (p', s')) : s' = none ∧ p' = p ∨ s' = some s := by
  cases s with
  | noop =>
    obtain ⟨rfl, rfl⟩ := Prod.mk.inj (Except.ok.inj h)
    exact .inl ⟨rfl, rfl⟩
  | put off data =>
    obtain ⟨ty, -, h⟩ := bind_eq_ok.mp h
    simp only at h
    split at h
    · obtain ⟨rfl, rfl⟩ := Prod.mk.inj (Except.ok.inj h)
      exact .inl ⟨rfl, rfl⟩
    · obtain ⟨q, -, h⟩ := bind_eq_ok.mp h
      exact .inr (Prod.mk.inj (Except.ok.inj h)).2.symm
  | _ =>
    obtain ⟨q, -, h⟩ := bind_eq_ok.mp h
    exact .inr (Prod.mk.inj (Except.ok.inj h)).2.symm

theorem stmts_again (h : stmts o temps ss = .ok (p, kept)) :
    stmts o temps kept = .ok (p, kept) := by
  induction ss generalizing p kept with
  | nil =>
    obtain ⟨rfl, rfl⟩ := Prod.mk.inj (Except.ok.inj h)
    rfl
  | cons s ss ih =>
    simp only [stmts, bind_eq_ok] at h
    obtain ⟨⟨q, rest⟩, hrest, ⟨p', s'⟩, hs, heq⟩ := h
    obtain ⟨rfl, rfl⟩ := Prod.mk.inj (Except.ok.inj heq)
    -- the walk goes backwards: what is pending at `s` comes from the rest, which is `ih`'s
    rcases stmt_eq_ok hs with ⟨rfl, rfl⟩ | rfl
    · exact ih hrest
    · simp only [Option.toList_some, List.singleton_append, stmts, bind_eq_ok]
      exact ⟨_, ih hrest, _, hs, rfl⟩

end RegisterWrites

open RegisterWrites in
theorem Block.dropWrites_again {P : Policy} {b : Block} (o : Precise) (hb : b.Typed P) :
    ∃ r, b.dropWrites o = .ok r ∧ r.dropWrites o = .ok r := by
  obtain ⟨p, kept, h, -⟩ := stmts_spec o hb.stmts
  exact ⟨{ b with stmts := kept }, bind_eq_ok.mpr ⟨_, h, rfl⟩,
    bind_eq_ok.mpr ⟨_, stmts_again h, rfl⟩⟩

/-! ## Constants and copies -/

namespace Expr

theorem eq_of_neutral? {op : Op} {a b x : Expr} (h : neutral? op a b = some x) :
    x = a ∨ x = b := by
  unfold neutral? at h
  grind

theorem eq_of_doubled? {op : Op} {a b x : Expr} (h : doubled? op a b = some x) :
    x = a ∨ ∃ c, x = .const c := by
  unfold doubled? at h
  grind

/-- Simplification makes an operand, a constant or nothing of a right side. -/
theorem simplify_eq_ok {e e' : Expr} (h : e.simplify = .ok e') :
    e' = e ∨ e' ∈ e.children ∨ ∃ c, e' = .const c := by
  cases e with
  | unop op a =>
    simp only [simplify] at h
    split at h
    · exact .inl (Except.ok.inj h).symm
    · obtain ⟨-, -, h⟩ := bind_eq_ok.mp h
      obtain rfl := Except.ok.inj h
      split
      · exact .inr (.inr ⟨_, rfl⟩)
      · exact .inl rfl
  | binop op a b =>
    simp only [simplify] at h
    obtain ⟨-, -, h⟩ := bind_eq_ok.mp h
    obtain ⟨-, -, h⟩ := bind_eq_ok.mp h
    split at h
    · obtain rfl := Except.ok.inj h
      split
      · exact .inr (.inr ⟨_, rfl⟩)
      · exact .inl rfl
    · obtain rfl := Except.ok.inj h
      cases hn : neutral? op a b with
      | some x =>
        refine .inr (.inl ?_)
        rcases eq_of_neutral? hn with rfl | rfl <;> simp [children]
      | none =>
        cases hd : doubled? op a b with
        | none => exact .inl rfl
        | some x =>
          rcases eq_of_doubled? hd with rfl | hconst
          · exact .inr (.inl (by simp [children]))
          · exact .inr (.inr hconst)
  | select c z x =>
    simp only [simplify] at h
    split at h
    · exact .inl (Except.ok.inj h).symm
    · split at h
      · obtain rfl := Except.ok.inj h
        refine .inr (.inl ?_)
        split <;> simp [children]
      · simp at h
  | _ => exact .inl (Except.ok.inj h).symm

end Expr

namespace Propagate

variable {σ σ' : Subst} {s s' : Stmt} {ss ss' : List Stmt} {src src' : Expr}

theorem apply_empty : Subst.empty.apply = id := by
  funext e
  cases e <;> rfl

theorem mapChildren_id (e : Expr) : e.mapChildren id = e := by
  cases e <;> simp [Expr.mapChildren]

/-- The replacements are atoms. -/
def Atomic (σ : Subst) : Prop := ∀ e, e.isAtom = true → (σ.apply e).isAtom = true

theorem Atomic.bind {t : Temp} {e : Expr} (h : Atomic σ) (he : e.isAtom = true) :
    Atomic (σ.bind t e) := by
  intro a ha
  cases a with
  | tmp u =>
    have hu := h (.tmp u) rfl
    simp only [Subst.apply, Subst.bind] at hu ⊢
    split
    · exact he
    · exact hu
  | const c => rfl
  | _ => simp [Expr.isAtom] at ha

/-- What was made of a right side is not simplified any more. -/
theorem source_again (hσ : Atomic σ) (hflat : ∀ c ∈ src.children, c.isAtom = true)
    (h : source σ src = .ok src') : source .empty src' = .ok src' := by
  have hself (hatom : src'.isAtom = true) : source .empty src' = .ok src' := by
    rw [source, if_pos hatom, apply_empty, id]
  unfold source at h
  split at h
  · rename_i hatom
    exact hself (Except.ok.inj h ▸ hσ src hatom)
  · rename_i hnode
    obtain ⟨_, hdemand, h⟩ := bind_eq_ok.mp h
    have hsim : src.Similar (fun c c' => c' = σ.apply c) (src.mapChildren σ.apply) :=
      Expr.similar_mapChildren fun _ _ => rfl
    rcases Expr.simplify_eq_ok h with rfl | hmem | ⟨c, rfl⟩
    · -- nothing was simplified, and the second run looks at the same operands
      have hdemand' : (src.mapChildren σ.apply).demand = .ok () := by
        cases src with
        | missing => exact hdemand
        | _ => rfl
      rw [source, if_neg (by rwa [hsim.isAtom]), hdemand', apply_empty, mapChildren_id]
      exact h
    · have hatoms : ∀ c ∈ (src.mapChildren σ.apply).children, c.isAtom = true :=
        forall_of_forall₂ hsim.children fun c hc c' hcc' => hcc' ▸ hσ c (hflat c hc)
      exact hself (hatoms src' hmem)
    · exact hself rfl

theorem isAtom_of_isCopyable {e : Expr} (h : isCopyable e = true) : e.isAtom = true := by
  cases e <;> simp_all [isCopyable, Expr.isAtom]

/-- What stays of a statement is left alone, and replacements stay atoms. -/
theorem stmt_again {r : Option Stmt} (hσ : Atomic σ) (hflat : s.Flat)
    (h : stmt σ s = .ok (σ', r)) :
    Atomic σ' ∧ ∀ s', r = some s' → stmt .empty s' = .ok (.empty, some s') := by
  cases s with
  | noop =>
    obtain ⟨rfl, rfl⟩ := Prod.mk.inj (Except.ok.inj h)
    exact ⟨hσ, by simp⟩
  | assign dst src =>
    obtain ⟨src', hsrc, h⟩ := bind_eq_ok.mp h
    rw [Except.ok.injEq] at h
    split at h
    · -- a copy goes, so the second run has nothing to substitute
      rename_i hcopy
      obtain ⟨rfl, rfl⟩ := Prod.mk.inj h
      exact ⟨hσ.bind (isAtom_of_isCopyable hcopy), by simp⟩
    · rename_i hcopy
      obtain ⟨rfl, rfl⟩ := Prod.mk.inj h
      refine ⟨hσ, fun s' hs' => ?_⟩
      obtain rfl := Option.some.inj hs'
      refine bind_eq_ok.mpr ⟨src', source_again hσ hflat hsrc, ?_⟩
      rw [if_neg hcopy]
  | exit guard kind dst =>
    obtain ⟨rfl, rfl⟩ := Prod.mk.inj (Except.ok.inj h)
    refine ⟨hσ, fun s' hs' => ?_⟩
    split at hs'
    · simp at hs'
    · rename_i hguard
      obtain rfl := Option.some.inj hs'
      simp [stmt, apply_empty, hguard]
  | missing =>
    obtain ⟨_, hdemand, -⟩ := bind_eq_ok.mp h
    simp [Stmt.demand] at hdemand
  | _ =>
    obtain ⟨_, -, h⟩ := bind_eq_ok.mp h
    obtain ⟨rfl, rfl⟩ := Prod.mk.inj (Except.ok.inj h)
    refine ⟨hσ, fun s' hs' => ?_⟩
    obtain rfl := Option.some.inj hs'
    refine bind_eq_ok.mpr ⟨(), rfl, ?_⟩
    rw [apply_empty, Stmt.mapOperands_id]

theorem stmts_again (hσ : Atomic σ) (hflat : ∀ s ∈ ss, s.Flat)
    (h : stmts σ ss = .ok (σ', ss')) : stmts .empty ss' = .ok (.empty, ss') := by
  induction ss generalizing σ ss' with
  | nil =>
    obtain ⟨rfl, rfl⟩ := Prod.mk.inj (Except.ok.inj h)
    rfl
  | cons s ss ih =>
    rw [List.forall_mem_cons] at hflat
    simp only [stmts, bind_eq_ok] at h
    obtain ⟨⟨σ₁, r⟩, hs, ⟨σ₂, rest⟩, hrest, heq⟩ := h
    obtain ⟨rfl, rfl⟩ := Prod.mk.inj (Except.ok.inj heq)
    obtain ⟨hσ₁, hstay⟩ := stmt_again hσ hflat.1 hs
    have hrest' := ih hσ₁ hflat.2 hrest
    cases r with
    | none => exact hrest'
    | some s' =>
      simp only [Option.toList_some, List.singleton_append, stmts, bind_eq_ok]
      exact ⟨_, hstay s' rfl, _, hrest', rfl⟩

end Propagate

open Propagate in
theorem Block.propagate_again {P : Policy} {b : Block} (hb : b.Typed P) (hflat : b.Flat) :
    ∃ r, b.propagate = .ok r ∧ r.propagate = .ok r := by
  have hempty : Atomic .empty := fun e he => by rwa [apply_empty]
  obtain ⟨σ, ss, hss, -⟩ := stmts_spec (.empty P b.temps) hb.stmts hflat.1
  refine ⟨{ b with stmts := ss, next := σ.apply b.next }, bind_eq_ok.mpr ⟨_, hss, rfl⟩,
    bind_eq_ok.mpr ⟨_, stmts_again hempty hflat.1 hss, ?_⟩⟩
  simp only [apply_empty, id]

/-! ## Dead code -/

namespace Liveness

variable {live : BitSet} {w w' : Sweep} {s : Stmt} {ss : List Stmt}

/-- A statement goes and leaves what is live as it is, or stays as it is. -/
theorem stmt_eq_ok (h : stmt w s = .ok w') :
    w'.live = w.live ∧ w'.kept = w.kept ∨ w'.kept = s :: w.kept ∧ ∀ dropped,
      stmt { w with dropped } s = .ok { w' with dropped } := by
  have hkeep (h : keep w s = .ok w') : w'.kept = s :: w.kept ∧ ∀ dropped,
      keep { w with dropped } s = .ok { w' with dropped } := by
    obtain ⟨_, hdemand, h⟩ := bind_eq_ok.mp h
    obtain ⟨live', hlive, h⟩ := bind_eq_ok.mp h
    obtain rfl := Except.ok.inj h
    exact ⟨rfl, fun dropped => bind_eq_ok.mpr ⟨_, hdemand, bind_eq_ok.mpr ⟨_, hlive, rfl⟩⟩⟩
  cases s with
  | noop =>
    obtain rfl := Except.ok.inj h
    exact .inl ⟨rfl, rfl⟩
  | assign dst src =>
    simp only [stmt] at h ⊢
    split at h
    · rename_i hlive
      obtain ⟨hkept, hagain⟩ := hkeep h
      exact .inr ⟨hkept, fun dropped => by rw [if_pos hlive]; exact hagain dropped⟩
    · split at h
      · obtain rfl := Except.ok.inj h
        exact .inl ⟨rfl, rfl⟩
      · simp at h
  | effect e =>
    simp only [stmt] at h ⊢
    split at h
    · obtain rfl := Except.ok.inj h
      exact .inl ⟨rfl, rfl⟩
    · rename_i hguard
      obtain ⟨hkept, hagain⟩ := hkeep h
      exact .inr ⟨hkept, fun dropped => by rw [if_neg hguard]; exact hagain dropped⟩
  | _ => exact .inr (hkeep h)

theorem stmts_again (h : stmts live ss = .ok w) :
    stmts live w.kept = .ok { w with dropped := .empty } := by
  induction ss generalizing w with
  | nil =>
    obtain rfl := Except.ok.inj h
    rfl
  | cons s ss ih =>
    obtain ⟨w₁, hrest, hs⟩ := bind_eq_ok.mp h
    have hrest' := ih hrest
    -- a statement that goes has no part in what is live in front of it
    rcases stmt_eq_ok hs with ⟨hlive, hkept⟩ | ⟨hkept, hagain⟩
    · rw [hkept, hrest', hlive]
    · have hs' := hagain .empty
      rw [hkept] at hs' ⊢
      exact bind_eq_ok.mpr ⟨_, hrest', hs'⟩

end Liveness

open Liveness in
theorem Block.sweep_again {P : Policy} {b : Block} (hb : b.Typed P) :
    ∃ r, b.sweep.result = .ok r ∧ r.sweep.result = .ok r := by
  obtain ⟨r, hr, -⟩ := Block.sweep_spec hb
  refine ⟨r, hr, ?_⟩
  simp only [Block.sweep, Journaled.result_bind_eq_ok, Journaled.result_silent_eq_ok,
    Journaled.result_record, Journaled.result_pure] at hr ⊢
  obtain ⟨live, hlive, u, -, w, hw, u', -, heq⟩ := hr
  obtain rfl := Except.ok.inj heq
  exact ⟨live, hlive, (), trivial, _, stmts_again hw, (), trivial, rfl⟩

/-! ## Shared computations -/

namespace Sharing

variable {k : Known} {s : Stmt} {ss : List Stmt}

/-- What is known with the copies forgotten. -/
def Known.original (k : Known) : Known := { k with copyOf := fun _ => none }

theorem rename_original (x : Computation) : x.rename k.original.rename = x := rfl

/-- What was made of a statement is left alone, and no copy is known behind it. -/
theorem Shared.again {k' : Known} {s' : Stmt} (h : Shared k s k' s') (hk : k.Normal) :
    stmt k.original s' = (k'.original, s') := by
  cases h with
  | same hnot =>
    cases s with
    | assign dst src =>
      have hnone : Computation.ofExpr? src = none := by
        rw [← Option.not_isSome_iff_eq_none, Computation.isSome_ofExpr?, hnot dst src rfl]
        simp
      simp only [stmt, hnone]
    | _ => rfl
  | copy => rfl
  | record hx hlookup =>
    -- no equal computation was known the first time, and results are known alike
    have hread := Computation.ofExpr?_expr_rename hx hk.noTemp
    have hlookup' : k.original.result.lookup _ = none := hlookup
    simp only [stmt, hread, rename_original, hlookup']
    rfl

theorem stmts_again (hk : k.Normal) (hss : ∀ s ∈ ss, s.def? ≠ some noTemp) :
    stmts k.original (stmts k ss) = stmts k ss := by
  induction ss generalizing k with
  | nil => rfl
  | cons s ss ih =>
    rw [List.forall_mem_cons] at hss
    have hshared := stmt_shared k s
    simp only [stmts, hshared.again hk]
    rw [ih (hshared.normal hk hss.1) hss.2]

end Sharing

open Sharing in
theorem Block.share_again {P : Policy} {b : Block} (hb : b.Typed P) : b.share.share = b.share := by
  have hagain := stmts_again Known.normal_nothing hb.def?_ne_noTemp
  exact congrArg (fun stmts => { b with stmts }) hagain

/-! ## Chains of sums -/

namespace Chain

variable {P : Policy} {temps : Array Ty} {defs : List Temp} {ch ch' : Links} {s : Stmt}
  {ss : List Stmt} {t : Temp} {ty : Ty}

namespace Links

/-! ### What becomes of the links -/

/-- The same temporaries are links of the same types. -/
def Parallel (ch ch' : Links) : Prop :=
  List.Forall₂ (fun p p' => p'.1 = p.1 ∧ p'.2.ty = p.2.ty) ch ch'

theorem Parallel.isRoot (h : Parallel ch ch') (hroot : ch.IsRoot ty t) : ch'.IsRoot ty t := by
  have hlookup : (ch'.lookup t).map (·.ty) = (ch.lookup t).map (·.ty) := by
    clear hroot
    induction h with
    | nil => rfl
    | @cons p p' ch ch' hp _ ih =>
      rw [List.lookup_cons, List.lookup_cons, hp.1]
      split
      · simp [hp.2]
      · exact ih
  intro l' hl'
  rw [hl', Option.map_some] at hlookup
  obtain ⟨l, hl, hty⟩ := Option.map_eq_some_iff.mp hlookup.symm
  exact hty ▸ hroot l hl

end Links

/-- A sum is a link with the given base. -/
theorem ofExpr?_sum (root : Temp) (delta : UInt64) (hty : ty = .i32 ∨ ty = .i64) :
    ∃ delta', Link.ofExpr? (sum root delta ty) = some ⟨root, delta', ty⟩ := by
  unfold sum
  rcases hty with rfl | rfl <;> simp only <;> split <;> exact ⟨_, rfl⟩

theorem sum_ne_getIx (root : Temp) (delta : UInt64) (ty : Ty) (w : Window) (ix : Expr)
    (bias : Int64) : sum root delta ty ≠ .getIx w ix bias := by
  unfold sum
  simp only
  split <;> simp

/-- Collapsed, a link is a link of the same type, and anything else is none. -/
theorem ofExpr?_source (ch : Links) (src : Expr) :
    (Link.ofExpr? (source ch src)).map (·.ty) = (Link.ofExpr? src).map (·.ty) := by
  by_cases hgetIx : ∃ w ix bias, src = .getIx w ix bias
  · obtain ⟨w, ix, bias, rfl⟩ := hgetIx
    rfl
  · rw [source_eq_match fun w ix bias h => hgetIx ⟨w, ix, bias, h⟩]
    cases hl : Link.ofExpr? src with
    | none => simp [hl]
    | some l =>
      simp only
      split
      · rw [hl]
      · obtain ⟨delta', hsum⟩ := ofExpr?_sum (ch.walk l.base l.ty).1
          ((ch.walk l.base l.ty).2.1 + l.delta) (Link.ty_of_ofExpr? hl)
        rw [hsum]
        rfl

theorem parallel_collapse (ch : Links) (ss : List Stmt) :
    Links.Parallel (.ofStmts ss) (.ofStmts (ss.map (stmt ch))) := by
  rw [Links.ofStmts_eq, Links.ofStmts_eq]
  unfold Links.Parallel
  rw [List.forall₂_reverse_iff]
  induction ss with
  | nil => exact .nil
  | cons s ss ih =>
    cases s with
    | assign dst src =>
      have hty := ofExpr?_source ch src
      cases hl : Link.ofExpr? src with
      | none =>
        have hnone : Link.ofExpr? (source ch src) = none := by simpa [hl] using hty
        simpa [stmt, Link.ofStmt?, hl, hnone] using ih
      | some l =>
        rw [hl, Option.map_some, Option.map_eq_some_iff] at hty
        obtain ⟨l', hl', hty⟩ := hty
        simpa [stmt, Link.ofStmt?, hl, hl', hty] using ih
    | _ => exact ih

/-! ### The pass -/

section Again

variable (hch : ch.Ordered) (hpar : Links.Parallel ch ch')
include hch hpar

theorem index_again (w : Window) (ix : Expr) (bias : Int64) :
    index ch' w (index ch w ix bias).1 (index ch w ix bias).2 = index ch w ix bias := by
  cases ix with
  | tmp t =>
    have hroot : ∀ u bias', ch.IsRoot .i32 u → index ch' w (.tmp u) bias' = (.tmp u, bias') := by
      intro u bias' hu
      simp [index, (hpar.isRoot hu).walk]
    by_cases hpow : isPowerOfTwo w.count.toUInt64 = true
    · by_cases hhops : (ch.walk t .i32).2.2 = 0
      · have hix : index ch w (.tmp t) bias = (.tmp t, bias) := by simp [index, hpow, hhops]
        rw [hix]
        exact hroot t bias (Links.isRoot_of_hops hhops)
      · have hix : index ch w (.tmp t) bias = (.tmp (ch.walk t .i32).1,
            bias + (ch.walk t .i32).2.1.toUInt32.toInt32.toInt64) := by simp [index, hpow, hhops]
        rw [hix]
        exact hroot _ _ (hch.isRoot_walk .i32 t)
    · -- indices wrap around otherwise, and neither run moves a sum into the displacement
      simp [index, hpow]
  | _ => rfl

theorem source_again (src : Expr) : source ch' (source ch src) = source ch src := by
  by_cases hgetIx : ∃ w ix bias, src = .getIx w ix bias
  · obtain ⟨w, ix, bias, rfl⟩ := hgetIx
    have hix := index_again hch hpar w ix bias
    simp only [source, hix]
  · have hsrc : ∀ w ix bias, src ≠ .getIx w ix bias := fun w ix bias h => hgetIx ⟨w, ix, bias, h⟩
    have hroot {e : Expr} {l : Link} (he : ∀ w ix bias, e ≠ .getIx w ix bias)
        (hl : Link.ofExpr? e = some l) (hl' : ch.IsRoot l.ty l.base) : source ch' e = e := by
      rw [source_eq_match he, hl]
      simp [(hpar.isRoot hl').walk]
    rw [source_eq_match hsrc]
    cases hl : Link.ofExpr? src with
    | none => rw [source_eq_match hsrc, hl]
    | some l =>
      simp only
      split
      · rename_i hhops
        exact hroot hsrc hl (Links.isRoot_of_hops hhops)
      · obtain ⟨delta', hsum⟩ := ofExpr?_sum (ch.walk l.base l.ty).1
          ((ch.walk l.base l.ty).2.1 + l.delta) (Link.ty_of_ofExpr? hl)
        exact hroot (sum_ne_getIx _ _ _) hsum (hch.isRoot_walk l.ty l.base)

theorem stmt_again (s : Stmt) : stmt ch' (stmt ch s) = stmt ch s := by
  cases s with
  | assign dst src => simp only [stmt, source_again hch hpar src]
  | putIx w ix bias data =>
    have hix := index_again hch hpar w ix bias
    simp only [stmt, hix]
  | _ => rfl

end Again

end Chain

open Chain in
theorem Block.collapse_again {P : Policy} {b : Block} (hb : b.Typed P) :
    b.collapse.collapse = b.collapse := by
  have hagain : (b.collapse.stmts.map (stmt (.ofStmts b.collapse.stmts))) = b.collapse.stmts := by
    simp only [Block.collapse, List.map_map]
    refine List.map_congr_left fun s _ => ?_
    exact stmt_again (Links.ordered_ofStmts hb.stmts) (parallel_collapse _ _) s
  exact congrArg (fun stmts => { b with stmts }) hagain

/-! ## Indexed reads -/

namespace WindowReads

variable {P : Policy} {temps : Array Ty} {defs : List Temp} {acc : Access} {ty : Ty} {i : Nat}
  {before before' ss ss' : List Stmt} {s s' : Stmt}

/-- The same statement, or another assignment. -/
def Alike (s s' : Stmt) : Prop :=
  s' = s ∨ ∃ dst src src', s = .assign dst src ∧ s' = .assign dst src'

/-- The search passes over assignments. -/
theorem search_alike (h : List.Forall₂ Alike before before') (n : Nat) :
    search temps acc ty n before' = search temps acc ty n before := by
  induction h generalizing n with
  | nil => rfl
  | @cons s s' before before' hs _ ih =>
    cases n with
    | zero => rfl
    | succ n =>
      rcases hs with rfl | ⟨dst, src, src', rfl, rfl⟩
      · cases s' <;> simp only [search, ih]
      · exact ih n

/-- A value that is found is an atom. -/
theorem isAtom_of_search {n j : Nat} {v : Expr}
    (h : search temps acc ty n before = .ok (.value j v)) : v.isAtom = true := by
  induction before generalizing n with
  | nil => exact absurd h search_nil
  | cons s before ih =>
    cases n with
    | zero => simp [search] at h
    | succ n =>
      rcases search_cons h with ⟨w, ix, bias, -, -, hatom, -⟩ | ⟨-, h⟩
      · exact hatom
      · exact ih h

/-- What was made of a statement is left alone. -/
theorem stmt_again (hbefore : List.Forall₂ Alike before before')
    (h : (stmt temps i before s).result = .ok s') :
    Alike s s' ∧ (stmt temps i before' s').result = .ok s' := by
  have hsame (hpure : (stmt temps i before s).result = .ok s)
      (hpure' : (stmt temps i before' s).result = .ok s) :
      Alike s s' ∧ (stmt temps i before' s').result = .ok s' := by
    rw [hpure, Except.ok.injEq] at h
    exact ⟨.inl h.symm, h ▸ hpure'⟩
  cases s with
  | assign dst src =>
    cases src with
    | getIx w ix bias =>
      simp only [stmt, Journaled.result_bind_eq_ok, Journaled.result_silent_eq_ok] at h
      obtain ⟨found, hfound, h⟩ := h
      have hfound' := (search_alike hbefore i).trans hfound
      cases found with
      | start =>
        obtain rfl := Except.ok.inj h
        refine ⟨.inl rfl, ?_⟩
        simp only [stmt, Journaled.result_bind_eq_ok, Journaled.result_silent_eq_ok]
        exact ⟨_, hfound', rfl⟩
      | stop j rel =>
        obtain ⟨_, -, h⟩ := Journaled.result_bind_eq_ok.mp h
        obtain rfl := Except.ok.inj h
        refine ⟨.inl rfl, ?_⟩
        simp only [stmt, Journaled.result_bind_eq_ok, Journaled.result_silent_eq_ok]
        exact ⟨_, hfound', Journaled.result_bind_eq_ok.mpr ⟨(), rfl, rfl⟩⟩
      | value j v =>
        obtain ⟨_, -, h⟩ := Journaled.result_bind_eq_ok.mp h
        obtain rfl := Except.ok.inj h
        refine ⟨.inr ⟨dst, _, v, rfl, rfl⟩, ?_⟩
        -- the value is an atom and no read
        have hatom := isAtom_of_search hfound
        cases v with
        | tmp | const => rfl
        | _ => simp [Expr.isAtom] at hatom
    | _ => exact hsame rfl rfl
  | _ => exact hsame rfl rfl

theorem stmts_again (hbefore : List.Forall₂ Alike before before')
    (h : (stmts temps i before ss).result = .ok ss') :
    (stmts temps i before' ss').result = .ok ss' := by
  induction ss generalizing i before before' ss' with
  | nil =>
    obtain rfl := Except.ok.inj h
    rfl
  | cons s ss ih =>
    simp only [stmts, Journaled.result_bind_eq_ok, Journaled.result_pure] at h
    obtain ⟨s', hs, rest, hrest, heq⟩ := h
    obtain rfl := Except.ok.inj heq
    obtain ⟨halike, hs'⟩ := stmt_again hbefore hs
    simp only [stmts, Journaled.result_bind_eq_ok, Journaled.result_pure]
    exact ⟨s', hs', rest, ih (.cons halike hbefore) hrest, rfl⟩

end WindowReads

open WindowReads in
theorem Block.reuseElements_again {P : Policy} {b : Block} (hb : b.Typed P) :
    ∃ r, b.reuseElements.result = .ok r ∧ r.reuseElements.result = .ok r := by
  obtain ⟨ss, hss, -⟩ := stmts_spec 0 (.nil : Behind P b.temps [] []) hb.stmts
  refine ⟨{ b with stmts := ss }, Journaled.result_bind_eq_ok.mpr ⟨ss, hss, rfl⟩,
    Journaled.result_bind_eq_ok.mpr ⟨ss, stmts_again .nil hss, rfl⟩⟩

/-! ## Indexed writes -/

namespace Access

/-- Accesses that are the same element are related alike to every other one. -/
theorem relate_of_exact {a b : Access} (h : a.relate b = .exact) (c : Access) :
    a.relate c = b.relate c := by
  obtain ⟨w, ix, bias, bias', -, rfl, rfl, hslot⟩ := relate_eq_exact h
  cases c with
  | fixed off ty => rfl
  | indexed w' ix' bias'' =>
    simp only [relate, bounds, hslot]
    congr

end Access

namespace WindowWrites

variable {P : Policy} {temps : Array Ty} {defs : List Temp} {o : Precise} {acc acc' : Access}
  {mem mem' : Bool} {n k : Nat} {s : Stmt} {ss kept : List Stmt}

/-- Atoms read nothing. -/
theorem readsIn_of_isAtom {es : List Expr} (h : ∀ e ∈ es, e.isAtom = true) :
    readsIn acc mem es = .ok false := by
  induction es with
  | nil => rfl
  | cons e es ih =>
    rw [List.forall_mem_cons] at h
    cases e with
    | tmp t => exact ih h.2
    | const c => exact ih h.2
    | _ => simp [Expr.isAtom] at h

/-- A write that is not overwritten is observed by the first statement, or passes it. -/
theorem overwriter?_cons_eq_none (hs : s.Ok P temps defs) :
    overwriter? temps acc mem n (s :: ss) = .ok none ↔
      verdict temps acc mem s = .ok .observes ∨ verdict temps acc mem s = .ok .passes ∧
        (readsIn acc mem s.nodes = .ok true ∨ readsIn acc mem s.nodes = .ok false ∧
          overwriter? temps acc mem (n + 1) ss = .ok none) := by
  obtain ⟨v, hv⟩ : ∃ v, verdict temps acc mem s = .ok v := verdict_ok hs
  obtain ⟨r, hr⟩ : ∃ r, readsIn acc mem s.nodes = .ok r := readsIn_ok hs.nodes_ne_missing
  have hdemand := Stmt.demand_eq_ok hs.ne_missing
  cases v with
  | overwrites => simp [overwriter?, hv, bind, Except.bind]
  | observes => simp [overwriter?, hv, bind, Except.bind]
  | passes => cases r <;> simp [overwriter?, hv, hr, hdemand, bind, Except.bind]

/-- If a write that may overlap another one is overwritten unobserved, the other one is not: what
overwrites it would be seen to overlap the first. -/
theorem overwriter?_of_unknown (hss : Stmt.AllOk P temps defs ss)
    (hrel : acc'.relate acc = .unknown)
    (h : overwriter? temps acc' mem' k ss = .ok (some n)) (j : Nat) :
    overwriter? temps acc mem j ss = .ok none := by
  induction ss generalizing defs k j with
  | nil => simp [overwriter?] at h
  | cons s ss ih =>
    rw [overwriter?_cons_eq_none hss.1]
    obtain ⟨v, hv⟩ : ∃ v, verdict temps acc mem s = .ok v := verdict_ok hss.1
    cases v with
    | observes => exact .inl hv
    | overwrites =>
      obtain ⟨w, ix, bias, data, rfl, hexact⟩ := putIx_of_overwrites hv
      have hobserves : verdict temps acc' mem' (.putIx w ix bias data) = .ok .observes := by
        simp only [verdict, Access.relate_of_exact hexact acc', Access.relate_comm acc, hrel]
      simp [overwriter?, hobserves, bind, Except.bind] at h
    | passes =>
      refine .inr ⟨hv, ?_⟩
      rcases overwriter?_cons h with ⟨w, ix, bias, data, rfl, hexact⟩ | ⟨-, -, -, hrest⟩
      · simp only [verdict, Access.relate_of_exact hexact acc, hrel] at hv
        simp at hv
      · obtain ⟨r, hr⟩ : ∃ r, readsIn acc mem s.nodes = .ok r := readsIn_ok hss.1.nodes_ne_missing
        cases r with
        | true => exact .inl hr
        | false => exact .inr ⟨hr, ih hss.2 hrest (j + 1)⟩

/-- A write that is not overwritten is not overwritten among what is kept. -/
theorem Kept.overwriter?_eq_none (h : Kept o temps ss kept) (hss : Stmt.AllOk P temps defs ss)
    (hflat : ∀ s ∈ ss, s.Flat) (hnone : overwriter? temps acc mem n ss = .ok none) (j : Nat) :
    overwriter? temps acc mem j kept = .ok none := by
  induction h generalizing defs n j with
  | nil => rfl
  | @keep s ss kept _ ih =>
    rw [List.forall_mem_cons] at hflat
    rw [overwriter?_cons_eq_none hss.1] at hnone ⊢
    refine hnone.imp id fun hpass => ⟨hpass.1, hpass.2.imp id fun hmiss => ?_⟩
    exact ⟨hmiss.1, ih hss.2 hflat.2 hmiss.2 (j + 1)⟩
  | @drop w ix data bias ss kept _ _ _ hover ih =>
    rw [List.forall_mem_cons] at hflat
    rw [overwriter?_cons_eq_none hss.1] at hnone
    have hreads : readsIn acc mem (Stmt.putIx w ix bias data).nodes = .ok false := by
      refine readsIn_of_isAtom fun e he => ?_
      obtain ⟨x, hx, he⟩ := List.mem_flatMap.mp he
      have hatom := hflat.1 x hx
      rw [Expr.nodes_eq, Expr.children_of_isAtom hatom, List.flatMap_nil,
        List.mem_singleton] at he
      exact he ▸ hatom
    rcases hnone with hobserves | ⟨-, hread | ⟨-, hrest⟩⟩
    · -- what is dropped may overlap the write, and so does what overwrites it
      have hrel : (Access.indexed w ix bias).relate acc = .unknown := by
        simp only [verdict, Except.ok.injEq] at hobserves
        split at hobserves <;> simp_all
      exact ih hss.2 hflat.2 (overwriter?_of_unknown hss.2 hrel hover 0) j
    · simp [hreads] at hread
    · exact ih hss.2 hflat.2 hrest j

theorem stmts_again {i : Nat} (hss : Stmt.AllOk P temps defs ss) (hflat : ∀ s ∈ ss, s.Flat)
    (h : (stmts o temps i ss).result = .ok kept) (j : Nat) :
    (stmts o temps j kept).result = .ok kept := by
  induction ss generalizing defs i kept j with
  | nil =>
    obtain rfl := Except.ok.inj h
    rfl
  | cons s ss ih =>
    rw [List.forall_mem_cons] at hflat
    simp only [stmts, Journaled.result_bind_eq_ok, Journaled.result_pure] at h
    obtain ⟨r, hr, rest, hrest, heq⟩ := h
    obtain rfl := Except.ok.inj heq
    cases r with
    | false => exact ih hss.2 hflat.2 hrest j
    | true =>
      simp only [if_true, stmts, Journaled.result_bind_eq_ok, Journaled.result_pure]
      refine ⟨true, ?_, rest, ih hss.2 hflat.2 hrest (j + 1), rfl⟩
      -- only writes are looked at, and this one is still not overwritten among what is kept
      cases s with
      | putIx w ix bias data =>
        obtain ⟨kept, hkept, hrel⟩ := stmts_spec o (i + 1) hss.2
        obtain rfl := Except.ok.inj (hrest.symm.trans hkept)
        simp only [stays, Journaled.result_bind_eq_ok, Journaled.result_silent_eq_ok] at hr ⊢
        obtain ⟨later?, hover, hr⟩ := hr
        cases later? with
        | none => exact ⟨none, hrel.overwriter?_eq_none hss.2 hflat.2 hover (j + 1), rfl⟩
        | some n =>
          obtain ⟨_, -, hr⟩ := Journaled.result_bind_eq_ok.mp hr
          simp at hr
      | _ => rfl

end WindowWrites

open WindowWrites in
theorem Block.dropElements_again {P : Policy} {b : Block} (o : Precise) (hb : b.Typed P)
    (hflat : b.Flat) :
    ∃ r, (b.dropElements o).result = .ok r ∧ (r.dropElements o).result = .ok r := by
  obtain ⟨kept, hkept, -⟩ := stmts_spec o 0 hb.stmts
  refine ⟨{ b with stmts := kept }, Journaled.result_bind_eq_ok.mpr ⟨kept, hkept, rfl⟩,
    Journaled.result_bind_eq_ok.mpr ⟨kept, stmts_again hb.stmts hflat.1 hkept 0, rfl⟩⟩

/-! ## All passes -/

/-- The pass makes a block of `b` that it leaves as it is. -/
def Block.SettledBy {ε : Type} (pass : Block → Except ε Block) (b : Block) : Prop :=
  ∃ r, pass b = .ok r ∧ pass r = .ok r

/-- On a well-formed flat block, a second run of a pass changes nothing: neither statements nor
temporaries, successor or kind of jump. -/
theorem passes_settle {b : Block} (hb : b.check true = .ok ()) (o : Precise) :
    b.SettledBy Block.flatten ∧
    b.SettledBy Block.reuseReads ∧
    b.SettledBy (·.dropWrites o) ∧
    b.SettledBy Block.propagate ∧
    b.SettledBy (·.sweep.result) ∧
    b.share.share = b.share ∧
    b.collapse.collapse = b.collapse ∧
    b.SettledBy (·.reuseElements.result) ∧
    b.SettledBy fun b => (b.dropElements o).result := by
  obtain ⟨htyped, -, hflat⟩ := Block.check_eq_ok_iff.mp hb
  have hflat := hflat rfl
  exact ⟨Block.flatten_again htyped hflat, Block.reuseReads_again htyped,
    Block.dropWrites_again o htyped, Block.propagate_again htyped hflat, Block.sweep_again htyped,
    Block.share_again htyped, Block.collapse_again htyped, Block.reuseElements_again htyped,
    Block.dropElements_again o htyped hflat⟩

/-- A block with something to do for each pass. -/
def Block.restless : Block where
  temps := #[.i32, .i32, .i32, .i32, .i32, .i32, .i32]
  stmts := [.noop,
    .put 8 (.const ⟨.f64i, 1⟩),
    .assign 0 (.get 0 .i32),
    .assign 1 (.get 0 .i32),
    .assign 2 (.binop (.arith .add .w32) (.tmp 0) (.const ⟨.u32, 1⟩)),
    .assign 3 (.binop (.arith .add .w32) (.tmp 2) (.const ⟨.u32, 2⟩)),
    .assign 4 (.binop (.arith .add .w32) (.tmp 0) (.const ⟨.u32, 1⟩)),
    .assign 5 (.tmp 4),
    .put 0 (.tmp 1),
    .put 0 (.tmp 5),
    .putIx ⟨16, .i32, 4⟩ (.tmp 3) 0 (.tmp 1),
    .putIx ⟨16, .i32, 4⟩ (.tmp 3) 4 (.tmp 2),
    .assign 6 (.getIx ⟨16, .i32, 4⟩ (.tmp 3) 0)]
  next := .const ⟨.u32, 32⟩
  kind := .boring

theorem passes_settle_restless :
    Block.restless.check true = .ok () ∧
    Block.restless.SettledBy Block.flatten ∧
    Block.restless.SettledBy Block.reuseReads ∧
    Block.restless.SettledBy (·.dropWrites .none) ∧
    Block.restless.SettledBy Block.propagate ∧
    Block.restless.SettledBy (·.sweep.result) ∧
    Block.restless.share.share = Block.restless.share ∧
    Block.restless.collapse.collapse = Block.restless.collapse ∧
    Block.restless.SettledBy (·.reuseElements.result) ∧
    Block.restless.SettledBy fun b => (b.dropElements .none).result :=
  ⟨rfl, passes_settle rfl .none⟩

/-- The index is the end of a chain of two links, and its root is still there the second time. -/
example : Block.restless.collapse.stmts.drop 10 = [
    .putIx ⟨16, .i32, 4⟩ (.tmp 0) 3 (.tmp 1),
    .putIx ⟨16, .i32, 4⟩ (.tmp 0) 7 (.tmp 2),
    .assign 6 (.getIx ⟨16, .i32, 4⟩ (.tmp 0) 3)] := rfl

end Straightline
