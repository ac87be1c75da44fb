import Mathlib
import Straightline.Pass.Specialize
import Straightline.Proofs.NormalForm

/-!
# Specialized blocks have the same meaning

What a specializer offers is put in the place of the call, statement by statement
(`Specialize.replaced`), and the block is made flat again. If the offers are typed and have the
values of the calls, both steps keep the meaning. Only the calls of the block matter, each at the
point where it stands (`Specializer.Fits`, `Specializer.Suits`); `Block.specialize_calls` says so.
-/

namespace Straightline
namespace Stmt

variable {Q : List Temp → Stmt → Prop} {defs : List Temp} {ss : List Stmt}

/-- `Q` holds of every statement, given the temporaries defined before it. -/
def Throughout (Q : List Temp → Stmt → Prop) : List Temp → List Stmt → Prop
  | _, [] => True
  | defs, s :: ss => Q defs s ∧ Throughout Q (s.defsAfter defs) ss

theorem throughout_of_split
    (h : ∀ before s after, ss = before ++ s :: after → Q (defsAfterAll before defs) s) :
    Throughout Q defs ss := by
  induction ss generalizing defs with
  | nil => trivial
  | cons s ss ih =>
    refine ⟨h [] s ss rfl, ih fun before s' after hsplit => ?_⟩
    exact h (s :: before) s' after (congrArg _ hsplit)

theorem AllOk.throughout {P : Policy} {temps : Array Ty} (hss : AllOk P temps defs ss)
    (h : ∀ s ∈ ss, ∀ defs, s.Ok P temps defs → Q defs s) : Throughout Q defs ss := by
  induction ss generalizing defs with
  | nil => trivial
  | cons s ss ih =>
    rw [List.forall_mem_cons] at h
    exact ⟨h.1 defs hss.1, ih hss.2 h.2⟩

end Stmt

namespace Specializer

/-- What the specializer offers for a typed call of atoms is typed and not nested too deeply. If it
has the type of the call, it keeps the policy. -/
def WellTyped (sp : Specializer) (P : Policy) : Prop :=
  ∀ callee args x temps defs ty, sp callee args = some x → (∀ a ∈ args, a.isAtom = true) →
    (Expr.call callee ty args).HasTy P temps defs ty →
    x.NestsWithin Flat.maxDepth ∧
      ∃ T, x.HasTy .any temps defs T ∧ (T = ty → x.HasTy P temps defs ty)

/-- What the specializer offers at the type of the call has the value of the call wherever the call
has one. -/
def Agrees (sp : Specializer) (P : Policy) (env : Env) : Prop :=
  ∀ callee args x temps defs ty, sp callee args = some x → (∀ a ∈ args, a.isAtom = true) →
    (Expr.call callee ty args).HasTy P temps defs ty → x.HasTy P temps defs ty →
    ∀ (m : Machine) v, m.temps = temps → m.env = env → m.Sound defs →
      m.eval (.call callee ty args) = .ok v → m.eval x = .ok v

/-- What the specializer offers for the call that `s` assigns, if it does, is typed where `s` stands
and not nested too deeply. If it has the type of the call, it keeps the policy. -/
def FitsAt (sp : Specializer) (P : Policy) (temps : Array Ty) (defs : List Temp) (s : Stmt) :
    Prop :=
  ∀ dst callee ty args x, s = .assign dst (.call callee ty args) → sp callee args = some x →
    x.NestsWithin Flat.maxDepth ∧
      ∃ T, x.HasTy .any temps defs T ∧ (T = ty → x.HasTy P temps defs ty)

/-- If what the specializer offers for the call that `s` assigns has the type of the call, it has
the value of the call wherever the call has one. -/
def SuitsAt (sp : Specializer) (P : Policy) (env : Env) (temps : Array Ty) (defs : List Temp)
    (s : Stmt) : Prop :=
  ∀ dst callee ty args x, s = .assign dst (.call callee ty args) → sp callee args = some x →
    x.HasTy P temps defs ty → ∀ (m : Machine) v, m.temps = temps → m.env = env → m.Sound defs →
      m.eval (.call callee ty args) = .ok v → m.eval x = .ok v

/-- The offers for the calls among the statements are typed and not nested too deeply. -/
def Fits (sp : Specializer) (P : Policy) (temps : Array Ty) (defs : List Temp) (ss : List Stmt) :
    Prop :=
  Stmt.Throughout (sp.FitsAt P temps) defs ss

/-- The offers for the calls among the statements have the values of the calls. -/
def Suits (sp : Specializer) (P : Policy) (env : Env) (temps : Array Ty) (defs : List Temp)
    (ss : List Stmt) : Prop :=
  Stmt.Throughout (sp.SuitsAt P env temps) defs ss

section

variable {sp : Specializer} {P : Policy} {env : Env} {temps : Array Ty} {defs : List Temp}
  {ss : List Stmt}

theorem WellTyped.fits (h : sp.WellTyped P) (hss : Stmt.AllOk P temps defs ss)
    (hflat : ∀ s ∈ ss, s.Flat) : sp.Fits P temps defs ss := by
  refine hss.throughout fun s hs defs' hok => ?_
  rintro dst callee ty args x rfl hx
  obtain ⟨T, hT, -⟩ := hok
  obtain rfl : ty = T := hT.1
  exact h callee args x temps defs' ty hx (hflat _ hs) hT

theorem Agrees.suits (h : sp.Agrees P env) (hss : Stmt.AllOk P temps defs ss)
    (hflat : ∀ s ∈ ss, s.Flat) : sp.Suits P env temps defs ss := by
  refine hss.throughout fun s hs defs' hok => ?_
  rintro dst callee ty args x rfl hx
  obtain ⟨T, hT, -⟩ := hok
  obtain rfl : ty = T := hT.1
  exact h callee args x temps defs' ty hx (hflat _ hs) hT

end

/-- A specializer that offers nothing. -/
theorem wellTyped_none (P : Policy) : WellTyped (fun _ _ => none) P := by
  intro callee args x temps defs ty h
  simp at h

end Specializer

namespace Specialize

variable {P : Policy} {sp : Specializer} {temps : Array Ty} {defs : List Temp} {s : Stmt}
  {ss : List Stmt}

/-- The replacement of a statement, or the statement itself. -/
def replaced (sp : Specializer) (temps : Array Ty) (s : Stmt) : Stmt :=
  match replacement? sp temps s with
  | .ok (some s') => s'
  | _ => s

/-- What is known of a statement and of what takes its place. -/
structure Replaced (P : Policy) (temps : Array Ty) (defs : List Temp) (sp : Specializer)
    (s s' : Stmt) : Prop where
  ok : s'.Ok P temps defs
  def? : s'.def? = s.def?
  nests : ∀ e ∈ s'.operands, e.NestsWithin Flat.maxDepth
  args : ∀ x, s' = .effect x → ∀ a ∈ x.args, a.isAtom = true
  step : ∀ env, sp.SuitsAt P env temps defs s → ∀ m m₁ : Machine, m.temps = temps → m.env = env →
    m.Sound defs → m.step s = .next m₁ → m.step s' = .next m₁
  leave : ∀ (m : Machine) k dst, m.step s = .leave k dst → m.step s' = .leave k dst

theorem replaced_self (hs : s.Ok P temps defs) (hflat : s.Flat) : Replaced P temps defs sp s s := by
  refine ⟨hs, rfl, hflat.nestsWithin, ?_, fun _ _ _ _ _ _ _ => id, fun _ _ _ => id⟩
  intro x hx a ha
  subst hx
  exact hflat a (by simp [Stmt.operands, Effect.operands, ha])

/-- The replacement of a typed flat statement is found without a failure. -/
theorem replacement?_spec (hsp : sp.FitsAt P temps defs s) (hs : s.Ok P temps defs)
    (hflat : s.Flat) :
    ∃ o, replacement? sp temps s = .ok o ∧ Replaced P temps defs sp s (o.getD s) := by
  have hself : Replaced P temps defs sp s s := replaced_self hs hflat
  unfold replacement?
  split
  · rename_i dst callee ty args
    cases hx : sp callee args with
    | none => exact ⟨none, rfl, hself⟩
    | some x =>
      obtain ⟨T, hT, hdst, hfresh⟩ := id hs
      obtain rfl : ty = T := hT.1
      obtain ⟨hnest, U, hU, hkeeps⟩ := hsp dst callee ty args x rfl hx
      by_cases hty : U = ty
      · subst hty
        have hx' := hkeeps rfl
        refine ⟨some (.assign dst x), ?_, ⟨U, hx', hdst, hfresh⟩, rfl, ?_, by simp, ?_, ?_⟩
        · simp [hU.typeIn, bind, Except.bind]
        · simpa [Stmt.operands] using hnest
        · intro env hsuits m m₁ htemps henv hm hstep
          obtain ⟨v, V, hv, hV, rfl⟩ := Machine.step_assign.mp hstep
          have hv' := hsuits dst callee U args x rfl hx hx' m v htemps henv hm hv
          exact Machine.step_assign.mpr ⟨v, V, hv', hV, rfl⟩
        · intro m k dst' hleave
          obtain ⟨guard, g, h, -⟩ := Machine.step_eq_leave.mp hleave
          simp at h
      · refine ⟨none, ?_, hself⟩
        simp [hU.typeIn, hty, bind, Except.bind]
  · exact ⟨none, rfl, hself⟩

/-- An offer of another type than that of the call is not taken. -/
theorem replaced_of_ne {dst : Temp} {callee : String} {ty T : Ty} {args : List Expr} {x : Expr}
    (hx : sp callee args = some x) (hT : x.typeIn temps = .ok T) (hne : T ≠ ty) :
    replaced sp temps (.assign dst (.call callee ty args)) =
      .assign dst (.call callee ty args) := by
  simp [replaced, replacement?, hx, hT, hne, bind, Except.bind]

/-- What is known of statements and of what takes their places. -/
structure ReplacedAll (P : Policy) (temps : Array Ty) (defs : List Temp) (sp : Specializer)
    (ss ss' : List Stmt) : Prop where
  ok : Stmt.AllOk P temps defs ss'
  defsAfter : Stmt.defsAfterAll ss' defs = Stmt.defsAfterAll ss defs
  nests : ∀ s ∈ ss', ∀ e ∈ s.operands, e.NestsWithin Flat.maxDepth
  args : ∀ s ∈ ss', ∀ x, s = .effect x → ∀ a ∈ x.args, a.isAtom = true
  finish : ∀ env, sp.Suits P env temps defs ss → ∀ (m : Machine) next kind out, m.temps = temps →
    m.env = env → m.Sound defs → Machine.finish next kind ss m = some out →
    Machine.finish next kind ss' m = some out

theorem ReplacedAll.cons {s' : Stmt} {ss' : List Stmt} (hs : s.Ok P temps defs)
    (h : Replaced P temps defs sp s s')
    (h' : ReplacedAll P temps (s.defsAfter defs) sp ss ss') :
    ReplacedAll P temps defs sp (s :: ss) (s' :: ss') := by
  have hdefs : s'.defsAfter defs = s.defsAfter defs := by
    rw [Stmt.defsAfter, Stmt.defsAfter, h.def?]
  refine ⟨⟨h.ok, hdefs.symm ▸ h'.ok⟩, ?_, ?_, ?_, ?_⟩
  · rw [Stmt.defsAfterAll, Stmt.defsAfterAll, hdefs]
    exact h'.defsAfter
  · exact List.forall_mem_cons.mpr ⟨h.nests, h'.nests⟩
  · exact List.forall_mem_cons.mpr ⟨h.args, h'.args⟩
  · intro env hsuits m next kind out htemps henv hm hout
    rcases Machine.finish_cons_eq_some.mp hout with ⟨m₁, hstep, hrest⟩ | ⟨k, dst, hleave, rfl⟩
    · have hstep' := h.step env hsuits.1 m m₁ htemps henv hm hstep
      have hrest' := h'.finish env hsuits.2 m₁ next kind out
        ((Machine.step_temps hstep).trans htemps) ((Machine.step_env hstep).trans henv)
        (hm.step hstep (htemps.symm ▸ hs)) hrest
      exact Machine.finish_cons_eq_some.mpr (.inl ⟨m₁, hstep', hrest'⟩)
    · exact Machine.finish_cons_eq_some.mpr (.inr ⟨k, dst, h.leave m k dst hleave, rfl⟩)

theorem stmts_spec (hsp : sp.Fits P temps defs ss) (hss : Stmt.AllOk P temps defs ss)
    (hflat : ∀ s ∈ ss, s.Flat) :
    ∃ rs, ss.mapM (replacement? sp temps) = .ok rs ∧
      ((rs.zip ss).map fun r => r.1.getD r.2) = ss.map (replaced sp temps) ∧
      (rs.any Option.isSome = true → ∃ s ∈ ss, ∃ s', replacement? sp temps s = .ok (some s')) ∧
      ReplacedAll P temps defs sp ss (ss.map (replaced sp temps)) := by
  induction ss generalizing defs with
  | nil =>
    exact ⟨[], rfl, rfl, by simp, trivial, rfl, by simp, by simp, fun _ _ _ _ _ _ _ _ _ => id⟩
  | cons s ss ih =>
    rw [List.forall_mem_cons] at hflat
    obtain ⟨o, ho, hrep⟩ := replacement?_spec hsp.1 hss.1 hflat.1
    obtain ⟨rs, hrs, hzip, hany, hall⟩ := ih hsp.2 hss.2 hflat.2
    have hs' : o.getD s = replaced sp temps s := by
      rw [replaced, ho]
      cases o <;> rfl
    refine ⟨o :: rs, ?_, ?_, ?_, ?_⟩
    · rw [List.mapM_cons, ho, hrs]
      rfl
    · rw [List.zip_cons_cons, List.map_cons, List.map_cons, hzip, hs']
    · intro h
      rw [List.any_cons, Bool.or_eq_true] at h
      rcases h with h | h
      · obtain ⟨s', rfl⟩ := Option.isSome_iff_exists.mp h
        exact ⟨s, List.mem_cons_self, s', ho⟩
      · obtain ⟨u, hu, hu'⟩ := hany h
        exact ⟨u, List.mem_cons_of_mem _ hu, hu'⟩
    · rw [List.map_cons, ← hs']
      exact .cons hss.1 hrep hall

end Specialize

/-- The block with the replacements in place, before it is made flat. -/
def Block.specialized (sp : Specializer) (b : Block) : Block :=
  { b with stmts := b.stmts.map (Specialize.replaced sp b.temps) }

/-- If there is anything to specialize, the numbers of the temporaries that it takes are in range. -/
def Block.RoomToSpecialize (sp : Specializer) (b : Block) : Prop :=
  (∃ s ∈ b.stmts, ∃ s', Specialize.replacement? sp b.temps s = .ok (some s')) →
    (b.specialized sp).flatSize ≤ 2 ^ 31

/-- If there is anything to specialize, the numbers of the temporaries that it adds are in range. -/
def Block.RoomForOffers (sp : Specializer) (b : Block) : Prop :=
  (∃ s ∈ b.stmts, ∃ s', Specialize.replacement? sp b.temps s = .ok (some s')) →
    (b.specialized sp).RoomToFlatten

open Specialize in
/-- Helper calls of a flat block are specialized without a failure, and the result does the same, if
what is offered for each of them fits and suits. It is the block itself, or the flat form of the
block with the replacements in place. -/
theorem Block.specialize_calls {P : Policy} {sp : Specializer} {b : Block} (hb : b.Typed P)
    (hflat : b.Flat) (hsp : sp.Fits P b.temps [] b.stmts)
    (hroom : b.RoomForOffers sp) :
    ∃ r, b.specialize sp = .ok r ∧ (r = b ∨ (b.specialized sp).flatten = .ok r) ∧ b.Keeps P r ∧
      ∀ env, sp.Suits P env b.temps [] b.stmts → b.RefinedBy env r := by
  obtain ⟨rs, hrs, hzip, hany, hall⟩ := stmts_spec hsp hb.stmts hflat.1
  have hspec : b.specialize sp = if rs.any Option.isSome then (b.specialized sp).flatten
      else .ok b := by
    rw [Block.specialize, hrs, Block.specialized, ← hzip]
    rfl
  cases h : rs.any Option.isSome with
  | false =>
    -- nothing is replaced, and the block is returned as it is
    refine ⟨b, by rw [hspec, if_neg (by simp [h])], .inl rfl, ⟨hb, id, Iff.rfl⟩,
      fun env _ => .refl env b⟩
  | true =>
    have htyped : (b.specialized sp).Typed P := by
      refine ⟨hb.temps, hall.ok, ?_, hb.kind⟩
      have hnext := hb.next
      unfold Block.NextOk at hnext ⊢
      rw [← hall.defsAfter] at hnext
      exact hnext
    have hnest : (b.specialized sp).NestsWithin Flat.maxDepth :=
      ⟨hall.nests, Expr.nestsWithin_of_isAtom hflat.2 _⟩
    obtain ⟨r, hr, hrflat, hkeeps, -, href⟩ := htyped.flatten_in_room hnest (hroom (hany h))
    refine ⟨r, by rw [hspec, if_pos h, hr], .inr hr, ⟨hkeeps.typed, fun _ => hrflat, hkeeps.fits⟩,
      ?_⟩
    intro env hsuits st out hout
    -- flattening needs values for the arguments of skipped effects; in a flat block these are atoms
    refine href env st out ?_ ?_
    · exact Flat.Carried.eager (fun s hs => Flat.carried_sound (hall.args s hs)) hall.ok rfl rfl
        (Machine.sound_start _ _ _)
    · rw [Block.ends_eq] at hout ⊢
      exact hall.finish env hsuits _ _ _ _ rfl rfl (Machine.sound_start _ _ _) hout

/-- Helper calls of a flat block are specialized without a failure, and the result does the same. -/
theorem Block.specialize_spec {P : Policy} {sp : Specializer} {b : Block} (hsp : sp.WellTyped P)
    (hb : b.Typed P) (hflat : b.Flat) (hroom : b.RoomToSpecialize sp) :
    ∃ r, b.specialize sp = .ok r ∧ b.Keeps P r ∧
      ∀ env, sp.Agrees P env → b.RefinedBy env r := by
  obtain ⟨r, hr, -, hkeeps, href⟩ := Block.specialize_calls hb hflat (hsp.fits hb.stmts hflat.1)
    fun h _ => hroom h
  exact ⟨r, hr, hkeeps, fun env hagree => href env (hagree.suits hb.stmts hflat.1)⟩

/-- A call for which something of another type is offered is still there. -/
theorem Block.call_mem_specialize {sp : Specializer} {b r : Block} {dst : Temp} {callee : String}
    {ty T : Ty} {args : List Expr} {x : Expr}
    (hr : r = b ∨ (b.specialized sp).flatten = .ok r)
    (hcall : .assign dst (.call callee ty args) ∈ b.stmts) (hx : sp callee args = some x)
    (hT : x.typeIn b.temps = .ok T) (hne : T ≠ ty) :
    ∃ args', args'.length = args.length ∧ .assign dst (.call callee ty args') ∈ r.stmts := by
  rcases hr with rfl | hr
  · exact ⟨args, rfl, hcall⟩
  · obtain ⟨-, -, -, r₁, code, temps₁, hstmts, hspread, -⟩ := Block.flatten_eq_ok hr
    have hmem : .assign dst (.call callee ty args) ∈ (b.specialized sp).stmts :=
      List.mem_map.mpr ⟨_, hcall, Specialize.replaced_of_ne hx hT hne⟩
    obtain ⟨s', hs', houtline⟩ := hspread.mem_outline _ hmem (by simp)
    obtain ⟨args', hargs, rfl⟩ := Stmt.outline_eq_call houtline
    exact ⟨args', hargs, by simp [hstmts, hs']⟩

end Straightline
