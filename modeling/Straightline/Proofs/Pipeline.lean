import Mathlib
import Straightline.Optimizer
import Straightline.Proofs.Chain
import Straightline.Proofs.Liveness
import Straightline.Proofs.Propagate
import Straightline.Proofs.RegisterReads
import Straightline.Proofs.RegisterWrites
import Straightline.Proofs.Sharing
import Straightline.Proofs.Specialize
import Straightline.Proofs.Unroll
import Straightline.Proofs.WindowReads
import Straightline.Proofs.WindowWrites

/-!
# The pipeline, stage by stage

Each stage takes a block to one that keeps its rules and ends as it does (`Block.Becomes`), and such
stages compose. Unrolling is the exception: a run of the result is several runs of the block, which
`Block.Condenses` says.

How many runs there can be, the journal tells: `Journaled.copies` is the factor that a computation
reports, and only unrolling reports one.

Collapsing chains moves sums into displacements, so the policy that a block keeps weakens on the way.
The stages are therefore stated for a sequence of policies, one step further for each time that
chains are collapsed. Two assumptions are kept apart: `Optimizer.Admits` is what the stages need to
return, and `Optimizer.Trusts` what they need to keep the meaning in an environment.
-/

namespace Straightline

/-! ## The factor in the journal -/

/-- How many copies of a block the event reports. -/
def Event.copies : Event → Nat
  | unrolled n _ => n
  | _ => 1

namespace Journaled

variable {α β : Type} {x : Journaled α} {f : α → Journaled β}

/-- How many copies of a block the computation reports, all in all. -/
def copies (x : Journaled α) : Nat := (x.events.map Event.copies).prod

/-- The computation reports no copies. -/
def Plain (x : Journaled α) : Prop := ∀ e ∈ x.events, e.copies = 1

theorem copies_bind {a : α} (h : x.result = .ok a) :
    (x >>= f).copies = x.copies * (f a).copies := by
  have hbind : (x >>= f).events = x.events ++ (f a).events := by
    show (andThen x f).events = _
    rw [andThen, h]
  rw [copies, hbind, List.map_append, List.prod_append]
  rfl

theorem Plain.copies_eq_one (h : x.Plain) : x.copies = 1 :=
  List.prod_eq_one fun _ hn => by
    obtain ⟨e, he, rfl⟩ := List.mem_map.mp hn
    exact h e he

theorem Plain.bind (h : x.Plain) (hf : ∀ a, (f a).Plain) : (x >>= f).Plain := by
  show ∀ e ∈ (andThen x f).events, e.copies = 1
  unfold andThen
  cases x.result with
  | error e => exact h
  | ok a => exact List.forall_mem_append.mpr ⟨h, hf a⟩

theorem plain_pure (a : α) : (pure a : Journaled α).Plain := by
  intro e he
  simp [pure] at he

theorem plain_silent (x : Except Fault α) : (silent x).Plain := by
  intro e he
  cases x <;> simp [silent] at he

theorem plain_record {e : Event} (h : e.copies = 1) : (record e).Plain :=
  List.forall_mem_singleton.mpr h

end Journaled

namespace Block

open Journaled

theorem plain_sweep (b : Block) : b.sweep.Plain :=
  (plain_silent _).bind fun _ => (plain_record rfl).bind fun _ => (plain_silent _).bind fun _ =>
    (plain_record rfl).bind fun _ => plain_pure _

theorem plain_reuseElements (b : Block) : b.reuseElements.Plain := by
  have hstmt : ∀ i before s, (WindowReads.stmt b.temps i before s).Plain := by
    intro i before s
    unfold WindowReads.stmt
    split
    · refine (plain_silent _).bind fun found => ?_
      cases found with
      | start => exact plain_pure _
      | stop => exact (plain_record rfl).bind fun _ => plain_pure _
      | value => exact (plain_record rfl).bind fun _ => plain_pure _
    · exact plain_pure _
  have hstmts : ∀ i before ss, (WindowReads.stmts b.temps i before ss).Plain := by
    intro i before ss
    induction ss generalizing i before with
    | nil => exact plain_pure _
    | cons s ss ih =>
      exact (hstmt i before s).bind fun _ => (ih (i + 1) (s :: before)).bind fun _ => plain_pure _
  exact (hstmts 0 [] b.stmts).bind fun _ => plain_pure _

theorem plain_dropElements (b : Block) (o : Precise) : (b.dropElements o).Plain := by
  have hstays : ∀ i later s, (WindowWrites.stays o b.temps i later s).Plain := by
    intro i later s
    unfold WindowWrites.stays
    split
    · refine (plain_silent _).bind fun found => ?_
      cases found with
      | none => exact plain_pure _
      | some j => exact (plain_record rfl).bind fun _ => plain_pure _
    · exact plain_pure _
  have hstmts : ∀ i ss, (WindowWrites.stmts o b.temps i ss).Plain := by
    intro i ss
    induction ss generalizing i with
    | nil => exact plain_pure _
    | cons s ss ih =>
      exact (hstays i ss s).bind fun _ => (ih (i + 1)).bind fun _ => plain_pure _
  exact (hstmts 0 b.stmts).bind fun _ => plain_pure _

/-- The unroller itself leaves it to the pipeline to report the factor. -/
theorem plain_unroll (b : Block) (addr : UInt64) (thresh : Int64) :
    (b.unroll addr thresh).Plain := by
  unfold Block.unroll
  split
  · exact plain_pure _
  split
  · exact plain_pure _
  rename_i l _
  cases Unroll.factor (.ofNat l.body.length) thresh with
  | zero =>
    have hdeclined : (record (.loopTooBig addr l.body.length thresh) >>= fun _ =>
        (pure none : Journaled (Option (Block × Nat)))).Plain :=
      (plain_record rfl).bind fun _ => plain_pure _
    cases l.inverted with
    | none => exact hdeclined
    | some i => exact (plain_record rfl).bind fun _ => hdeclined
  | succ n =>
    have hrepeated : (silent (Unroll.repeated l.body (n + 1)) >>= fun r =>
        pure (some (r, n + 1))).Plain :=
      (plain_silent _).bind fun _ => plain_pure _
    cases l.inverted with
    | none => exact hrepeated
    | some i => exact (plain_record rfl).bind fun _ => hrepeated

end Block

namespace Optimizer

open Journaled

variable {s : Stage} {pass : Block → Journaled Block}

theorem plain_stage (h : ∀ b, (pass b).Plain) (b : Block) : (stage s pass b).Plain :=
  (h b).bind fun _ => (plain_record rfl).bind fun _ => (plain_record rfl).bind fun _ => plain_pure _

theorem plain_quiet (s : Stage) (pass : Block → Except Fault Block) (b : Block) :
    (quiet s pass b).Plain :=
  plain_stage (fun b => plain_silent (pass b)) b

theorem plain_dead (b : Block) : (dead b).Plain := plain_stage Block.plain_sweep b

theorem plain_cheap (o : Optimizer) (b : Block) : (o.cheap b).Plain :=
  (plain_quiet _ _ _).bind fun _ => (plain_quiet _ _ _).bind fun _ =>
    (plain_quiet _ _ _).bind fun _ => (plain_dead _).bind fun _ =>
      (plain_quiet _ _ _).bind fun _ => plain_dead _

theorem plain_expensive (o : Optimizer) (b : Block) : (o.expensive b).Plain :=
  (plain_quiet _ _ _).bind fun _ => (plain_quiet _ _ _).bind fun _ =>
    (plain_stage Block.plain_reuseElements _).bind fun _ =>
      (plain_stage (Block.plain_dropElements · o.oracle) _).bind fun _ => plain_dead _

end Optimizer

/-! ## Stages in sequence -/

namespace Block

variable {P Q : Policy} {M : Env → Prop} {b : Block} {x y : Journaled Block}
  {f : Block → Journaled Block}

/-- The computation returns a block that keeps the policy and as much of the form of `b`, and that
ends as `b` does in the environments that `M` admits. -/
def Becomes (Q : Policy) (M : Env → Prop) (b : Block) (x : Journaled Block) : Prop :=
  ∃ r, x.result = .ok r ∧ b.Keeps Q r ∧ ∀ env, M env → b.RefinedBy env r

theorem Becomes.congr (h : b.Becomes Q M x) (hxy : y.result = x.result) : b.Becomes Q M y := by
  obtain ⟨r, hr, h⟩ := h
  exact ⟨r, hxy.trans hr, h⟩

theorem Becomes.mono (h : b.Becomes P M x) (hPQ : P.Le Q) : b.Becomes Q M x := by
  obtain ⟨r, hr, hkeeps, href⟩ := h
  exact ⟨r, hr, ⟨hkeeps.typed.mono hPQ, hkeeps.flat, hkeeps.fits⟩, href⟩

/-- One computation after the other, on flat blocks. -/
theorem Becomes.bind (h : b.Becomes P M x) (hflat : b.Flat)
    (hf : ∀ r, x.result = .ok r → r.Typed P → r.Flat → r.Becomes Q M (f r)) :
    b.Becomes Q M (x >>= f) := by
  obtain ⟨r, hr, hkeeps, href⟩ := h
  obtain ⟨r', hr', hkeeps', href'⟩ := hf r hr hkeeps.typed (hkeeps.flat hflat)
  refine ⟨r', Journaled.result_bind_eq_ok.mpr ⟨r, hr, hr'⟩, ?_, ?_⟩
  · exact ⟨hkeeps'.typed, fun h => hkeeps'.flat (hkeeps.flat h), hkeeps'.fits.trans hkeeps.fits⟩
  · exact fun env henv => (href env henv).trans (href' env henv)

end Block

namespace Optimizer

variable {o : Optimizer} {P : Nat → Policy} {Q : Policy} {M : Env → Prop} {b : Block}
  {addr : UInt64} {k : Nat} {indexed : Bool}

theorem result_stage (s : Stage) (pass : Block → Journaled Block) (b : Block) :
    (stage s pass b).result = (pass b).result := by
  rw [stage, Journaled.result_bind]
  cases (pass b).result <;> rfl

/-- A pass that records nothing, as a stage. -/
theorem becomes_quiet {s : Stage} {pass : Block → Except Fault Block}
    (h : ∃ r, pass b = .ok r ∧ b.Keeps Q r ∧ ∀ env, M env → b.RefinedBy env r) :
    b.Becomes Q M (quiet s pass b) := by
  obtain ⟨r, hr, h⟩ := h
  refine ⟨r, ?_, h⟩
  rw [quiet, result_stage]
  exact Journaled.result_silent_eq_ok.mpr hr

theorem becomes_dead (hb : b.Typed Q) : b.Becomes Q M (dead b) := by
  obtain ⟨r, hr, hkeeps, href⟩ := Block.sweep_spec hb
  exact ⟨r, (result_stage _ _ _).trans hr, hkeeps, fun env _ => href env⟩

/-! ## Assumptions -/

/-- The policies that the pipeline goes through admit what it makes: sums moved into displacements,
successors made exit targets, and what the specializer offers. -/
structure Admits (o : Optimizer) (P : Nat → Policy) : Prop where
  le : ∀ k, (P k).Le (P (k + 1))
  shifts : ∀ k ≤ 1, Chain.Shifts (P k) (P (k + 1))
  exit : ∀ k c, Const.fits c = true → (P k).exit c
  offers : ∀ k, o.specializer.WellTyped (P k)

/-- What a policy has to say for the passes to keep the meaning of blocks in an environment. -/
structure TrustsAt (o : Optimizer) (P : Policy) (env : Env) : Prop where
  unwrapped : P.Unwrapped
  steady : P.Steady
  small : Chain.Small P
  keepsRegs : P.KeepsRegs env
  blind : P.Blind env
  agrees : o.specializer.Agrees P env

/-- Chains are collapsed at most twice, so three policies matter. -/
def Trusts (o : Optimizer) (P : Nat → Policy) (env : Env) : Prop := ∀ k ≤ 2, o.TrustsAt (P k) env

/-! ## Cheap and expensive passes -/

/-- The cheap passes in front of specialization. -/
def reduce (o : Optimizer) (b : Block) : Journaled Block := do
  let b ← quiet .gets Block.reuseReads b
  let b ← quiet .puts (·.dropWrites o.oracle) b
  let b ← quiet .cprop Block.propagate b
  dead b

theorem result_cheap (o : Optimizer) (b : Block) :
    (o.cheap b).result =
      (o.reduce b >>= fun b => quiet .spec (·.specialize o.specializer) b >>= dead).result := by
  simp only [cheap, reduce, Journaled.result_bind, bind_assoc]

/-- Where the cheap passes specialize a block, there is room for its temporaries. -/
def RoomForCheap (o : Optimizer) (b : Block) : Prop :=
  ∀ r, (o.reduce b).result = .ok r → r.RoomToSpecialize o.specializer

theorem becomes_reduce (hk : k ≤ 2) (hb : b.Typed (P k)) (hflat : b.Flat) :
    b.Becomes (P k) (o.Trusts P) (o.reduce b) := by
  have hgets : b.Becomes (P k) (o.Trusts P) (quiet .gets Block.reuseReads b) := by
    obtain ⟨r, hr, hkeeps, href⟩ := Block.reuseReads_spec hb
    exact becomes_quiet
      ⟨r, hr, hkeeps, fun env h => href env (h k hk).unwrapped (h k hk).keepsRegs⟩
  refine hgets.bind hflat fun b _ hb hflat => ?_
  have hputs : b.Becomes (P k) (o.Trusts P) (quiet .puts (·.dropWrites o.oracle) b) := by
    obtain ⟨r, hr, hkeeps, href⟩ := Block.dropWrites_spec o.oracle hb
    exact becomes_quiet ⟨r, hr, hkeeps, fun env h => href env (h k hk).unwrapped⟩
  refine hputs.bind hflat fun b _ hb hflat => ?_
  have hcprop : b.Becomes (P k) (o.Trusts P) (quiet .cprop Block.propagate b) := by
    obtain ⟨r, hr, hkeeps, href⟩ := Block.propagate_spec hb hflat
    exact becomes_quiet ⟨r, hr, hkeeps, fun env _ => href env⟩
  exact hcprop.bind hflat fun b _ hb _ => becomes_dead hb

theorem becomes_cheap (hP : o.Admits P) (hk : k ≤ 2) (hb : b.Typed (P k)) (hflat : b.Flat)
    (hroom : o.RoomForCheap b) : b.Becomes (P k) (o.Trusts P) (o.cheap b) := by
  refine Block.Becomes.congr ?_ (result_cheap o b)
  refine (becomes_reduce hk hb hflat).bind hflat fun b hr hb hflat => ?_
  have hspec : b.Becomes (P k) (o.Trusts P) (quiet .spec (·.specialize o.specializer) b) := by
    obtain ⟨r, hr, hkeeps, href⟩ := Block.specialize_spec (hP.offers k) hb hflat (hroom b hr)
    exact becomes_quiet ⟨r, hr, hkeeps, fun env h => href env (h k hk).agrees⟩
  exact hspec.bind hflat fun b _ hb _ => becomes_dead hb

theorem becomes_share (hb : b.Typed Q) :
    b.Becomes Q M (quiet .cse (fun b => .ok b.share) b) := by
  obtain ⟨hkeeps, href⟩ := Block.share_spec hb
  exact becomes_quiet ⟨b.share, rfl, hkeeps, fun env _ => href env⟩

/-- The expensive passes weaken the policy by one step. -/
theorem becomes_expensive (hP : o.Admits P) (hk : k ≤ 1) (hb : b.Typed (P k)) (hflat : b.Flat) :
    b.Becomes (P (k + 1)) (o.Trusts P) (o.expensive b) := by
  refine (becomes_share hb).bind hflat fun b _ hb hflat => ?_
  have hchains : b.Becomes (P (k + 1)) (o.Trusts P) (quiet .chains (fun b => .ok b.collapse) b) := by
    obtain ⟨hkeeps, href⟩ := Block.collapse_spec (hP.le k) (hP.shifts k hk) hb
    exact becomes_quiet
      ⟨b.collapse, rfl, hkeeps, fun env h => href env (h k (by omega)).small⟩
  refine hchains.bind hflat fun b _ hb hflat => ?_
  have hgetis : b.Becomes (P (k + 1)) (o.Trusts P) (stage .getis Block.reuseElements b) := by
    obtain ⟨r, hr, hkeeps, href⟩ := Block.reuseElements_spec hb
    refine ⟨r, (result_stage _ _ _).trans hr, hkeeps, fun env h => ?_⟩
    have ht := h (k + 1) (by omega)
    exact href env ht.unwrapped ht.steady ht.keepsRegs
  refine hgetis.bind hflat fun b _ hb hflat => ?_
  have hputis : b.Becomes (P (k + 1)) (o.Trusts P) (stage .putis (·.dropElements o.oracle) b) := by
    obtain ⟨r, hr, hkeeps, href⟩ := Block.dropElements_spec o.oracle hb
    refine ⟨r, (result_stage _ _ _).trans hr, hkeeps, fun env h => ?_⟩
    have ht := h (k + 1) (by omega)
    exact href env hflat ht.unwrapped ht.steady ht.blind
  exact hputis.bind hflat fun b _ hb _ => becomes_dead hb

/-! ## Unrolling -/

/-- What is done to an unrolled block. -/
def polish (o : Optimizer) (indexed : Bool) (b : Block) : Journaled Block := do
  let b ← o.cheap b
  if indexed then do
    let b ← o.expensive b
    o.cheap b
  else do
    let b ← quiet .cse (fun b => .ok b.share) b
    dead b

/-- There is room for temporaries where an unrolled block is specialized. -/
def RoomToPolish (o : Optimizer) (indexed : Bool) (b : Block) : Prop :=
  o.RoomForCheap b ∧
    (indexed = true → ∀ c, (o.cheap b >>= o.expensive).result = .ok c → o.RoomForCheap c)

theorem becomes_polish (hP : o.Admits P) (hk : k ≤ 1) (hb : b.Typed (P k)) (hflat : b.Flat)
    (hroom : o.RoomToPolish indexed b) :
    b.Becomes (P (k + 1)) (o.Trusts P) (o.polish indexed b) := by
  refine (becomes_cheap hP (by omega) hb hflat hroom.1).bind hflat fun c hc hct hflat => ?_
  cases indexed with
  | false =>
    refine Block.Becomes.mono ?_ (hP.le k)
    exact (becomes_share hct).bind hflat fun b _ hb _ => becomes_dead hb
  | true =>
    refine (becomes_expensive hP hk hct hflat).bind hflat fun d hd hdt hflat => ?_
    exact becomes_cheap hP (by omega) hdt hflat
      (hroom.2 rfl d (Journaled.result_bind_eq_ok.mpr ⟨c, hc, hd⟩))

theorem plain_polish (o : Optimizer) (indexed : Bool) (b : Block) :
    (o.polish indexed b).Plain := by
  refine (plain_cheap o b).bind fun b => ?_
  cases indexed with
  | false => exact (plain_quiet _ _ _).bind fun _ => plain_dead _
  | true => exact (plain_expensive o b).bind fun _ => plain_cheap o _

/-- What a run can be made of: one run of a block, or as many as loops are unrolled to. -/
def IsFactor (o : Optimizer) (n : Nat) : Prop :=
  n = 1 ∨ 2 ≤ o.level ∧ 0 < o.unrollThresh ∧ (n = 2 ∨ n = 4 ∨ n = 8)

theorem result_unroll_of_none (h : (b.unroll addr o.unrollThresh).result = .ok none) :
    (o.unroll addr indexed b).result = .ok b := by
  rw [unroll]
  exact Journaled.result_bind_eq_ok.mpr ⟨none, h, rfl⟩

theorem copies_unroll_of_none (h : (b.unroll addr o.unrollThresh).result = .ok none) :
    (o.unroll addr indexed b).copies = 1 := by
  rw [unroll, Journaled.copies_bind h, (Block.plain_unroll _ _ _).copies_eq_one,
    (Journaled.plain_pure b).copies_eq_one]

theorem result_unroll_of_some {u : Block} {n : Nat}
    (h : (b.unroll addr o.unrollThresh).result = .ok (some (u, n))) :
    (o.unroll addr indexed b).result = (o.polish indexed u).result := by
  rw [unroll, Journaled.result_bind, h]
  rfl

/-- The factor is the one that is reported, behind which nothing is. -/
theorem copies_unroll_of_some {u : Block} {n : Nat}
    (h : (b.unroll addr o.unrollThresh).result = .ok (some (u, n))) :
    (o.unroll addr indexed b).copies = n := by
  have htail : (Journaled.record (.counted .unrolled) >>= fun _ =>
      Journaled.record (.block .unroll u) >>= fun _ => o.polish indexed u).Plain :=
    (Journaled.plain_record rfl).bind fun _ => (Journaled.plain_record rfl).bind fun _ =>
      plain_polish o indexed u
  calc (o.unroll addr indexed b).copies
      = (Journaled.record (.unrolled n u.stmts.length)).copies * 1 := by
        rw [unroll, Journaled.copies_bind h, (Block.plain_unroll _ _ _).copies_eq_one, one_mul]
        exact (Journaled.copies_bind rfl).trans (congrArg _ htail.copies_eq_one)
    _ = n := by simp [Journaled.copies, Journaled.record, Event.copies]

end Optimizer

namespace Block

variable {addr : UInt64} {env : Env} {a b c : Block} {n : Nat} {s : State}

theorem Repeats.mono {i j : Nat} (h : b.Repeats addr env j s) (hij : i ≤ j) :
    b.Repeats addr env i s := by
  induction i generalizing j s with
  | zero => trivial
  | succ i ih =>
    obtain ⟨j, rfl⟩ : ∃ j', j = j' + 1 := ⟨j - 1, by omega⟩
    obtain ⟨out, hout, hagain⟩ := h
    exact ⟨out, hout, fun ht hk => ih (hagain ht hk) (by omega)⟩

/-- Where a block can be repeated, so can one that ends as it does, to the same outcomes. -/
theorem RefinedBy.repeats (h : a.RefinedBy env b) (hrep : a.Repeats addr env n s) :
    b.Repeats addr env n s := by
  induction n generalizing s with
  | zero => trivial
  | succ n ih =>
    obtain ⟨out, hout, hagain⟩ := hrep
    exact ⟨out, h s out hout, fun ht hk => ih (hagain ht hk)⟩

theorem RefinedBy.iterates {i : Nat} {out : Outcome} (h : a.RefinedBy env b)
    (hiter : b.Iterates addr env i s out) (hrep : a.Repeats addr env i s) :
    a.Iterates addr env i s out := by
  induction hiter with
  | @one s out hout =>
    obtain ⟨out', hout', -⟩ := hrep
    have heq := (h s out' hout').symm.trans hout
    rw [Option.some.injEq] at heq
    exact .one (heq ▸ hout')
  | @more i s s' out hout _ ih =>
    obtain ⟨out', hout', hagain⟩ := hrep
    have heq := (h s out' hout').symm.trans hout
    rw [Option.some.injEq] at heq
    subst heq
    exact .more hout' (ih (hagain rfl rfl))

/-- A run of `r` is some runs of `b`, at most `n`, all but the last with a plain jump to `addr`. -/
def Condenses (addr : UInt64) (env : Env) (n : Nat) (b r : Block) : Prop :=
  ∀ s, b.Repeats addr env n s →
    ∃ i out, 1 ≤ i ∧ i ≤ n ∧ b.Iterates addr env i s out ∧ r.ends s env = some out

theorem Unrolls.condenses {l : Nat} (h : a.Unrolls addr env n l b) : a.Condenses addr env n b := by
  intro s hrep
  obtain ⟨i, out, h1, hi, hiter, hout, -⟩ := h s hrep
  exact ⟨i, out, h1, hi, hiter, hout⟩

theorem RefinedBy.condenses (h : a.RefinedBy env b) (hn : 1 ≤ n) : a.Condenses addr env n b := by
  intro s hrep
  obtain ⟨out, hout, -⟩ := hrep.mono hn
  exact ⟨1, out, le_rfl, hn, .one hout, h s out hout⟩

theorem RefinedBy.trans_condenses (hab : a.RefinedBy env b) (hbc : b.Condenses addr env n c) :
    a.Condenses addr env n c := by
  intro s hrep
  obtain ⟨i, out, h1, hi, hiter, hout⟩ := hbc s (hab.repeats hrep)
  exact ⟨i, out, h1, hi, hab.iterates hiter (hrep.mono hi), hout⟩

theorem Condenses.trans_refinedBy (hab : a.Condenses addr env n b) (hbc : b.RefinedBy env c) :
    a.Condenses addr env n c := by
  intro s hrep
  obtain ⟨i, out, h1, hi, hiter, hout⟩ := hab s hrep
  exact ⟨i, out, h1, hi, hiter, hbc s out hout⟩

theorem Condenses.mono {n' : Nat} (h : a.Condenses addr env n b) (hn : n ≤ n') :
    a.Condenses addr env n' b := by
  intro s hrep
  obtain ⟨i, out, h1, hi, hiter, hout⟩ := h s (hrep.mono hn)
  exact ⟨i, out, h1, hi.trans hn, hiter, hout⟩

end Block

namespace Optimizer

variable {o : Optimizer} {P : Nat → Policy} {b : Block} {addr : UInt64} {k : Nat} {indexed : Bool}

/-- There is room for temporaries where a block is unrolled and polished. -/
def RoomForUnroll (o : Optimizer) (addr : UInt64) (indexed : Bool) (b : Block) : Prop :=
  b.RoomToUnroll addr o.unrollThresh ∧
    ∀ r, (b.unroll addr o.unrollThresh).result = .ok r → ∀ u n, r = some (u, n) →
      o.RoomToPolish indexed u

/-- Unrolling returns a block, each run of which is as many runs of the given one as there are
copies, or fewer. -/
theorem unroll_returns (hP : o.Admits P) (hk : k ≤ 1) (hb : b.Typed (P k)) (hflat : b.Flat)
    (hlevel : 2 ≤ o.level) (hroom : o.RoomForUnroll addr indexed b) :
    ∃ r, (o.unroll addr indexed b).result = .ok r ∧ r.Typed (P (k + 1)) ∧ r.Flat ∧
      o.IsFactor (o.unroll addr indexed b).copies ∧
      ∀ env, o.Trusts P env → b.Condenses addr env (o.unroll addr indexed b).copies r := by
  cases hchosen : Unroll.chosen? b addr o.unrollThresh with
  | none =>
    have hnone := Block.unroll_of_none hchosen
    refine ⟨b, result_unroll_of_none hnone, hb.mono (hP.le k), hflat, ?_⟩
    rw [copies_unroll_of_none hnone]
    exact ⟨.inl rfl, fun env _ => (Block.RefinedBy.refl env b).condenses le_rfl⟩
  | some ln =>
    obtain ⟨l, n⟩ := ln
    obtain ⟨u, len, hu, htyped, huflat, -, -, hruns⟩ :=
      Block.unroll_spec (hP.exit k) hb hflat hroom.1 hchosen
    obtain ⟨r, hr, hkeeps, href⟩ := becomes_polish hP hk htyped huflat (hroom.2 _ hu u n rfl)
    refine ⟨r, (result_unroll_of_some hu).trans hr, hkeeps.typed, hkeeps.flat huflat, ?_⟩
    rw [copies_unroll_of_some hu]
    refine ⟨.inr ⟨hlevel, Block.thresh_pos_of_chosen? hchosen, (Block.chosen?_spec hchosen).2⟩, ?_⟩
    exact fun env henv => (hruns env).condenses.trans_refinedBy (href env henv)

/-! ## The whole pipeline -/

/-- There is room for temporaries at level 2 behind the cheap passes. -/
def RoomForFull (o : Optimizer) (addr : UInt64) (b : Block) : Prop :=
  if b.stmts.any isIndexed then
    (∀ c, (o.expensive b).result = .ok c → o.RoomForCheap c) ∧
      ∀ d, (o.expensive b >>= o.cheap).result = .ok d → o.RoomForUnroll addr true d
  else o.RoomForUnroll addr false b

theorem full_returns (hP : o.Admits P) (hb : b.Typed (P 0)) (hflat : b.Flat)
    (hlevel : 2 ≤ o.level) (hroom : o.RoomForFull addr b) :
    ∃ r, (o.full addr b).result = .ok r ∧ r.Typed (P 2) ∧ r.Flat ∧
      o.IsFactor (o.full addr b).copies ∧
      ∀ env, o.Trusts P env → b.Condenses addr env (o.full addr b).copies r := by
  rw [RoomForFull] at hroom
  rw [full]
  split at hroom
  · rename_i hindexed
    rw [if_pos hindexed]
    obtain ⟨c, hc, hkeeps, href⟩ : b.Becomes (P 1) (o.Trusts P) (o.expensive b >>= o.cheap) := by
      refine (becomes_expensive hP (by omega) hb hflat).bind hflat fun c hc hct hflat => ?_
      exact becomes_cheap hP (by omega) hct hflat (hroom.1 c hc)
    obtain ⟨r, hr, htyped, hrflat, hfactor, hruns⟩ :=
      unroll_returns hP le_rfl hkeeps.typed (hkeeps.flat hflat) hlevel (hroom.2 c hc)
    obtain ⟨d, hd, hc⟩ := Journaled.result_bind_eq_ok.mp hc
    refine ⟨r, ?_, htyped, hrflat, ?_⟩
    · refine Journaled.result_bind_eq_ok.mpr ⟨(), rfl, ?_⟩
      exact Journaled.result_bind_eq_ok.mpr ⟨d, hd, Journaled.result_bind_eq_ok.mpr ⟨c, hc, hr⟩⟩
    · rw [Journaled.copies_bind (a := ()) rfl, Journaled.copies_bind hd, Journaled.copies_bind hc,
        (Journaled.plain_record rfl).copies_eq_one, (plain_expensive o b).copies_eq_one,
        (plain_cheap o d).copies_eq_one, one_mul, one_mul, one_mul]
      exact ⟨hfactor, fun env henv => (href env henv).trans_condenses (hruns env henv)⟩
  · rename_i hindexed
    rw [if_neg hindexed]
    obtain ⟨r, hr, htyped, hrflat, hruns⟩ := unroll_returns hP (by omega) hb hflat hlevel hroom
    exact ⟨r, hr, htyped.mono (hP.le 1), hrflat, hruns⟩

/-- The pipeline behind flat form. -/
def improve (o : Optimizer) (addr : UInt64) (b : Block) : Journaled Block :=
  if o.level = 0 then pure b
  else do
    let b ← o.cheap b
    if o.level = 1 then return b else o.full addr b

theorem result_optimize (h : o.validate = .ok ()) (b : Block) (addr : UInt64) :
    (o.optimize b addr).result = (quiet .flat Block.flatten b >>= o.improve addr).result := by
  simp only [optimize, Journaled.result_bind, Journaled.result_record, h]
  rfl

theorem result_quiet_flat {f : Block} (hf : b.flatten = .ok f) :
    (quiet .flat Block.flatten b).result = .ok f := by
  rw [quiet, result_stage]
  exact Journaled.result_silent_eq_ok.mpr hf

/-- All that is reported is reported behind flat form. -/
theorem copies_optimize {f : Block} (h : o.validate = .ok ()) (hf : b.flatten = .ok f) :
    (o.optimize b addr).copies = (o.improve addr f).copies := by
  have hvalidate : (⟨[], o.validate⟩ : Journaled Unit).copies = 1 := rfl
  rw [optimize, Journaled.copies_bind (a := ()) rfl, Journaled.copies_bind (a := ()) h,
    Journaled.copies_bind (a := ()) rfl, Journaled.copies_bind (result_quiet_flat hf),
    (Journaled.plain_record rfl).copies_eq_one, hvalidate,
    (Journaled.plain_record rfl).copies_eq_one, (plain_quiet _ _ _).copies_eq_one]
  simp only [one_mul]
  rfl

/-- No temporary that the pipeline makes has a number out of range: there is room for those of the
flat block, and for those of specialized and unrolled ones. -/
def HasRoom (o : Optimizer) (b : Block) (addr : UInt64) : Prop :=
  b.flatSize ≤ 2 ^ 31 ∧ ∀ f, b.flatten = .ok f → o.level ≠ 0 → o.RoomForCheap f ∧
    ∀ c, (o.cheap f).result = .ok c → o.level ≠ 1 → o.RoomForFull addr c

/-- Behind flat form the pipeline returns a block, each run of which is as many runs of the given one
as the factor says, or fewer. -/
theorem improve_returns (hP : o.Admits P) (hb : b.Typed (P 0)) (hflat : b.Flat)
    (hlevel : 0 ≤ o.level) (hcheap : o.level ≠ 0 → o.RoomForCheap b)
    (hfull : ∀ c, (o.cheap b).result = .ok c → o.level ≠ 0 → o.level ≠ 1 →
      o.RoomForFull addr c) :
    ∃ r, (o.improve addr b).result = .ok r ∧ r.Typed (P 2) ∧ r.Flat ∧
      o.IsFactor (o.improve addr b).copies ∧
      ∀ env, o.Trusts P env → b.Condenses addr env (o.improve addr b).copies r := by
  have hle : (P 0).Le (P 2) := (hP.le 0).trans (hP.le 1)
  rw [improve]
  by_cases h0 : o.level = 0
  · rw [if_pos h0]
    refine ⟨b, rfl, hb.mono hle, hflat, ?_⟩
    rw [(Journaled.plain_pure b).copies_eq_one]
    exact ⟨.inl rfl, fun env _ => (Block.RefinedBy.refl env b).condenses le_rfl⟩
  rw [if_neg h0]
  obtain ⟨c, hc, hkeeps, href⟩ := becomes_cheap hP (by omega) hb hflat (hcheap h0)
  rw [Journaled.copies_bind hc, (plain_cheap o b).copies_eq_one, one_mul]
  by_cases h1 : o.level = 1
  · rw [if_pos h1, (Journaled.plain_pure c).copies_eq_one]
    refine ⟨c, ?_, hkeeps.typed.mono hle, hkeeps.flat hflat, .inl rfl, fun env henv => ?_⟩
    · exact Journaled.result_bind_eq_ok.mpr ⟨c, hc, by rw [if_pos h1]; rfl⟩
    · exact (href env henv).condenses le_rfl
  · have h2 : 2 ≤ o.level := by
      rw [Int64.le_iff_toInt_le] at hlevel ⊢
      rw [← Int64.toInt_inj] at h0 h1
      simp at hlevel h0 h1 ⊢
      omega
    obtain ⟨r, hr, htyped, hrflat, hfactor, hruns⟩ :=
      full_returns hP hkeeps.typed (hkeeps.flat hflat) h2 (hfull c hc h0 h1)
    rw [if_neg h1]
    refine ⟨r, ?_, htyped, hrflat, hfactor, fun env henv => ?_⟩
    · exact Journaled.result_bind_eq_ok.mpr ⟨c, hc, by rw [if_neg h1]; exact hr⟩
    · exact (href env henv).trans_condenses (hruns env henv)

end Optimizer

/-! ## Room can be computed -/

/-- What holds of the value of a computation, if it has one. -/
instance decidableForallOk {ε α : Type} (x : Except ε α) (p : α → Prop) [DecidablePred p] :
    Decidable (∀ a, x = .ok a → p a) :=
  match x with
  | .ok a => decidable_of_iff (p a) ⟨fun h _ hb => Except.ok.inj hb ▸ h, fun h => h a rfl⟩
  | .error _ => .isTrue fun _ h => nomatch h

instance decidableForallSome {α β : Type} (x : Option (α × β)) (p : α → β → Prop)
    [∀ a b, Decidable (p a b)] : Decidable (∀ a b, x = some (a, b) → p a b) :=
  match x with
  | some (a, b) => decidable_of_iff (p a b)
      ⟨fun h _ _ hb => by cases hb; exact h, fun h => h a b rfl⟩
  | none => .isTrue fun _ _ h => nomatch h

instance decidableExistsOk {ε α : Type} (x : Except ε α) (p : α → Prop) [DecidablePred p] :
    Decidable (∃ a, x = .ok a ∧ p a) :=
  match x with
  | .ok a => decidable_of_iff (p a) ⟨fun h => ⟨a, rfl, h⟩, fun ⟨_, hb, h⟩ => Except.ok.inj hb ▸ h⟩
  | .error _ => .isFalse fun h => nomatch h

instance decidableEqOkUnit {ε : Type} (x : Except ε Unit) : Decidable (x = .ok ()) :=
  match x with
  | .ok () => .isTrue rfl
  | .error _ => .isFalse fun h => nomatch h

instance decidableExistsOkSome {ε α : Type} (x : Except ε (Option α)) :
    Decidable (∃ a, x = .ok (some a)) :=
  match x with
  | .ok (some a) => .isTrue ⟨a, rfl⟩
  | .ok none => .isFalse fun h => nomatch h
  | .error _ => .isFalse fun h => nomatch h

instance (sp : Specializer) (b : Block) : Decidable (b.RoomToSpecialize sp) :=
  inferInstanceAs (Decidable (_ → _))

instance (b : Block) (addr : UInt64) (thresh : Int64) : Decidable (b.RoomToUnroll addr thresh) :=
  inferInstanceAs (Decidable (∀ l n, Unroll.chosen? b addr thresh = some (l, n) → _))

namespace Optimizer

variable (o : Optimizer)

instance (b : Block) : Decidable (o.RoomForCheap b) :=
  inferInstanceAs (Decidable (∀ r, (o.reduce b).result = .ok r → _))

instance (indexed : Bool) (b : Block) : Decidable (o.RoomToPolish indexed b) :=
  inferInstanceAs (Decidable (_ ∧ (_ → ∀ c, (o.cheap b >>= o.expensive).result = .ok c → _)))

instance (addr : UInt64) (indexed : Bool) (b : Block) : Decidable (o.RoomForUnroll addr indexed b) :=
  inferInstanceAs (Decidable (_ ∧ ∀ r, (b.unroll addr o.unrollThresh).result = .ok r →
    ∀ u n, r = some (u, n) → o.RoomToPolish indexed u))

instance (addr : UInt64) (b : Block) : Decidable (o.RoomForFull addr b) :=
  inferInstanceAs (Decidable (if b.stmts.any isIndexed then
    (∀ c, (o.expensive b).result = .ok c → o.RoomForCheap c) ∧
      ∀ d, (o.expensive b >>= o.cheap).result = .ok d → o.RoomForUnroll addr true d
    else o.RoomForUnroll addr false b))

instance (b : Block) (addr : UInt64) : Decidable (o.HasRoom b addr) :=
  inferInstanceAs (Decidable (_ ∧ ∀ f, b.flatten = .ok f → _ → _ ∧
    ∀ c, (o.cheap f).result = .ok c → _ → o.RoomForFull addr c))

end Optimizer
end Straightline
