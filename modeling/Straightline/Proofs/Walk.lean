import Mathlib
import Straightline.Proofs.Chain
import Straightline.Proofs.DataModel

/-!
# Walking along chains of sums

The links of a block are collected from all its statements at once, and `Links.walk` follows them
with nothing to tell it where it has been. It comes to an end because every temporary is defined
once and before its uses: the base of a link is defined by an earlier statement than the link
itself, so the numbers of the statements go down. The bound on the length of a walk is never what
stops it.

`Links.Leads` is the walk without a bound, one constructor for each turn of the loop. The main
statement is `chain_walks_end`: the walk ends at a root, which is defined earlier, and whenever its
start has a value, that value is the root's plus the sum of the links.
-/

namespace Straightline
namespace Chain

variable {P : Policy} {temps : Array Ty} {defs : List Temp} {ch : Links} {s : Stmt}
  {ss : List Stmt} {t root : Temp} {ty : Ty}

/-- The link that a statement defines. -/
def Link.ofStmt? : Stmt → Option (Temp × Link)
  | .assign dst src => (Link.ofExpr? src).map fun l => (dst, l)
  | _ => none

theorem Link.ofStmt?_eq_some {l : Link} (h : Link.ofStmt? s = some (t, l)) :
    ∃ src, s = .assign t src ∧ Link.ofExpr? src = some l := by
  cases s with
  | assign dst src =>
    obtain ⟨l', hl', heq⟩ := Option.map_eq_some_iff.mp h
    obtain ⟨rfl, rfl⟩ := Prod.mk.inj heq
    exact ⟨src, rfl, hl'⟩
  | _ => simp [Link.ofStmt?] at h

namespace Links

theorem ofStmts_eq (ss : List Stmt) : ofStmts ss = (ss.filterMap Link.ofStmt?).reverse := by
  unfold ofStmts
  congr 2

/-! ## Roots -/

/-- The temporary is not a link of type `ty`. -/
def IsRoot (ch : Links) (ty : Ty) (t : Temp) : Prop := ∀ l, ch.lookup t = some l → l.ty ≠ ty

/-- A walk from a root goes nowhere. -/
theorem IsRoot.walk (h : ch.IsRoot ty t) : ch.walk t ty = (t, 0 &&& ty.mask, 0) := by
  unfold Links.walk
  cases ch.length with
  | zero => rfl
  | succ n =>
    rw [walkUpTo]
    cases hl : ch.lookup t with
    | none => rfl
    | some l => exact if_neg (h l hl)

theorem le_walkUpTo (ch : Links) (ty : Ty) (n : Nat) (t : Temp) (delta : UInt64) (hops : Nat) :
    hops ≤ (ch.walkUpTo ty n t delta hops).2.2 := by
  induction n generalizing t delta hops with
  | zero => exact le_refl _
  | succ n ih =>
    rw [walkUpTo]
    split
    · split
      · exact (Nat.le_succ _).trans (ih _ _ _)
      · exact le_refl _
    · exact le_refl _

/-- A walk that goes nowhere started at a root. -/
theorem isRoot_of_hops (h : (ch.walk t ty).2.2 = 0) : ch.IsRoot ty t := by
  intro l hl hty
  have hmem := mem_of_lookup hl
  obtain ⟨n, hn⟩ := Nat.exists_eq_succ_of_ne_zero (List.length_pos_of_mem hmem).ne'
  have hle := ch.le_walkUpTo ty n l.base (0 + l.delta) (0 + 1)
  rw [walk, hn, walkUpTo, hl] at h
  simp only [hty, if_true] at h
  omega

/-- No base is defined behind its link, which stands in front of what was defined before. -/
def Ordered (ch : Links) : Prop :=
  ch.Pairwise (fun p q => p.1 ≠ q.2.base) ∧ ∀ p ∈ ch, p.1 ≠ p.2.base

theorem mem_defs_of_link {l : Link} (hs : s.Ok P temps defs) (h : Link.ofStmt? s = some (t, l)) :
    l.base ∈ defs ∧ t ∉ defs := by
  obtain ⟨src, rfl, hl⟩ := Link.ofStmt?_eq_some h
  obtain ⟨T, hT, -, hfresh⟩ := hs
  exact ⟨(Link.hasTy_base hl hT).2.2, hfresh⟩

theorem ordered_ofStmts (hss : Stmt.AllOk P temps defs ss) : (ofStmts ss).Ordered := by
  rw [ofStmts_eq]
  unfold Ordered
  rw [List.pairwise_reverse, List.pairwise_filterMap]
  simp only [List.mem_reverse, List.mem_filterMap, forall_exists_index, and_imp]
  induction ss generalizing defs with
  | nil => exact ⟨.nil, by simp⟩
  | cons s ss ih =>
    obtain ⟨hpair, hself⟩ := ih hss.2
    refine ⟨.cons (fun s' hs' p hp q hq => ?_) hpair, fun p s' hs' hp => ?_⟩
    · obtain ⟨hbase, -⟩ := mem_defs_of_link hss.1 hp
      obtain ⟨src, rfl, -⟩ := Link.ofStmt?_eq_some hq
      have hlater := hss.2.not_mem_of_def? hs' rfl
      exact fun heq => hlater (Stmt.subset_defsAfter _ _ (heq ▸ hbase))
    · rcases List.mem_cons.mp hs' with rfl | hs'
      · obtain ⟨hbase, hfresh⟩ := mem_defs_of_link hss.1 hp
        exact fun heq => hfresh (heq ▸ hbase)
      · exact hself p s' hs' hp

/-- Behind the link of `t` there is less than behind links of other temporaries. -/
theorem length_lt_of_split {pre suf before behind : Links} {l : Link}
    (h : pre ++ suf = before ++ (t, l) :: behind) (hpre : ∀ p ∈ pre, p.1 ≠ t) :
    behind.length < suf.length := by
  rcases List.append_eq_append_iff.mp h with ⟨more, rfl, hsuf⟩ | ⟨more, rfl, hsuf⟩
  · rw [hsuf, List.length_append, List.length_cons]
    omega
  · cases more with
    | nil =>
      rw [← List.nil_append suf, ← hsuf, List.length_cons]
      exact Nat.lt_succ_self _
    | cons p more =>
      obtain rfl : (t, l) = p := (List.cons.inj hsuf).1
      exact absurd rfl (hpre (t, l) (by simp))

/-- A walk with a step for each link that is left ends at a root. -/
theorem Ordered.isRoot_walkUpTo (h : ch.Ordered) (n : Nat) (pre suf : Links) (delta : UInt64)
    (hops : Nat) (hsplit : ch = pre ++ suf) (hpre : ∀ p ∈ pre, p.1 ≠ t) (hn : suf.length ≤ n) :
    ch.IsRoot ty (ch.walkUpTo ty n t delta hops).1 := by
  induction n generalizing t pre suf delta hops with
  | zero =>
    obtain rfl : suf = [] := List.eq_nil_of_length_eq_zero (by omega)
    intro l hl
    rw [List.append_nil] at hsplit
    exact absurd rfl (hpre _ (hsplit ▸ mem_of_lookup hl))
  | succ n ih =>
    rw [walkUpTo]
    cases hl : ch.lookup t with
    | none =>
      intro l hl'
      simp [hl] at hl'
    | some l =>
      simp only
      split
      · obtain ⟨before, behind, heq, -⟩ := List.lookup_eq_some_iff.mp hl
        have hless := length_lt_of_split (hsplit ▸ heq) hpre
        refine ih (before ++ [(t, l)]) behind _ _ (by simp [heq]) ?_ (by omega)
        -- the links in front of this one, and it itself, are not the base
        intro p hp
        rcases List.mem_append.mp hp with hp | hp
        · have hpair := h.1
          rw [heq, List.pairwise_append] at hpair
          exact hpair.2.2 p hp (t, l) List.mem_cons_self
        · rw [List.mem_singleton.mp hp]
          exact h.2 (t, l) (mem_of_lookup hl)
      · rename_i hty
        intro l' hl'
        rw [hl, Option.some.injEq] at hl'
        exact hl' ▸ hty

theorem Ordered.isRoot_walk (h : ch.Ordered) (ty : Ty) (t : Temp) :
    ch.IsRoot ty (ch.walk t ty).1 :=
  h.isRoot_walkUpTo ch.length [] ch 0 0 rfl (by simp) (le_refl _)

/-! ## The links on the way -/

/-- `n` links of type `ty` lead from a temporary to `root`, and their constants add up to `sum`. -/
inductive Leads (ch : Links) (ty : Ty) (root : Temp) : Temp → UInt64 → Nat → Prop
  | rest : Leads ch ty root root 0 0
  | link {t : Temp} {l : Link} {sum : UInt64} {n : Nat} : ch.lookup t = some l → l.ty = ty →
    Leads ch ty root l.base sum n → Leads ch ty root t (l.delta + sum) (n + 1)

/-- A walk goes along links, and makes as many hops as there are. -/
theorem walkUpTo_leads (ch : Links) (ty : Ty) (n : Nat) (t : Temp) (delta : UInt64) (hops : Nat) :
    ∃ root sum k, ch.Leads ty root t sum k ∧ k ≤ n ∧
      ch.walkUpTo ty n t delta hops = (root, (delta + sum) &&& ty.mask, hops + k) := by
  have hstop (n : Nat) (t : Temp) (delta : UInt64) (hops : Nat) :
      ∃ root sum k, ch.Leads ty root t sum k ∧ k ≤ n ∧
        (t, delta &&& ty.mask, hops) = (root, (delta + sum) &&& ty.mask, hops + k) :=
    ⟨t, 0, 0, .rest, Nat.zero_le n, by rw [UInt64.add_zero, Nat.add_zero]⟩
  induction n generalizing t delta hops with
  | zero => exact hstop 0 t delta hops
  | succ n ih =>
    rw [walkUpTo]
    cases hl : ch.lookup t with
    | none => exact hstop _ t delta hops
    | some l =>
      by_cases hty : l.ty = ty
      · obtain ⟨root, sum, k, hleads, hk, hwalk⟩ := ih l.base (delta + l.delta) (hops + 1)
        refine ⟨root, l.delta + sum, k + 1, .link hl hty hleads, by omega, ?_⟩
        simp only [hty, if_true, hwalk, UInt64.add_assoc]
        congr 2
        omega
      · simp only [hty, if_false]
        exact hstop _ t delta hops

theorem walk_leads (ch : Links) (t : Temp) (ty : Ty) :
    ∃ root sum hops, ch.Leads ty root t sum hops ∧ hops ≤ ch.length ∧
      ch.walk t ty = (root, sum &&& ty.mask, hops) := by
  obtain ⟨root, sum, hops, hleads, hle, hwalk⟩ := ch.walkUpTo_leads ty ch.length t 0 0
  rw [UInt64.zero_add, Nat.zero_add] at hwalk
  exact ⟨root, sum, hops, hleads, hle, hwalk⟩

theorem length_ofStmts_le (ss : List Stmt) : (ofStmts ss).length ≤ ss.length := by
  rw [ofStmts_eq, List.length_reverse]
  exact List.length_filterMap_le _ _

theorem mem_ofStmts {l : Link} :
    (t, l) ∈ ofStmts ss ↔ ∃ src, .assign t src ∈ ss ∧ Link.ofExpr? src = some l := by
  rw [ofStmts_eq, List.mem_reverse, List.mem_filterMap]
  constructor
  · rintro ⟨s, hs, hl⟩
    obtain ⟨src, rfl, hsrc⟩ := Link.ofStmt?_eq_some hl
    exact ⟨src, hs, hsrc⟩
  · rintro ⟨src, hs, hsrc⟩
    exact ⟨_, hs, by rw [Link.ofStmt?, hsrc]; rfl⟩

end Links
end Chain

/-! ## Positions -/

namespace Block

variable {b : Block} {t u v : Temp}

/-- A statement before the one that defines `t` defines `u`. -/
def DefinedAhead (b : Block) (u t : Temp) : Prop :=
  ∃ i j, i < j ∧ b.defines? i = some u ∧ b.defines? j = some t

theorem DefinedAhead.trans (hb : b.Typed .any) (h : b.DefinedAhead u t) (h' : b.DefinedAhead v u) :
    b.DefinedAhead v t := by
  obtain ⟨-, -, honce⟩ := allOk_any_iff.mp hb.stmts
  obtain ⟨i, j, hij, hi, hj⟩ := h
  obtain ⟨k, l, hkl, hk, hl⟩ := h'
  have heq := honce i l u hi hl
  exact ⟨k, j, by omega, hk, hj⟩

open Chain in
/-- The base of a link is defined before the link. -/
theorem Typed.base_ahead (hb : b.Typed .any) {l : Link} (h : (t, l) ∈ Links.ofStmts b.stmts) :
    b.DefinedAhead l.base t := by
  obtain ⟨-, hbefore, -⟩ := allOk_any_iff.mp hb.stmts
  obtain ⟨src, hs, hsrc⟩ := Links.mem_ofStmts.mp h
  obtain ⟨f, w, c, rfl, -, -, -⟩ := Link.ofExpr?_eq_some hsrc
  obtain ⟨j, hj⟩ := List.mem_iff_getElem?.mp hs
  have huse : l.base ∈ (Stmt.assign t (.binop (.arith f w) (.tmp l.base) (.const c))).uses :=
    List.mem_singleton_self l.base
  obtain ⟨i, hij, hi⟩ := hbefore j _ l.base hj huse
  exact ⟨i, j, hij, hi, defines?_eq_some.mpr ⟨_, hj, rfl⟩⟩

open Chain in
/-- Where links lead is defined before where they start. -/
theorem Typed.leads_ahead (hb : b.Typed .any) {ty : Ty} {root : Temp} {sum : UInt64} {n : Nat}
    (h : (Links.ofStmts b.stmts).Leads ty root t sum n) (hn : n ≠ 0) : b.DefinedAhead root t := by
  induction h with
  | rest => exact absurd rfl hn
  | @link t l sum n hl hty hrest ih =>
    have hahead := hb.base_ahead (Links.mem_of_lookup hl)
    cases hrest with
    | rest => exact hahead
    | link => exact hahead.trans hb (ih (by simp))

end Block

/-! ## Values -/

namespace Chain.Links

variable {P : Policy} {defs : List Temp} {ch : Links} {ss post : List Stmt} {m m' : Machine}

/-- Statements that all go on keep links true, and make those true that they define. -/
theorem Holds.exec (hhold : ch.Holds m defs) (h : ch.Ok P m.temps defs (ss ++ post))
    (hss : Stmt.AllOk P m.temps defs (ss ++ post)) (hexec : Machine.exec ss m = some m') :
    ch.Holds m' (Stmt.defsAfterAll ss defs) ∧
      ch.Ok P m'.temps (Stmt.defsAfterAll ss defs) post := by
  induction ss generalizing m defs with
  | nil =>
    rw [Machine.exec, Option.some.injEq] at hexec
    subst hexec
    exact ⟨hhold, h⟩
  | cons s ss ih =>
    obtain ⟨m₁, hstep, hrest⟩ := Machine.exec_cons_eq_some.mp hexec
    have htemps := Machine.step_temps hstep
    exact ih (hhold.step h hss hstep) (htemps ▸ h.step hss) (htemps ▸ hss.2) hrest

end Chain.Links

open Chain in
/-- At every point of a run, a temporary that has a value is the root of its chain plus the sum of
the chain. -/
theorem Block.Typed.vals_walk {b : Block} (hb : b.Typed .any) {env : Env} {st : State}
    {pre post : List Stmt} {m : Machine} (hsplit : b.stmts = pre ++ post)
    (hexec : Machine.exec pre (.start b.temps env st) = some m) {ty : Ty} {t : Temp} {v : UInt64}
    (hv : m.vals t = some v) (hlink : ¬(Links.ofStmts b.stmts).IsRoot ty t) :
    ∃ u, m.vals ((Links.ofStmts b.stmts).walk t ty).1 = some u ∧
      v = (u + ((Links.ofStmts b.stmts).walk t ty).2.1) &&& ty.mask := by
  have hstart : (Links.ofStmts b.stmts).Holds (.start b.temps env st) [] := by
    intro t l _ ht
    simp at ht
  have hok : (Links.ofStmts b.stmts).Ok .any b.temps [] b.stmts := Links.ok_ofStmts b.stmts
  have hstmts := hb.stmts
  rw [hsplit] at hstmts
  obtain ⟨hhold, hok'⟩ := hstart.exec (hsplit ▸ hok) hstmts hexec
  have hpre := (Stmt.allOk_append.mp hstmts).1
  obtain ⟨hsound, -⟩ := (Machine.sound_start b.temps env st).exec hpre hexec
  have hdef : t ∈ Stmt.defsAfterAll pre [] := (hsound.scope t).mp ⟨v, hv⟩
  -- the start is a link of the type, so it has that type, and so has the root
  unfold Links.IsRoot at hlink
  push Not at hlink
  obtain ⟨l, hl, rfl⟩ := hlink
  obtain ⟨hty, -⟩ := hok'.typed t l (Links.mem_of_lookup hl) hdef
  have heval : m.eval (.tmp t) = .ok v := Machine.eval_tmp_eq_ok.mpr ⟨⟨_, hty.1⟩, hv⟩
  obtain ⟨u, hu, hsum⟩ := (Links.walk_spec hok' hty).2 m v rfl hsound.fit hhold heval
  exact ⟨u, (Machine.eval_tmp_eq_ok.mp hu).2, hsum⟩

open Chain in
/-- No statement defines a root as a link of its type. -/
theorem Block.Typed.not_link_of_isRoot {b : Block} (hb : b.Typed .any) {ty : Ty} {root : Temp}
    (h : (Links.ofStmts b.stmts).IsRoot ty root) {src : Expr} {l : Link}
    (hs : .assign root src ∈ b.stmts) (hl : Link.ofExpr? src = some l) : l.ty ≠ ty := by
  have hmem : (root, l) ∈ Links.ofStmts b.stmts := Links.mem_ofStmts.mpr ⟨src, hs, hl⟩
  cases hlookup : (Links.ofStmts b.stmts).lookup root with
  | none =>
    have hnone := List.lookup_eq_none_iff.mp hlookup (root, l) hmem
    simp at hnone
  | some l' =>
    -- the link that is looked up stands in the only statement that defines the root
    obtain ⟨-, -, honce⟩ := Block.allOk_any_iff.mp hb.stmts
    obtain ⟨src', hs', hl'⟩ := Links.mem_ofStmts.mp (Links.mem_of_lookup hlookup)
    obtain ⟨i, hi⟩ := List.mem_iff_getElem?.mp hs
    obtain ⟨j, hj⟩ := List.mem_iff_getElem?.mp hs'
    have heq : i = j := honce i j root (Block.defines?_eq_some.mpr ⟨_, hi, rfl⟩)
      (Block.defines?_eq_some.mpr ⟨_, hj, rfl⟩)
    rw [heq, hj, Option.some.injEq, Stmt.assign.injEq] at hi
    rw [hi.2, hl, Option.some.injEq] at hl'
    exact hl' ▸ h l' hlookup

open Chain in
/-- In a well-formed flat block the walk from any temporary along links of one type ends, after at
most as many hops as there are statements, at a temporary that no statement defines as such a link.
If it made a hop, that root is defined by an earlier statement than the start. At every point of
every run, a start that has a value has the root's value plus the sum of the links, modulo the power
of two of the type. -/
theorem chain_walks_end {b : Block} (hb : b.check true = .ok ()) (ty : Ty) (t : Temp) :
    ∃ root sum delta hops, (Links.ofStmts b.stmts).walk t ty = (root, delta, hops) ∧
      (Links.ofStmts b.stmts).Leads ty root t sum hops ∧ delta = sum &&& ty.mask ∧
      hops ≤ b.stmts.length ∧
      (∀ src l, .assign root src ∈ b.stmts → Link.ofExpr? src = some l → l.ty ≠ ty) ∧
      (hops ≠ 0 → b.DefinedAhead root t) ∧
      ∀ env st pre post m, b.stmts = pre ++ post →
        Machine.exec pre (.start b.temps env st) = some m → ∀ v, m.vals t = some v →
          ∃ u, m.vals root = some u ∧ v.toNat ≡ u.toNat + delta.toNat [MOD 2 ^ ty.bits] ∧
            (hops ≠ 0 → v.toNat = (u.toNat + delta.toNat) % 2 ^ ty.bits) := by
  obtain ⟨htyped, -, -⟩ := Block.check_eq_ok_iff.mp hb
  have hroot := (Links.ordered_ofStmts htyped.stmts).isRoot_walk ty t
  obtain ⟨root, sum, hops, hleads, hle, hwalk⟩ := (Links.ofStmts b.stmts).walk_leads t ty
  rw [hwalk] at hroot
  refine ⟨root, sum, _, hops, hwalk, hleads, rfl, hle.trans (Links.length_ofStmts_le _),
    fun src l => htyped.not_link_of_isRoot hroot, htyped.leads_ahead hleads, ?_⟩
  intro env st pre post m hsplit hexec v hv
  cases hleads with
  | rest => exact ⟨v, hv, by simp [Nat.ModEq], fun h => absurd rfl h⟩
  | @link _ l sum n hl hty hrest =>
    have hlink : ¬(Links.ofStmts b.stmts).IsRoot ty t := fun h => h l hl hty
    obtain ⟨u, hu, hval⟩ := htyped.vals_walk hsplit hexec hv hlink
    rw [hwalk] at hu hval
    have hnat : v.toNat = (u.toNat + ((l.delta + sum) &&& ty.mask).toNat) % 2 ^ ty.bits := by
      rw [hval, ty.toNat_and_mask, UInt64.toNat_add, Nat.mod_mod_of_dvd _ ty.two_pow_bits_dvd]
    refine ⟨u, hu, ?_, fun _ => hnat⟩
    rw [hnat]
    exact Nat.mod_modEq _ _

/-- Goes up by four and down by six from a register. -/
def Block.stairs : Block where
  temps := #[.i32, .i32, .i32]
  stmts := [.assign 0 (.get 0 .i32),
    .assign 1 (.binop (.arith .add .w32) (.tmp 0) (.const ⟨.u32, 4⟩)),
    .assign 2 (.binop (.arith .sub .w32) (.tmp 1) (.const ⟨.u32, 6⟩)),
    .put 0 (.tmp 2)]
  next := .const ⟨.u32, 32⟩
  kind := .boring

open Chain in
/-- From the foot of the stairs two hops lead to the register, which lies two above it. -/
theorem chain_walks_end_stairs :
    (Links.ofStmts Block.stairs.stmts).walk 2 .i32 = (0, -2 &&& Ty.i32.mask, 2) ∧
      Block.stairs.DefinedAhead 0 2 ∧
      ∃ m u v, Machine.exec Block.stairs.stmts
          (.start Block.stairs.temps ⟨fun _ => none, fun _ => none⟩ (.zero 4)) = some m ∧
        m.vals 0 = some u ∧ m.vals 2 = some v ∧ v.toNat = (u.toNat + 0xfffffffe) % 2 ^ 32 := by
  have hwalk : (Links.ofStmts Block.stairs.stmts).walk 2 .i32 = (0, -2 &&& Ty.i32.mask, 2) := rfl
  obtain ⟨m, v, hexec, hv⟩ : ∃ m v, Machine.exec Block.stairs.stmts
      (.start Block.stairs.temps ⟨fun _ => none, fun _ => none⟩ (.zero 4)) = some m ∧
        m.vals 2 = some v := ⟨_, _, rfl, rfl⟩
  obtain ⟨root, sum, delta, hops, hres, -, -, -, -, hahead, hvals⟩ :=
    chain_walks_end (b := .stairs) rfl .i32 2
  rw [hwalk, Prod.mk.injEq, Prod.mk.injEq] at hres
  obtain ⟨rfl, rfl, rfl⟩ := hres
  obtain ⟨u, hu, -, hval⟩ := hvals _ _ _ [] m (List.append_nil _).symm hexec v hv
  exact ⟨hwalk, hahead (by decide), m, u, v, hexec, hu, hv, hval (by decide)⟩

end Straightline
