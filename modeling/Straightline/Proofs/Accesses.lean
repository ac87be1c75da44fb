import Mathlib
import Straightline.Proofs.Stepping

/-!
# Memory accesses

The accesses that a run makes to memory, in order: the loads of its expressions, its stores, and the
effects that happen and declare a touch of memory (`Block.trace`). A run is *confined* to a set of
addresses if all its accesses lie there, no byte elsewhere changes, and the bytes elsewhere do not
matter: from another state that agrees on the set it ends alike (`Block.Confined`).

Where effects keep to the bytes they declare, the accesses alone decide
(`Block.confined_of_trace`).
-/

namespace Straightline

/-- An access to memory: what it does, and where. -/
structure MemAccess where
  touch : Touch
  addr : UInt64
  bytes : Nat
deriving DecidableEq

/-- The bytes of the access lie in the set; addresses wrap. -/
def MemAccess.Within (x : MemAccess) (R : UInt64 → Prop) : Prop :=
  ∀ i < x.bytes, R (x.addr + .ofNat i)

/-- The number of memory bytes that the effect declares. -/
def Effect.memBytes (e : Effect) : Nat := if e.touchesMem then e.memSize.toNatClampNeg else 0

namespace Stmt

/-- The statement itself stores, or declares a touch of memory. -/
def ActsOnMem : Stmt → Prop
  | .store _ _ => True
  | .effect e => e.touchesMem = true
  | _ => False

/-- The statement can access memory: it loads or acts on it. -/
def AccessesMem (s : Stmt) : Prop := (∃ T a, .load T a ∈ s.nodes) ∨ s.ActsOnMem

end Stmt

/-! ## Traces -/

namespace Machine

/-- The access that a load makes at an address with a value. -/
def loadAt (m : Machine) (T : Ty) (a : Expr) : List MemAccess :=
  match m.eval a with
  | .ok v => [⟨.read, v, T.bytes⟩]
  | .error _ => []

mutual

/-- The loads of an expression that has a value, in evaluation order. -/
def loads (m : Machine) : Expr → List MemAccess
  | .missing | .tmp _ | .const _ | .get _ _ => []
  | .getIx _ ix _ => m.loads ix
  | .unop _ a => m.loads a
  | .binop _ a b => m.loads a ++ m.loads b
  | .load T a => m.loads a ++ m.loadAt T a
  | .call _ _ args => m.loadsAll args
  | .select c z x => m.loads c ++ m.loads z ++ m.loads x

def loadsAll (m : Machine) : List Expr → List MemAccess
  | [] => []
  | e :: es => m.loads e ++ m.loadsAll es

end

/-- The write of a store. -/
def storeAt (m : Machine) (addr data : Expr) : List MemAccess :=
  match m.eval addr, data.typeIn m.temps with
  | .ok a, .ok T => [⟨.write, a, T.bytes⟩]
  | _, _ => []

/-- The declared touch of an effect. -/
def touchAt (m : Machine) (e : Effect) : List MemAccess :=
  match e.touchesMem, m.eval e.memAddr with
  | true, .ok a => [⟨e.memTouch, a, e.memBytes⟩]
  | _, _ => []

/-- The accesses of an effect. Where the guard is false, the arguments are not evaluated. -/
def effectAccesses (m : Machine) (e : Effect) : List MemAccess :=
  let body := match m.eval e.guard with
    | .ok g => if g = 0 then [] else m.loadsAll e.args ++ m.touchAt e
    | .error _ => []
  (if e.touchesMem then m.loads e.memAddr else []) ++ m.loads e.guard ++ body

/-- The accesses of a statement that does not fail. -/
def accesses (m : Machine) : Stmt → List MemAccess
  | .store addr data => m.loads addr ++ m.loads data ++ m.storeAt addr data
  | .effect e => m.effectAccesses e
  | s => m.loadsAll s.operands

/-- The accesses of statements and a successor, each with the state in which it is made. -/
def trace (next : Expr) : List Stmt → Machine → List (MemAccess × State)
  | [], m => (m.loads next).map fun x => (x, m.state)
  | s :: ss, m =>
    let rest := match m.step s with
      | .next m' => trace next ss m'
      | .leave _ _ => []
      | .fail _ _ => []
    (m.accesses s).map (fun x => (x, m.state)) ++ rest

end Machine

/-- The accesses of a run that does not fail, each with the state in which it is made. -/
def Block.trace (b : Block) (s : State) (env : Env) : List (MemAccess × State) :=
  Machine.trace b.next b.stmts (.start b.temps env s)

/-! ## Agreement of states -/

/-- The states have the same registers, and the same memory at the addresses in the set. -/
structure State.AgreeOn (R : UInt64 → Prop) (s s' : State) : Prop where
  regs : s'.regs = s.regs
  mem : ∀ a, R a → s'.mem[a]? = s.mem[a]?

/-- The helper reads and writes memory only in the `n` bytes at its address: no other byte changes,
and in a state that agrees on a set with these bytes it does the same. -/
def EffectHelper.Local (f : EffectHelper) (n : Nat) : Prop :=
  ∀ s vs addr r s', f s vs addr = .ok (r, s') →
    ∀ R : UInt64 → Prop, (∀ i < n, R (addr + .ofNat i)) →
      (∀ a, ¬R a → s'.mem[a]? = s.mem[a]?) ∧
        ∀ t, s.AgreeOn R t → ∃ t', f t vs addr = .ok (r, t') ∧ s'.AgreeOn R t'

/-- Effects touch no memory but what they declare. -/
def Effect.Local (e : Effect) (env : Env) : Prop :=
  ∀ f, env.effect e.callee = some f → EffectHelper.Local f e.memBytes

/-- The run accesses memory only in the set: so say its accesses, no byte elsewhere changes, and
none elsewhere matters. -/
structure Block.Confined (b : Block) (s : State) (env : Env) (R : UInt64 → Prop) : Prop where
  trace : ∀ x ∈ b.trace s env, x.1.Within R
  outside : ∀ a, ¬R a → (b.run s env).state.mem[a]? = s.mem[a]?
  blind : ∀ s', s.AgreeOn R s' → (b.run s' env).outcome = (b.run s env).outcome ∧
    (b.run s env).state.AgreeOn R (b.run s' env).state

namespace State

variable {R : UInt64 → Prop} {s s' : State} {a : UInt64} {T : Ty} {v : UInt64}

/-- The byte after the first, and so on: the addresses of an access one byte further on. -/
theorem add_one_add_ofNat (a : UInt64) (i : Nat) : a + 1 + .ofNat i = a + .ofNat (i + 1) := by
  rw [UInt64.ofNat_add, UInt64.add_assoc, UInt64.add_comm 1]
  rfl

theorem AgreeOn.bytesAt (h : AgreeOn R s s') {n : Nat} (hR : ∀ i < n, R (a + .ofNat i)) :
    s'.bytesAt a n = s.bytesAt a n := by
  induction n generalizing a with
  | zero => rfl
  | succ n ih =>
    have hfirst : R a := by simpa using hR 0 n.succ_pos
    have hrest : ∀ i < n, R (a + 1 + .ofNat i) := by
      intro i hi
      rw [add_one_add_ofNat]
      exact hR (i + 1) (Nat.succ_lt_succ hi)
    rw [State.bytesAt, State.bytesAt, ih hrest, byteAt, byteAt, h.mem a hfirst]

/-- A load in the set gives the same value. -/
theorem AgreeOn.load (h : AgreeOn R s s') (hR : ∀ i < T.bytes, R (a + .ofNat i)) :
    s'.load a T = s.load a T := by
  rw [State.load, State.load, h.bytesAt hR]

theorem AgreeOn.storeBytes (h : AgreeOn R s s') (a : UInt64) (bs : List UInt8) :
    AgreeOn R (s.storeBytes a bs) (s'.storeBytes a bs) := by
  induction bs generalizing a s s' with
  | nil => exact h
  | cons b bs ih =>
    rw [State.storeBytes, State.storeBytes]
    refine ih ?_ (a + 1)
    refine ⟨h.regs, fun x hx => ?_⟩
    simp only [Std.ExtTreeMap.getElem?_insert, h.mem x hx]

/-- A store leaves the states in agreement. -/
theorem AgreeOn.store (h : AgreeOn R s s') (a : UInt64) (T : Ty) (v : UInt64) :
    AgreeOn R (s.store a T v) (s'.store a T v) := h.storeBytes a _

theorem AgreeOn.readReg (h : AgreeOn R s s') (off : Int64) (T : Ty) :
    s'.readReg off T = s.readReg off T := readReg_of_regs_eq h.regs

theorem AgreeOn.writeReg {off : Int64} {s₁ : State} (h : AgreeOn R s s')
    (hw : s.writeReg off T v = .ok s₁) :
    ∃ s₁', s'.writeReg off T v = .ok s₁' ∧ AgreeOn R s₁ s₁' := by
  obtain ⟨i, hi, rfl⟩ := writeReg_eq_ok.mp hw
  exact ⟨_, writeReg_eq_ok.mpr ⟨i, by rw [h.regs]; exact hi, rfl⟩, by simp [h.regs], h.mem⟩

theorem getElem?_storeBytes_of_not {x : UInt64} (bs : List UInt8)
    (hx : ∀ i < bs.length, x ≠ a + .ofNat i) : (s.storeBytes a bs).mem[x]? = s.mem[x]? := by
  induction bs generalizing a s with
  | nil => rfl
  | cons b bs ih =>
    have hne : a ≠ x := by
      intro heq
      exact hx 0 (Nat.succ_pos _) (by simp [heq])
    have hrest : ∀ i < bs.length, x ≠ a + 1 + .ofNat i := by
      intro i hi
      rw [add_one_add_ofNat]
      exact hx (i + 1) (Nat.succ_lt_succ hi)
    rw [State.storeBytes, ih hrest]
    simp [Std.ExtTreeMap.getElem?_insert, hne]

/-- A store in the set changes nothing elsewhere. -/
theorem getElem?_store_of_not (hR : ∀ i < T.bytes, R (a + .ofNat i)) {x : UInt64} (hx : ¬R x) :
    (s.store a T v).mem[x]? = s.mem[x]? := by
  refine getElem?_storeBytes_of_not _ fun i hi heq => hx ?_
  rw [length_toBytes] at hi
  exact heq ▸ hR i hi

end State

/-! ## Machines -/

namespace Machine

variable {R : UInt64 → Prop} {m m₁ : Machine} {st : State} {e : Expr} {s : Stmt} {v : UInt64}

theorem loadsAll_eq (m : Machine) (es : List Expr) : m.loadsAll es = es.flatMap m.loads := by
  induction es with
  | nil => rfl
  | cons e es ih => rw [loadsAll, ih, List.flatMap_cons]

theorem mem_loads_of_child {c : Expr} {x : MemAccess} (hc : c ∈ e.children) (hx : x ∈ m.loads c) :
    x ∈ m.loads e := by
  cases e with
  | missing | tmp | const | get => simp [Expr.children] at hc
  | getIx w ix bias =>
    rw [Expr.children, List.mem_singleton] at hc
    exact hc ▸ hx
  | unop op a =>
    rw [Expr.children, List.mem_singleton] at hc
    exact hc ▸ hx
  | load T a =>
    rw [Expr.children, List.mem_singleton] at hc
    exact List.mem_append_left _ (hc ▸ hx)
  | binop op a b =>
    simp only [Expr.children, List.mem_cons, List.not_mem_nil, or_false] at hc
    rw [loads, List.mem_append]
    rcases hc with rfl | rfl
    · exact .inl hx
    · exact .inr hx
  | call callee T args =>
    rw [loads, loadsAll_eq]
    exact List.mem_flatMap.mpr ⟨c, hc, hx⟩
  | select c z y =>
    simp only [Expr.children, List.mem_cons, List.not_mem_nil, or_false] at hc
    rw [loads, List.mem_append, List.mem_append]
    rcases hc with rfl | rfl | rfl
    · exact .inl (.inl hx)
    · exact .inl (.inr hx)
    · exact .inr hx

/-- The access of a load is one of its expression. -/
theorem mem_loads_load {T : Ty} {a : Expr} (ha : m.eval a = .ok v) :
    ⟨.read, v, T.bytes⟩ ∈ m.loads (.load T a) := by
  rw [loads, loadAt, ha]
  simp

/-- The loads of an expression are those of its load nodes. -/
theorem exists_of_mem_loads {x : MemAccess} (hx : x ∈ m.loads e) :
    ∃ T a v, .load T a ∈ e.nodes ∧ m.eval a = .ok v ∧ x = ⟨.read, v, T.bytes⟩ := by
  induction e using Expr.childInduct with
  | h e ih =>
    have hchild : (∃ c ∈ e.children, x ∈ m.loads c) →
        ∃ T a v, .load T a ∈ e.nodes ∧ m.eval a = .ok v ∧ x = ⟨.read, v, T.bytes⟩ := by
      rintro ⟨c, hc, hxc⟩
      obtain ⟨T, a, v, hn, ha, rfl⟩ := ih c hc hxc
      exact ⟨T, a, v, Expr.mem_nodes_of_child hc hn, ha, rfl⟩
    cases e with
    | missing | tmp | const | get => simp [loads] at hx
    | getIx | unop | binop | select =>
      refine hchild ?_
      simpa [loads, Expr.children, or_assoc] using hx
    | call callee T args =>
      rw [loads, loadsAll_eq, List.mem_flatMap] at hx
      exact hchild hx
    | load T a =>
      rw [loads, List.mem_append] at hx
      rcases hx with hx | hx
      · exact hchild ⟨a, by simp [Expr.children], hx⟩
      · unfold loadAt at hx
        split at hx
        · rename_i v hv
          exact ⟨T, a, v, Expr.self_mem_nodes _, hv, by simpa using hx⟩
        · simp at hx

/-- An expression whose loads lie in the set has its value in every state that agrees there. -/
theorem eval_agreeOn (h : m.state.AgreeOn R st) (hin : ∀ x ∈ m.loads e, x.Within R)
    (hv : m.eval e = .ok v) : (m.withState st).eval e = .ok v := by
  induction e using Expr.childInduct generalizing v with
  | h e ih =>
    have hchild : ∀ c ∈ e.children, ∀ u, m.eval c = .ok u → (m.withState st).eval c = .ok u :=
      fun c hc u hu => ih c hc (fun x hx => hin x (mem_loads_of_child hc hx)) hu
    have hsame : (∀ T a, e ≠ .load T a) → e.isAtom = false → (m.withState st).eval e = .ok v := by
      intro hload hatom
      refine eval_similar (Expr.similar_self fun _ _ => rfl) hatom ?_
        (fun c hc c' heq => heq ▸ hchild c hc) hv
      cases e with
      | get off T => exact fun u hu => (h.readReg off T).trans hu
      | getIx w ix bias => exact fun _ off u _ _ hu => (h.readReg off w.elem).trans hu
      | load T a => exact absurd rfl (hload T a)
      | _ => simp [HeadAgrees]
    cases e with
    | tmp t => exact hv
    | const c => exact hv
    | load T a =>
      -- the one node that looks at memory: its address has the same value, and lies in the set
      obtain ⟨x, hx, rfl⟩ := eval_load_eq_ok.mp hv
      have hx' := hchild a (by simp [Expr.children]) x hx
      exact eval_load_eq_ok.mpr ⟨x, hx', h.load (hin _ (mem_loads_load hx))⟩
    | _ => exact hsame (by simp) rfl

/-! ## Steps -/

theorem mem_accesses_of_operand {x : MemAccess} (hs : ∀ y, s ≠ .effect y) (he : e ∈ s.operands)
    (hx : x ∈ m.loads e) : x ∈ m.accesses s := by
  cases s with
  | effect y => exact absurd rfl (hs y)
  | store addr data =>
    simp only [Stmt.operands, List.mem_cons, List.not_mem_nil, or_false] at he
    rw [accesses, List.mem_append, List.mem_append]
    rcases he with rfl | rfl
    · exact .inl (.inl hx)
    · exact .inl (.inr hx)
  | _ =>
    change x ∈ m.loadsAll _
    rw [loadsAll_eq]
    exact List.mem_flatMap.mpr ⟨e, he, hx⟩

theorem mem_accesses_store {addr data : Expr} {T : Ty} {a : UInt64} (ha : m.eval addr = .ok a)
    (hT : data.typeIn m.temps = .ok T) : ⟨.write, a, T.bytes⟩ ∈ m.accesses (.store addr data) := by
  rw [accesses, storeAt, ha, hT]
  simp

theorem mem_accesses_memAddr {y : Effect} {x : MemAccess} (ht : y.touchesMem = true)
    (hx : x ∈ m.loads y.memAddr) : x ∈ m.accesses (.effect y) := by
  rw [accesses, effectAccesses, if_pos ht]
  exact List.mem_append_left _ (List.mem_append_left _ hx)

theorem mem_accesses_guard {y : Effect} {x : MemAccess} (hx : x ∈ m.loads y.guard) :
    x ∈ m.accesses (.effect y) := by
  rw [accesses, effectAccesses]
  exact List.mem_append_left _ (List.mem_append_right _ hx)

theorem mem_accesses_fired {y : Effect} {x : MemAccess} {g : UInt64} (hg : m.eval y.guard = .ok g)
    (hz : g ≠ 0) (hx : x ∈ m.loadsAll y.args ++ m.touchAt y) : x ∈ m.accesses (.effect y) := by
  rw [accesses, effectAccesses, hg]
  refine List.mem_append_right _ ?_
  change x ∈ if g = 0 then [] else m.loadsAll y.args ++ m.touchAt y
  rw [if_neg hz]
  exact hx

/-- The accesses of a statement are loads of its operands, the write of a store and the touch that
an effect declares. -/
theorem exists_of_mem_accesses {x : MemAccess} (hx : x ∈ m.accesses s) :
    (∃ e ∈ s.operands, x ∈ m.loads e) ∨
      (∃ addr data a T, s = .store addr data ∧ m.eval addr = .ok a ∧ x = ⟨.write, a, Ty.bytes T⟩) ∨
      ∃ y a, s = .effect y ∧ y.touchesMem = true ∧ m.eval y.memAddr = .ok a ∧
        x = ⟨y.memTouch, a, y.memBytes⟩ := by
  cases s with
  | store addr data =>
    rw [accesses, List.mem_append, List.mem_append] at hx
    rcases hx with (hx | hx) | hx
    · exact .inl ⟨addr, by simp [Stmt.operands], hx⟩
    · exact .inl ⟨data, by simp [Stmt.operands], hx⟩
    · unfold storeAt at hx
      split at hx
      · rename_i a T ha hT
        exact .inr (.inl ⟨addr, data, a, T, rfl, ha, List.mem_singleton.mp hx⟩)
      · simp at hx
  | effect y =>
    rw [accesses, effectAccesses, List.mem_append, List.mem_append] at hx
    rcases hx with (hx | hx) | hx
    · split at hx
      · exact .inl ⟨y.memAddr, by simp_all [Stmt.operands, Effect.operands], hx⟩
      · simp at hx
    · exact .inl ⟨y.guard, by simp [Stmt.operands, Effect.operands], hx⟩
    · split at hx
      · split at hx
        · simp at hx
        · rw [List.mem_append, loadsAll_eq, List.mem_flatMap] at hx
          rcases hx with ⟨a, ha, hx⟩ | hx
          · exact .inl ⟨a, by simp [Stmt.operands, Effect.operands, ha], hx⟩
          · unfold touchAt at hx
            split at hx
            · rename_i a ht ha
              exact .inr (.inr ⟨y, a, rfl, ht, ha, List.mem_singleton.mp hx⟩)
            · simp at hx
      · simp at hx
  | _ =>
    change x ∈ m.loadsAll _ at hx
    rw [loadsAll_eq] at hx
    exact .inl (List.mem_flatMap.mp hx)

/-- The bytes that a fired effect declares are accessed. -/
theorem within_of_fired {y : Effect} {g addr : UInt64} (hg : m.eval y.guard = .ok g) (hz : g ≠ 0)
    (haddr : m.EffectAddr y addr) (hin : ∀ x ∈ m.accesses (.effect y), x.Within R) :
    ∀ i < y.memBytes, R (addr + .ofNat i) := by
  by_cases ht : y.touchesMem = true
  · rw [EffectAddr, if_pos ht] at haddr
    refine hin ⟨y.memTouch, addr, y.memBytes⟩
      (mem_accesses_fired hg hz (List.mem_append_right _ ?_))
    rw [touchAt, ht, haddr]
    exact List.mem_singleton_self _
  · intro i hi
    rw [Effect.memBytes, if_neg ht] at hi
    exact absurd hi (Nat.not_lt_zero i)

theorem step_effect_agreeOn {y : Effect} (h : m.state.AgreeOn R st) (hlocal : y.Local m.env)
    (hin : ∀ x ∈ m.accesses (.effect y), x.Within R) (hstep : m.step (.effect y) = .next m₁) :
    ∃ st₁, (m.withState st).step (.effect y) = .next (m₁.withState st₁) ∧
      m₁.state.AgreeOn R st₁ := by
  obtain ⟨addr, g, haddr, hg, hrest⟩ := step_effect.mp hstep
  have haddr' : (m.withState st).EffectAddr y addr := by
    unfold EffectAddr at haddr ⊢
    by_cases ht : y.touchesMem = true
    · rw [if_pos ht] at haddr ⊢
      exact eval_agreeOn h (fun x hx => hin x (mem_accesses_memAddr ht hx)) haddr
    · rw [if_neg ht] at haddr ⊢
      exact haddr
  have hg' := eval_agreeOn h (fun x hx => hin x (mem_accesses_guard hx)) hg
  rcases hrest with ⟨hz, rfl⟩ | ⟨hz, vs, f, r, s₁, hvs, hf, hr, hafter⟩
  · exact ⟨st, step_effect.mpr ⟨addr, g, haddr', hg', .inl ⟨hz, rfl⟩⟩, h⟩
  · have hargs : ∀ a ∈ y.args, ∀ x ∈ m.loads a, x.Within R := fun a ha x hx =>
      hin x (mem_accesses_fired hg hz (List.mem_append_left _
        (by rw [loadsAll_eq]; exact List.mem_flatMap.mpr ⟨a, ha, hx⟩)))
    have hvs' : (m.withState st).evalAll y.args = .ok vs :=
      evalAll_eq_ok.mpr (values_similar (List.forall₂_same.mpr fun _ _ => rfl)
        (fun a ha a' heq u hu => heq ▸ eval_agreeOn h (hargs a ha) hu) (evalAll_eq_ok.mp hvs))
    obtain ⟨-, hagree⟩ := hlocal f hf _ _ _ _ _ hr R (within_of_fired hg hz haddr hin)
    obtain ⟨st₁, hr', hst₁⟩ := hagree st h
    refine ⟨st₁, step_effect.mpr ⟨addr, g, haddr', hg', .inr ⟨hz, vs, f, r, st₁, hvs', hf, hr',
      hafter.withState st st₁⟩⟩, ?_⟩
    rw [hafter.state]
    exact hst₁

/-- A statement whose accesses lie in the set takes states that agree there along. -/
theorem step_agreeOn (h : m.state.AgreeOn R st) (hlocal : ∀ y, s = .effect y → y.Local m.env)
    (hin : ∀ x ∈ m.accesses s, x.Within R) (hstep : m.step s = .next m₁) :
    ∃ st₁, (m.withState st).step s = .next (m₁.withState st₁) ∧ m₁.state.AgreeOn R st₁ := by
  have heval : (∀ y, s ≠ .effect y) → ∀ e ∈ s.operands, ∀ v, m.eval e = .ok v →
      (m.withState st).eval e = .ok v := fun hs e he v hv =>
    eval_agreeOn h (fun x hx => hin x (mem_accesses_of_operand hs he hx)) hv
  cases s with
  | missing => exact absurd hstep step_missing
  | noop | mark | fence =>
    rw [← Step.next.inj hstep]
    exact ⟨st, rfl, h⟩
  | assign dst src =>
    obtain ⟨v, T, hv, hT, rfl⟩ := step_assign.mp hstep
    have hv' := heval (by simp) src (by simp [Stmt.operands]) v hv
    exact ⟨st, step_assign.mpr ⟨v, T, hv', hT, rfl⟩, h⟩
  | put off data =>
    obtain ⟨T, v, s₁, hT, hv, hw, rfl⟩ := step_put.mp hstep
    have hv' := heval (by simp) data (by simp [Stmt.operands]) v hv
    obtain ⟨st₁, hw', hagree⟩ := h.writeReg hw
    exact ⟨st₁, step_put.mpr ⟨T, v, st₁, hT, hv', hw', rfl⟩, hagree⟩
  | putIx w ix bias data =>
    obtain ⟨i, v, off, s₁, hi, hv, hoff, hw, rfl⟩ := step_putIx.mp hstep
    have hi' := heval (by simp) ix (by simp [Stmt.operands]) i hi
    have hv' := heval (by simp) data (by simp [Stmt.operands]) v hv
    obtain ⟨st₁, hw', hagree⟩ := h.writeReg hw
    exact ⟨st₁, step_putIx.mpr ⟨i, v, off, st₁, hi', hv', hoff, hw', rfl⟩, hagree⟩
  | store addr data =>
    obtain ⟨a, T, v, ha, hT, hv, rfl⟩ := step_store.mp hstep
    have ha' := heval (by simp) addr (by simp [Stmt.operands]) a ha
    have hv' := heval (by simp) data (by simp [Stmt.operands]) v hv
    exact ⟨st.store a T v, step_store.mpr ⟨a, T, v, ha', hT, hv', rfl⟩, h.store a T v⟩
  | effect y => exact step_effect_agreeOn h (hlocal y rfl) hin hstep
  | exit guard kind dst =>
    obtain ⟨hg, rfl⟩ := step_exit.mp hstep
    have hg' := heval (by simp) guard (by simp [Stmt.operands]) 0 hg
    exact ⟨st, step_exit.mpr ⟨hg', rfl⟩, h⟩

/-- A statement whose accesses lie in the set changes no byte elsewhere. -/
theorem step_mem_outside (hlocal : ∀ y, s = .effect y → y.Local m.env)
    (hin : ∀ x ∈ m.accesses s, x.Within R) (hstep : m.step s = .next m₁) {a : UInt64} (ha : ¬R a) :
    m₁.state.mem[a]? = m.state.mem[a]? := by
  cases s with
  | missing => exact absurd hstep step_missing
  | noop | mark | fence => rw [← Step.next.inj hstep]
  | assign dst src =>
    obtain ⟨v, T, -, -, rfl⟩ := step_assign.mp hstep
    rfl
  | put off data =>
    obtain ⟨T, v, s₁, -, -, hw, rfl⟩ := step_put.mp hstep
    rw [withState_state, State.mem_writeReg hw]
  | putIx w ix bias data =>
    obtain ⟨i, v, off, s₁, -, -, -, hw, rfl⟩ := step_putIx.mp hstep
    rw [withState_state, State.mem_writeReg hw]
  | store addr data =>
    obtain ⟨b, T, v, hb, hT, -, rfl⟩ := step_store.mp hstep
    exact State.getElem?_store_of_not (hin _ (mem_accesses_store hb hT)) ha
  | effect y =>
    obtain ⟨addr, g, haddr, hg, hrest⟩ := step_effect.mp hstep
    rcases hrest with ⟨-, rfl⟩ | ⟨hz, vs, f, r, s₁, -, hf, hr, hafter⟩
    · rfl
    · obtain ⟨hout, -⟩ := hlocal y rfl f hf _ _ _ _ _ hr R (within_of_fired hg hz haddr hin)
      rw [hafter.state]
      exact hout a ha
  | exit guard kind dst =>
    obtain ⟨-, rfl⟩ := step_exit.mp hstep
    rfl

/-- An exit whose loads lie in the set leaves from every state that agrees there. -/
theorem leave_agreeOn {k : JumpKind} {dst : Const} (h : m.state.AgreeOn R st)
    (hin : ∀ x ∈ m.accesses s, x.Within R) (hleave : m.step s = .leave k dst) :
    (m.withState st).step s = .leave k dst := by
  obtain ⟨guard, g, rfl, hg, hz⟩ := step_eq_leave.mp hleave
  refine step_eq_leave.mpr ⟨guard, g, rfl, eval_agreeOn h (fun x hx => hin x ?_) hg, hz⟩
  exact mem_accesses_of_operand (by simp) (by simp [Stmt.operands]) hx

/-! ## Flat statements -/

theorem accessesMem_of_mem {x : MemAccess} (hx : x ∈ m.accesses s) : s.AccessesMem := by
  rcases exists_of_mem_accesses hx with ⟨e, he, hx⟩ | ⟨addr, data, a, T, rfl, -, -⟩ |
    ⟨y, a, rfl, ht, -, -⟩
  · obtain ⟨T, a, v, hn, -, -⟩ := exists_of_mem_loads hx
    exact .inl ⟨T, a, List.mem_flatMap.mpr ⟨e, he, hn⟩⟩
  · exact .inr trivial
  · exact .inr ht

theorem loads_of_isAtom (h : e.isAtom = true) : m.loads e = [] := by
  cases e with
  | tmp | const => rfl
  | _ => simp [Expr.isAtom] at h

theorem loadsAll_of_atoms {es : List Expr} (h : ∀ e ∈ es, e.isAtom = true) : m.loadsAll es = [] := by
  rw [loadsAll_eq, List.flatMap_eq_nil_iff]
  exact fun e he => loads_of_isAtom (h e he)

/-- The value of an atom does not depend on the state. -/
theorem eval_withState_of_isAtom (h : e.isAtom = true) (st : State) :
    (m.withState st).eval e = m.eval e := by
  cases e with
  | tmp t => simp only [eval, withState_temps, withState_vals]
  | const c => rw [eval_const, eval_const]
  | _ => simp [Expr.isAtom] at h

/-- A node over atoms loads from the same address in every state, if it loads at all. -/
theorem loads_withState (h : ∀ c ∈ e.children, c.isAtom = true) (st : State) :
    (m.withState st).loads e = m.loads e := by
  cases e with
  | missing | tmp | const | get => rfl
  | load T a =>
    have ha : a.isAtom = true := h a (by simp [Expr.children])
    simp only [loads, loadAt, loads_of_isAtom ha, eval_withState_of_isAtom ha]
  | call callee T args =>
    have hargs : ∀ a ∈ args, a.isAtom = true := h
    rw [loads, loads, loadsAll_of_atoms hargs, loadsAll_of_atoms hargs]
  | getIx | unop | binop | select =>
    simp only [Expr.children, List.mem_cons, List.not_mem_nil, or_false, forall_eq_or_imp,
      forall_eq] at h
    simp only [loads, loads_of_isAtom, h]

/-- A flat statement makes the same accesses in every state. -/
theorem accesses_withState (hs : s.Flat) (st : State) :
    (m.withState st).accesses s = m.accesses s := by
  cases s with
  | assign dst src =>
    simp only [accesses, Stmt.operands, loadsAll, loads_withState hs]
  | store addr data =>
    have haddr : addr.isAtom = true := hs addr (by simp [Stmt.operands])
    have hdata : data.isAtom = true := hs data (by simp [Stmt.operands])
    simp only [accesses, storeAt, loads_of_isAtom haddr, loads_of_isAtom hdata,
      eval_withState_of_isAtom haddr, withState_temps]
  | effect y =>
    have hguard : y.guard.isAtom = true := hs y.guard (by simp [Stmt.operands, Effect.operands])
    have hargs : ∀ a ∈ y.args, a.isAtom = true := fun a ha =>
      hs a (by simp [Stmt.operands, Effect.operands, ha])
    simp only [accesses, effectAccesses, touchAt, loads_of_isAtom hguard,
      eval_withState_of_isAtom hguard, loadsAll_of_atoms hargs]
    cases ht : y.touchesMem with
    | false => rfl
    | true =>
      have haddr : y.memAddr.isAtom = true :=
        hs y.memAddr (by simp [Stmt.operands, Effect.operands, ht])
      simp only [loads_of_isAtom haddr, eval_withState_of_isAtom haddr]
  | _ =>
    change (m.withState st).loadsAll _ = m.loadsAll _
    rw [loadsAll_of_atoms hs, loadsAll_of_atoms hs]

/-! ## Runs -/

/-- The accesses of a run that goes on are those of its first statement and of the rest. -/
theorem within_trace_cons {next : Expr} {ss : List Stmt}
    (hin : ∀ x ∈ trace next (s :: ss) m, x.1.Within R) :
    (∀ x ∈ m.accesses s, x.Within R) ∧
      ∀ m', m.step s = .next m' → ∀ x ∈ trace next ss m', x.1.Within R := by
  constructor
  · intro x hx
    exact hin (x, m.state) (List.mem_append_left _ (List.mem_map.mpr ⟨x, hx, rfl⟩))
  · intro m' hstep x hx
    refine hin x (List.mem_append_right _ ?_)
    rw [hstep]
    exact hx

/-- The accesses of a run lie in the set if, on every machine, those of each statement and of the
successor do. -/
theorem within_trace {next : Expr} {ss : List Stmt}
    (hnext : ∀ (m : Machine), ∀ x ∈ m.loads next, x.Within R)
    (hss : ∀ s ∈ ss, ∀ (m : Machine), ∀ x ∈ m.accesses s, x.Within R) :
    ∀ x ∈ trace next ss m, x.1.Within R := by
  induction ss generalizing m with
  | nil =>
    intro x hx
    obtain ⟨y, hy, rfl⟩ := List.mem_map.mp hx
    exact hnext m y hy
  | cons s ss ih =>
    rw [List.forall_mem_cons] at hss
    intro x hx
    rcases List.mem_append.mp hx with hx | hx
    · obtain ⟨y, hy, rfl⟩ := List.mem_map.mp hx
      exact hss.1 m y hy
    · split at hx
      · exact ih hss.2 x hx
      · simp at hx
      · simp at hx

/-- A run that succeeds with all its accesses in the set succeeds alike from every state that agrees
there, and the final states agree there. -/
theorem run_agreeOn {next : Expr} {kind : JumpKind} {i : Nat} {ss : List Stmt} {r : Result}
    (h : m.state.AgreeOn R st) (hlocal : ∀ y, .effect y ∈ ss → y.Local m.env)
    (hin : ∀ x ∈ trace next ss m, x.1.Within R) (hr : (run next kind i ss m).outcome = .ok r) :
    (run next kind i ss (m.withState st)).outcome = .ok r ∧
      (run next kind i ss m).state.AgreeOn R (run next kind i ss (m.withState st)).state := by
  induction ss generalizing m st i with
  | nil =>
    rw [run] at hr
    cases hv : m.eval next with
    | error f => simp [hv, Except.map] at hr
    | ok v =>
      have hloads : ∀ x ∈ m.loads next, x.Within R := fun x hx =>
        hin (x, m.state) (List.mem_map.mpr ⟨x, hx, rfl⟩)
      rw [hv] at hr
      exact ⟨by rw [run, eval_agreeOn h hloads hv]; exact hr, h⟩
  | cons s ss ih =>
    obtain ⟨hfirst, hrest⟩ := within_trace_cons hin
    have hlocal' : ∀ y, s = .effect y → y.Local m.env := fun y hy => hlocal y (by simp [hy])
    rw [run] at hr
    cases hstep : m.step s with
    | next m₁ =>
      obtain ⟨st₁, hstep', hagree⟩ := step_agreeOn h hlocal' hfirst hstep
      rw [run, run, hstep, hstep']
      rw [hstep] at hr
      refine ih hagree (fun y hy => ?_) (hrest m₁ hstep) hr
      rw [step_env hstep]
      exact hlocal y (List.mem_cons_of_mem _ hy)
    | leave k dst =>
      rw [run, run, hstep, leave_agreeOn h hfirst hstep]
      rw [hstep] at hr
      exact ⟨hr, h⟩
    | fail f s' => simp [hstep] at hr

/-- A run with all its accesses in the set changes no byte elsewhere, as far as it gets. -/
theorem run_mem_outside {next : Expr} {kind : JumpKind} {i : Nat} {ss : List Stmt} {r : Result}
    (hlocal : ∀ y, .effect y ∈ ss → y.Local m.env)
    (hin : ∀ x ∈ trace next ss m, x.1.Within R) (hr : (run next kind i ss m).outcome = .ok r)
    {a : UInt64} (ha : ¬R a) : (run next kind i ss m).state.mem[a]? = m.state.mem[a]? := by
  induction ss generalizing m i with
  | nil => rfl
  | cons s ss ih =>
    obtain ⟨hfirst, hrest⟩ := within_trace_cons hin
    rw [run] at hr ⊢
    cases hstep : m.step s with
    | next m₁ =>
      rw [hstep] at hr
      have hlocal' : ∀ y, .effect y ∈ ss → y.Local m₁.env := by
        rw [step_env hstep]
        exact fun y hy => hlocal y (List.mem_cons_of_mem _ hy)
      have hfirst' := step_mem_outside (fun y hy => hlocal y (by simp [hy])) hfirst hstep ha
      exact (ih hlocal' (hrest m₁ hstep) hr).trans hfirst'
    | leave k dst => rfl
    | fail f s' => simp [hstep] at hr

end Machine

/-- A successful run whose accesses lie in the set is confined to it, if effects keep to what they
declare. -/
theorem Block.confined_of_trace {b : Block} {s : State} {env : Env} {R : UInt64 → Prop} {r : Result}
    (hlocal : ∀ y, .effect y ∈ b.stmts → y.Local env) (hr : (b.run s env).outcome = .ok r)
    (hin : ∀ x ∈ b.trace s env, x.1.Within R) : b.Confined s env R := by
  refine ⟨hin, fun a ha => Machine.run_mem_outside hlocal hin hr ha, fun s' hs' => ?_⟩
  have hstart : (Machine.start b.temps env s).state.AgreeOn R s' := hs'
  obtain ⟨hr', hagree⟩ := Machine.run_agreeOn hstart hlocal hin hr
  exact ⟨hr'.trans hr.symm, hagree⟩

end Straightline
