import Straightline.Machine.Operator
import Straightline.Machine.State

/-!
# Running a block

Statements run in order until an exit is taken or the end is reached. Temporaries start undefined;
a defined one holds a value cut to its type. Every operand is evaluated, in the order in which the
statement holds it, before the statement acts.

A run that fails keeps the state it had reached: `Run` pairs an outcome with that state.
-/

namespace Straightline

/-- A pure helper. -/
abbrev Helper := List UInt64 → Except Fault UInt64

/-- A helper with effects: it gets the state, its arguments and the declared memory address. -/
abbrev EffectHelper := State → List UInt64 → UInt64 → Except Fault (UInt64 × State)

/-- The helpers that a block may call, by name. -/
structure Env where
  helper : String → Option Helper
  effect : String → Option EffectHelper

/-- A block in the middle of its run. -/
structure Machine where
  /-- The types of the temporaries. -/
  temps : Array Ty
  env : Env
  /-- The values of the temporaries defined so far. -/
  vals : Temp → Option UInt64
  state : State

namespace Machine

/-- The word that an index value selects by: its low half, sign-extended. -/
def index (v : UInt64) : Int64 := v.toUInt32.toInt32.toInt64

/-- The register offset of a window element. -/
def element (w : Window) (ix : UInt64) (bias : Int64) : Except Fault Int64 :=
  match w.offset? (index ix) bias with
  | some off => .ok off
  | none => .error .crash

mutual

/-- The value of an expression. -/
def eval (m : Machine) : Expr → Except Fault UInt64
  | .missing => .error (.atExpr .unknownExpr .missing)
  | .tmp t => do
    let _ ← tempTy m.temps t
    match m.vals t with
    | some v => .ok v
    | none => .error (.atExpr .useBeforeDef (.tmp t))
  | .const c => .ok c.bits
  | .get off ty => m.state.readReg off ty
  | .getIx w ix bias => do
    let i ← m.eval ix
    m.state.readReg (← element w i bias) w.elem
  | .unop op a => do
    let v ← m.eval a
    match op.apply1 v with
    | some r => .ok (r &&& op.result.mask)
    | none => .error (.atExpr .unaryOp (.unop op .missing))
  | .binop op a b => do
    let v ← m.eval a
    let u ← m.eval b
    match op.apply2 v u with
    | some r => .ok (r &&& op.result.mask)
    | none => .error (.atExpr .binaryOp (.binop op .missing .missing))
  | .load ty a => do
    let v ← m.eval a
    .ok (m.state.load v ty)
  | .call callee ty args => do
    let vs ← m.evalAll args
    match m.env.helper callee with
    | some f => do
      let r ← f vs
      .ok (r &&& ty.mask)
    | none => .error (.atExpr .unknownHelper (.call callee ty args))
  | .select c z x => do
    let vc ← m.eval c
    let vz ← m.eval z
    let vx ← m.eval x
    .ok (if vc &&& 0xff = 0 then vz else vx)

/-- The values of several expressions, first to last. -/
def evalAll (m : Machine) : List Expr → Except Fault (List UInt64)
  | [] => .ok []
  | e :: es => do
    let v ← m.eval e
    let vs ← m.evalAll es
    .ok (v :: vs)

end

theorem eval_const {m : Machine} (c : Const) : m.eval (.const c) = .ok c.bits := by
  rw [eval]

theorem eval_get {m : Machine} (off : Int64) (T : Ty) :
    m.eval (.get off T) = m.state.readReg off T := by
  rw [eval]

/-- Gives temporary `t` the value `v`, cut to its type. -/
def define (m : Machine) (t : Temp) (v : UInt64) : Except Fault Machine := do
  let ty ← tempTy m.temps t
  .ok { m with vals := fun u => if u = t then some (v &&& ty.mask) else m.vals u }

/-- Runs the helper of an effect, unless its guard is false: the result and the new state. -/
def fire (m : Machine) (e : Effect) : Except Fault (Option (UInt64 × State)) := do
  let addr ← if e.touchesMem then m.eval e.memAddr else .ok 0
  let g ← m.eval e.guard
  if g = 0 then
    .ok none
  else do
    let vs ← m.evalAll e.args
    match m.env.effect e.callee with
    | some f => do
      let r ← f m.state vs addr
      .ok (some r)
    | none => .error (.atStmt .unknownEffect (.effect e))

/-- What a statement does to a machine. -/
inductive Step where
  | next (m : Machine)
  | leave (kind : JumpKind) (dst : Const)
  | fail (f : Fault) (s : State)

/-- Goes on with the new machine, or fails in the present state. -/
def attempt (m : Machine) : Except Fault Machine → Step
  | .ok m' => .next m'
  | .error f => .fail f m.state

/-- Runs one statement. -/
def step (m : Machine) : Stmt → Step
  | .missing => .fail (.atStmt .unknownStmt .missing) m.state
  | .noop | .mark _ _ | .fence => .next m
  | .assign dst src => m.attempt do
    let v ← m.eval src
    m.define dst v
  | .put off data => m.attempt do
    let ty ← data.typeIn m.temps
    let v ← m.eval data
    let s ← m.state.writeReg off ty v
    .ok { m with state := s }
  | .putIx w ix bias data => m.attempt do
    let i ← m.eval ix
    let v ← m.eval data
    let off ← element w i bias
    let s ← m.state.writeReg off w.elem v
    .ok { m with state := s }
  | .store addr data => m.attempt do
    let a ← m.eval addr
    let ty ← data.typeIn m.temps
    let v ← m.eval data
    .ok { m with state := m.state.store a ty v }
  | .effect e =>
    match m.fire e with
    | .error f => .fail f m.state
    | .ok none => .next m
    | .ok (some (r, s)) =>
      let m' := { m with state := s }
      match e.result with
      | none => .next m'
      | some t => m'.attempt (m'.define t r)
  | .exit guard kind dst =>
    match m.eval guard with
    | .error f => .fail f m.state
    | .ok g => if g = 0 then .next m else .leave kind dst

end Machine

/-- Where a block went: the index of the exit taken, or none for the block's own successor. -/
structure Result where
  target : UInt64
  kind : JumpKind
  exit : Option Nat
deriving DecidableEq

/-- The outcome of a run and the state it ended in. -/
structure Run where
  outcome : Except Fault Result
  state : State

/-- Runs the statements from number `i` on, then jumps. -/
def Machine.run (next : Expr) (kind : JumpKind) : Nat → List Stmt → Machine → Run
  | _, [], m => ⟨(m.eval next).map fun v => ⟨v, kind, none⟩, m.state⟩
  | i, s :: ss, m =>
    match m.step s with
    | .next m' => Machine.run next kind (i + 1) ss m'
    | .leave k dst => ⟨.ok ⟨dst.bits, k, some i⟩, m.state⟩
    | .fail f st => ⟨.error f, st⟩

/-- Runs a block from a state. -/
def Block.run (b : Block) (s : State) (env : Env) : Run :=
  Machine.run b.next b.kind 0 b.stmts ⟨b.temps, env, fun _ => none, s⟩

end Straightline
