import Straightline.Fault
import Straightline.PriorityQueue

/-!
# Building trees

The reverse of flat form, for code that selects instructions from trees: the right side of a
temporary that is used exactly once moves into the place of its use. Such a binding is *held* until
then. What it reads must not change on the way, so a held binding that reads memory or registers is
emitted before a statement that may write them, and every held binding before a fence.

Bindings that have to be emitted are put into a priority queue, in no particular order, and come out
of it by the numbers of the statements that they came from. Both the queue and the order in which it
is filled are parameters of the walk.
-/

namespace Straightline
namespace Nesting

/-- A binding that waits for its use: the number of the statement it came from, and whether it reads
memory or registers. -/
structure Held where
  temp : Temp
  expr : Expr
  pos : Nat
  load : Bool
  get : Bool

/-- Whether a binding came from an earlier statement than another. -/
def Held.earlier (g h : Held) : Bool := g.pos < h.pos

/-- Whether a node reads memory. -/
def isLoad : Expr → Bool
  | .load _ _ => true
  | _ => false

/-- Whether a node reads registers. -/
def isGet : Expr → Bool
  | .get _ _ | .getIx _ _ _ => true
  | _ => false

/-- The waiting bindings, each temporary at most once. -/
abbrev Waiting := List Held

namespace Waiting

/-- The bindings of other temporaries. -/
def erase (w : Waiting) (t : Temp) : Waiting := w.filter (·.temp ≠ t)

/-- Lets the binding of `t` to `e`, from the statement with number `i`, wait. -/
def hold (w : Waiting) (i : Nat) (t : Temp) (e : Expr) : Waiting :=
  w.erase t ++ [⟨t, e, i, e.nodes.any isLoad, e.nodes.any isGet⟩]

/-- Takes the value of `t` out of the waiting bindings. -/
def take (w : Waiting) (t : Temp) : Expr × Waiting :=
  match w.find? (·.temp = t) with
  | some h => (h.expr, w.erase t)
  | none => (.tmp t, w)

end Waiting

mutual

/-- The expression with waiting bindings moved in for their temporaries, from left to right, and the
bindings that still wait. -/
def moveIn (w : Waiting) : Expr → Expr × Waiting
  | .missing => (.missing, w)
  | .tmp t => w.take t
  | .const c => (.const c, w)
  | .get off ty => (.get off ty, w)
  | .getIx d ix bias =>
    let (ix, w) := moveIn w ix
    (.getIx d ix bias, w)
  | .unop op a =>
    let (a, w) := moveIn w a
    (.unop op a, w)
  | .binop op a b =>
    let (a, w) := moveIn w a
    let (b, w) := moveIn w b
    (.binop op a b, w)
  | .load ty a =>
    let (a, w) := moveIn w a
    (.load ty a, w)
  | .call callee ty args =>
    let (args, w) := moveInAll w args
    (.call callee ty args, w)
  | .select c z x =>
    let (c, w) := moveIn w c
    let (z, w) := moveIn w z
    let (x, w) := moveIn w x
    (.select c z x, w)

/-- Several expressions, first to last. -/
def moveInAll (w : Waiting) : List Expr → List Expr × Waiting
  | [] => ([], w)
  | e :: es =>
    let (e, w) := moveIn w e
    let (es, w) := moveInAll w es
    (e :: es, w)

end

/-- A statement with waiting bindings moved into its operands. -/
def moveInStmt (w : Waiting) (s : Stmt) : Stmt × Waiting :=
  (s.mapOperandsM (m := StateM Waiting) fun e w => moveIn w e) w

/-- Whether a waiting binding must not move past a statement. -/
def blocks : Stmt → Held → Bool
  | .put _ _, h | .putIx _ _ _ _, h | .effect _, h => h.load || h.get
  | .store _ _, h => h.load
  | .fence, _ => true
  | _, _ => false

/-- The assignment that a binding came from. -/
def emit (h : Held) : Stmt := .assign h.temp h.expr

/-- How bindings are emitted: the queue they go through, and the order in which the bindings that
have to be emitted before the statement with a given number are put into it. -/
structure Outlet where
  queue : PriorityQueue Held Held.earlier
  order : Nat → List Held → List Held

variable (o : Outlet)

/-- The bindings that must not move past `s`, the statement with number `i`, as they come out of the
queue, with the bindings that still wait and the queue as it is left. -/
def flush (i : Nat) (s : Stmt) (w : Waiting) (q : o.queue.State) :
    List Held × Waiting × o.queue.State :=
  let due := o.order i (w.filter (blocks s))
  let (due, q) := o.queue.popUpTo due.length (o.queue.pushAll q due)
  (due, due.foldl (fun w h => w.erase h.temp) w, q)

/-- The statements from number `i` on and the successor of a block whose temporaries are used as
`uses` lists. -/
def build (uses : List Temp) (next : Expr) :
    Nat → Waiting → o.queue.State → List Stmt → List Stmt × Expr
  | _, w, _, [] => ([], (moveIn w next).1)
  | i, w, q, s :: ss =>
    match s with
    | .noop => build uses next (i + 1) w q ss
    | s =>
      match (match s with
        | .assign dst src => if uses.count dst = 1 then some (dst, src) else none
        | _ => none) with
      | some (dst, src) =>
        let (e, w) := moveIn w src
        build uses next (i + 1) (w.hold i dst e) q ss
      | none =>
        let (s, w) := moveInStmt w s
        let (before, w, q) := flush o i s w q
        let (rest, next) := build uses next (i + 1) w q ss
        (before.map emit ++ s :: rest, next)

/-- Emits through a sorted list, which is filled in the order of the waiting bindings. -/
def Outlet.sorted : Outlet := ⟨.sorted Held.earlier, fun _ w => w⟩

/-- The temporaries that the nodes use, all of which have to be declared. -/
def usesOf (count : Nat) : List Expr → Except Fault (List Temp)
  | [] => .ok []
  | .missing :: _ => .error (.atExpr .unknownExpr .missing)
  | .tmp t :: es =>
    if 0 ≤ t.toInt ∧ t.toInt < count then do
      let ts ← usesOf count es
      .ok (t :: ts)
    else .error .crash
  | _ :: es => usesOf count es

/-- The temporaries that the statements use. -/
def usesOfStmts (count : Nat) : List Stmt → Except Fault (List Temp)
  | [] => .ok []
  | s :: ss => do
    s.demand
    let ts ← usesOf count s.nodes
    let us ← usesOfStmts count ss
    .ok (ts ++ us)

/-- Whether a statement assigns no undeclared temporary. -/
def assignsDeclared (count : Nat) : Stmt → Bool
  | .assign dst _ => 0 ≤ dst.toInt && dst.toInt < count
  | _ => true

end Nesting

open Nesting in
/-- The block with single-use temporaries moved into their uses, and what must not move emitted
through `o`. -/
def Block.buildTreesThrough (o : Outlet) (b : Block) : Except Fault Block := do
  let us ← usesOfStmts b.temps.size b.stmts
  let vs ← usesOf b.temps.size b.next.nodes
  if b.stmts.all (assignsDeclared b.temps.size) then
    let (stmts, next) := build o (us ++ vs) b.next 0 [] o.queue.empty b.stmts
    .ok { b with stmts, next }
  else .error .crash

/-- The block with single-use temporaries moved into their uses. -/
def Block.buildTrees (b : Block) : Except Fault Block := b.buildTreesThrough .sorted

end Straightline
