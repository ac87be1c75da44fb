import Straightline.Const
import Straightline.Op
import Straightline.Region

/-!
# Expressions

An expression is a tree over temporaries, constants, register and memory reads, operators, pure
helper calls and a conditional. `Expr.missing` is the hole that stands where an expression should
be and none was given: every consumer refuses it.

`Expr.nodes` lists a tree in pre-order; analyses are folds over that list.
-/

namespace Straightline

/-- The number of a temporary. It is a 32-bit word: renumbering wraps. -/
abbrev Temp := Int32

/-- The marker that stands for "no temporary". -/
def noTemp : Temp := -1

/-- An expression. -/
inductive Expr where
  /-- No expression. -/
  | missing
  | tmp (t : Temp)
  | const (c : Const)
  /-- The register value of type `ty` at offset `off`. -/
  | get (off : Int64) (ty : Ty)
  /-- The element of the window `w` at index `ix + bias`. -/
  | getIx (w : Window) (ix : Expr) (bias : Int64)
  | unop (op : Op) (arg : Expr)
  | binop (op : Op) (arg1 arg2 : Expr)
  /-- The memory value of type `ty` at address `addr`. -/
  | load (ty : Ty) (addr : Expr)
  /-- The result of a helper that reads and writes nothing but its arguments. -/
  | call (callee : String) (ty : Ty) (args : List Expr)
  /-- The value of `ifZero` when `cond` is zero, of `other` when it is not. -/
  | select (cond ifZero other : Expr)
deriving Inhabited

namespace Expr

/-- Induction on an expression, with the arguments of a call reached through membership. -/
@[induction_eliminator]
theorem induct {P : Expr → Prop} (missing : P missing) (tmp : ∀ t, P (tmp t))
    (const : ∀ c, P (const c)) (get : ∀ off ty, P (get off ty))
    (getIx : ∀ w ix bias, P ix → P (getIx w ix bias))
    (unop : ∀ op arg, P arg → P (unop op arg))
    (binop : ∀ op a b, P a → P b → P (binop op a b))
    (load : ∀ ty addr, P addr → P (load ty addr))
    (call : ∀ callee ty args, (∀ a ∈ args, P a) → P (call callee ty args))
    (select : ∀ c z x, P c → P z → P x → P (select c z x)) : ∀ e, P e :=
  @Expr.rec P (fun args => ∀ a ∈ args, P a) missing tmp const get getIx
    unop binop load call select (fun _ h => nomatch h)
    (fun _ _ ha has a h => by
      cases h with
      | head => exact ha
      | tail _ h => exact has a h)

/-- Temporaries and constants, the operands of flat code. -/
def isAtom : Expr → Bool
  | tmp _ | const _ => true
  | _ => false

def isMissing : Expr → Bool
  | missing => true
  | _ => false

/-- Whether both expressions are the same atom. -/
def sameAtom : Expr → Expr → Bool
  | tmp t, tmp u => t == u
  | const c, const d => c == d
  | _, _ => false

/-- The direct operands, in evaluation order. -/
def children : Expr → List Expr
  | missing | tmp _ | const _ | get _ _ => []
  | getIx _ ix _ => [ix]
  | unop _ a => [a]
  | binop _ a b => [a, b]
  | load _ a => [a]
  | call _ _ args => args
  | select c z x => [c, z, x]

/-- The expression with `f` applied to each direct operand. -/
def mapChildren (f : Expr → Expr) : Expr → Expr
  | getIx w ix bias => getIx w (f ix) bias
  | unop op a => unop op (f a)
  | binop op a b => binop op (f a) (f b)
  | load ty a => load ty (f a)
  | call callee ty args => call callee ty (args.map f)
  | select c z x => select (f c) (f z) (f x)
  | e => e

/-- The expression with `f` run on each direct operand, first to last. -/
def mapChildrenM {m : Type → Type} [Monad m] (f : Expr → m Expr) : Expr → m Expr
  | getIx w ix bias => return getIx w (← f ix) bias
  | unop op a => return unop op (← f a)
  | binop op a b => do
    let a ← f a
    return binop op a (← f b)
  | load ty a => return load ty (← f a)
  | call callee ty args => return call callee ty (← args.mapM f)
  | select c z x => do
    let c ← f c
    let z ← f z
    return select c z (← f x)
  | e => pure e

mutual

/-- The nodes of the tree in pre-order, without those below a node that `stop` holds of. -/
def nodesUntil (stop : Expr → Bool) (e : Expr) : List Expr :=
  if stop e then [e] else
    e :: match e with
      | missing | tmp _ | const _ | get _ _ => []
      | getIx _ ix _ => nodesUntil stop ix
      | unop _ a => nodesUntil stop a
      | binop _ a b => nodesUntil stop a ++ nodesUntil stop b
      | load _ a => nodesUntil stop a
      | call _ _ args => nodesUntilAll stop args
      | select c z x => nodesUntil stop c ++ nodesUntil stop z ++ nodesUntil stop x

/-- The nodes of several trees, one after the other. -/
def nodesUntilAll (stop : Expr → Bool) : List Expr → List Expr
  | [] => []
  | e :: es => nodesUntil stop e ++ nodesUntilAll stop es

end

/-- The nodes of the tree in pre-order. -/
def nodes (e : Expr) : List Expr := e.nodesUntil fun _ => false

mutual

/-- The tree with every temporary renumbered. -/
def mapTemps (f : Temp → Temp) : Expr → Expr
  | missing => missing
  | tmp t => tmp (f t)
  | const c => const c
  | get off ty => get off ty
  | getIx w ix bias => getIx w (mapTemps f ix) bias
  | unop op a => unop op (mapTemps f a)
  | binop op a b => binop op (mapTemps f a) (mapTemps f b)
  | load ty a => load ty (mapTemps f a)
  | call callee ty args => call callee ty (mapTempsAll f args)
  | select c z x => select (mapTemps f c) (mapTemps f z) (mapTemps f x)

/-- Several trees, renumbered. -/
def mapTempsAll (f : Temp → Temp) : List Expr → List Expr
  | [] => []
  | e :: es => mapTemps f e :: mapTempsAll f es

end

@[simp]
theorem nodesUntilAll_eq (stop : Expr → Bool) (es : List Expr) :
    nodesUntilAll stop es = es.flatMap (nodesUntil stop) := by
  induction es with
  | nil => rfl
  | cons e es ih => simp [nodesUntilAll, ih]

@[simp]
theorem mapTempsAll_eq (f : Temp → Temp) (es : List Expr) :
    mapTempsAll f es = es.map (mapTemps f) := by
  induction es with
  | nil => rfl
  | cons e es ih => simp [mapTempsAll, ih]

end Expr
end Straightline
