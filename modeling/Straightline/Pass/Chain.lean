import Straightline.Pass.Simplify

/-!
# Collapsing chains of sums

A temporary that is another one plus or minus a constant is a link, and links form chains. A sum at
the end of a chain is expressed through the root of the chain. An index at the end of a chain of
32-bit links becomes the root, and the sum of the links goes into the displacement: this is the same
element when the number of elements is a power of two, since then wrapping at 32 bits and going
round the window agree.
-/

namespace Straightline
namespace Chain

/-- The value of a temporary as `base + delta` in the type `ty`. -/
structure Link where
  base : Temp
  delta : UInt64
  ty : Ty

/-- The right side as a link. -/
def Link.ofExpr? : Expr → Option Link
  | .binop (.arith f w) (.tmp t) (.const c) =>
    match f, w with
    | .add, .w32 | .add, .w64 => some ⟨t, c.bits, w.ty⟩
    | .sub, .w32 | .sub, .w64 => some ⟨t, -c.bits, w.ty⟩
    | _, _ => none
  | _ => none

/-- The links of a block, the last one first. -/
abbrev Links := List (Temp × Link)

namespace Links

/-- The links that the statements define. -/
def ofStmts (ss : List Stmt) : Links :=
  (ss.filterMap fun
    | .assign dst src => (Link.ofExpr? src).map fun l => (dst, l)
    | _ => none).reverse

/-- Follows links of type `ty` back from `t`, at most `n` of them: the last temporary reached, the
sum on the way, and the number of links. -/
def walkUpTo (ch : Links) (ty : Ty) : Nat → Temp → UInt64 → Nat → Temp × UInt64 × Nat
  | 0, t, delta, hops => (t, delta &&& ty.mask, hops)
  | n + 1, t, delta, hops =>
    match ch.lookup t with
    | some l =>
      if l.ty = ty then ch.walkUpTo ty n l.base (delta + l.delta) (hops + 1)
      else (t, delta &&& ty.mask, hops)
    | none => (t, delta &&& ty.mask, hops)

/-- Follows the chain back from `t` to its root. A chain is no longer than there are links, since
no temporary is a link twice. -/
def walk (ch : Links) (t : Temp) (ty : Ty) : Temp × UInt64 × Nat :=
  ch.walkUpTo ty ch.length t 0 0

end Links

/-- The sum of a temporary and a word, written as the shorter of an addition and a subtraction. -/
def sum (root : Temp) (delta : UInt64) (ty : Ty) : Expr :=
  let delta := delta &&& ty.mask
  let w : Width := if ty = .i64 then .w64 else .w32
  if (signExtend delta ty.bits).toInt64 < 0 then
    .binop (.arith .sub w) (.tmp root) (.const (.ofTy ty (-delta)))
  else .binop (.arith .add w) (.tmp root) (.const (.ofTy ty delta))

/-- Whether a word has exactly one bit. -/
def isPowerOfTwo (n : UInt64) : Bool := n != 0 && n &&& (n - 1) == 0

/-- The index and displacement of an access through a window, with the chain of the index moved into
the displacement where that is sound. -/
def index (ch : Links) (w : Window) (ix : Expr) (bias : Int64) : Expr × Int64 :=
  match ix with
  | .tmp t =>
    if isPowerOfTwo w.count.toUInt64 then
      let (root, delta, hops) := ch.walk t .i32
      if hops = 0 then (ix, bias)
      else (.tmp root, bias + delta.toUInt32.toInt32.toInt64)
    else (ix, bias)
  | _ => (ix, bias)

/-- A right side in terms of the roots of its chains. -/
def source (ch : Links) (e : Expr) : Expr :=
  match e with
  | .getIx w ix bias =>
    let (ix, bias) := index ch w ix bias
    .getIx w ix bias
  | e =>
    match Link.ofExpr? e with
    | none => e
    | some l =>
      let (root, delta, hops) := ch.walk l.base l.ty
      if hops = 0 then e else sum root (delta + l.delta) l.ty

/-- A statement in terms of the roots of its chains. -/
def stmt (ch : Links) : Stmt → Stmt
  | .assign dst src => .assign dst (source ch src)
  | .putIx w ix bias data =>
    let (ix, bias) := index ch w ix bias
    .putIx w ix bias data
  | s => s

end Chain

/-- The block with its chains of sums collapsed. -/
def Block.collapse (b : Block) : Block :=
  { b with stmts := b.stmts.map (Chain.stmt (.ofStmts b.stmts)) }

end Straightline
