import Straightline.Sample.Env
import Straightline.Sample.Random

/-!
# Generated blocks

Random well-formed blocks, nested and single-assignment, for trying the optimizer against the
machine. Whatever the random source answers, an expression is generated at the type that is asked
for, from temporaries that are defined before.

Indexes and addresses are generated as nested expressions of their own, so nesting is not bounded by
the wanted depth: with an unlucky source it goes on for ever. `fuel` bounds it, and generation is
`exhausted` when it runs out.
-/

namespace Straightline
namespace Sample

/-- The parameters of the generator. -/
structure Config where
  /-- The address of the generated block. -/
  addr : UInt64
  /-- The most statements to choose, apart from the first mark and a last exit. -/
  stmts : Int64
  /-- The wanted nesting of expressions. -/
  depth : Int64

/-- Why generation stopped without a block. -/
inductive Halt where
  /-- A number was to be chosen from none. -/
  | noChoice
  /-- The fuel ran out. -/
  | exhausted
deriving DecidableEq

/-- Generation from a source with states `σ`. -/
abbrev Gen (σ : Type) := StateT σ (Except Halt)

/-! ## Register layout -/

/-- A window whose element count is a power of two. -/
def window : Window := ⟨128, .i32, 8⟩

/-- A window whose element count is not. -/
def ring : Window := ⟨176, .i16, 6⟩

/-- The first address of the memory that blocks use, and its size. -/
def memBase : UInt64 := 0x1000

def memBytes : UInt64 := 0x40

/-- The types of generated values, by weight. -/
def types : List Ty := [.i1, .i8, .i16, .i32, .i32, .i64, .f64]

section
variable {σ : Type} (src : Source σ)

/-! ## Choices -/

/-- A number at most `n`. -/
def upTo (n : Nat) : Gen σ (Fin (n + 1)) := fun s => .ok (src.upTo n s)

/-- A number below `n`. -/
def below (n : Nat) : Gen σ Nat :=
  match n with
  | 0 => throw .noChoice
  | n + 1 => return (← upTo src n).val

/-- Any word. -/
def word : Gen σ UInt64 := fun s => .ok (src.word s)

/-- A member of a list. -/
def pick {α : Type} (xs : List α) : Gen σ α := do
  let i ← below src xs.length
  match xs[i]? with
  | some x => return x
  | none => throw .noChoice

/-- The offset of a value of type `ty`: within the window now and then, else aligned in front. -/
def offset (ty : Ty) : Gen σ Int64 := do
  if (← below src 8) = 0 then
    return window.base + .ofNat (← below src (33 - ty.bytes))
  else
    return .ofNat (ty.bytes * (← below src (64 / ty.bytes)))

/-- One of the two windows. -/
def anyWindow : Gen σ Window := do
  if (← below src 3) = 0 then return ring else return window

/-- A displacement from -10 to 10. -/
def bias : Gen σ Int64 := return .ofNat (← below src 21) - 10

/-- A constant of type `ty`; special values are frequent. -/
def constant (ty : Ty) : Gen σ Const := do
  if ty = .f64 then
    if (← below src 2) = 0 then
      return ⟨.f64, (Float.ofNat (← below src 100) / 4).toBits⟩
    else
      return ⟨.f64i, ← word src⟩
  else
    match ← below src 4 with
    | 0 => return .ofTy ty 0
    | 1 => return .ofTy ty (.ofNat (← below src 8))
    | 2 => return .ofTy ty ty.mask
    | _ => return .ofTy ty (← word src)

/-! ## Expressions -/

/-- The temporaries that are defined, with their types, first to last. -/
abbrev Pool := List (Ty × Temp)

/-- The defined temporaries of a type. -/
def Pool.ofTy (p : Pool) (ty : Ty) : List Temp :=
  p.filterMap fun d => if d.1 = ty then some d.2 else none

/-- A defined temporary or a constant. -/
def atom (p : Pool) (ty : Ty) : Gen σ Expr := do
  let ts := p.ofTy ty
  if ts.isEmpty then
    return .const (← constant src ty)
  else if (← below src 3) = 0 then
    return .const (← constant src ty)
  else
    return .tmp (← pick src ts)

mutual

/-- An expression of type `ty`, nested about `d` levels deep. -/
def expr (p : Pool) : Nat → Ty → Nat → Gen σ Expr
  | 0, _, _ => throw .exhausted
  | _ + 1, ty, 0 => atom src p ty
  | n + 1, ty, d + 1 => do
    if (← below src 4) = 0 then
      atom src p ty
    else
      match ← below src 10 with
      | 0 | 1 => return .get (← offset src ty) ty
      | 2 => do
        let w ← anyWindow src
        if w.elem = ty then
          let ix ← index p n
          return .getIx w ix (← bias src)
        else operation p n ty d
      | 3 => if ty ≠ .i1 then return .load ty (← address p n) else operation p n ty d
      | 4 =>
        if ty = .i32 then do
          let a ← expr p n .i32 d
          return .call "mix32" .i32 [a, ← expr p n .i32 d]
        else operation p n ty d
      | 5 =>
        if ty ≠ .i1 then do
          let c ← expr p n .i8 d
          let z ← expr p n ty d
          return .select c z (← expr p n ty d)
        else operation p n ty d
      | _ => operation p n ty d

/-- An operator of result type `ty` on operands nested about `d` levels deep. The amount of a shift
is often a constant, sometimes beyond the width. -/
def operation (p : Pool) : Nat → Ty → Nat → Gen σ Expr
  | 0, _, _ => throw .exhausted
  | n + 1, ty, d => do
    let op ← pick src (Op.table.filter (·.result = ty))
    if op.arg2 = .invalid then
      return .unop op (← expr p n op.arg1 d)
    else do
      let a ← expr p n op.arg1 d
      let b ← expr p n op.arg2 d
      if !op.isShift then
        return .binop op a b
      else if (← below src 2) = 0 then
        return .binop op a (.const ⟨.u8, .ofNat (← below src (op.arg1.bits + 2))⟩)
      else
        return .binop op a b

/-- An index, often a small distance from another one. -/
def index (p : Pool) : Nat → Gen σ Expr
  | 0 => throw .exhausted
  | n + 1 => do
    let ix ← expr p n .i32 1
    match ← below src 3 with
    | 0 => return ix
    | 1 => return .binop (.arith .add .w32) ix (.const ⟨.u32, .ofNat (← below src 20)⟩)
    | _ => return .binop (.arith .sub .w32) ix (.const ⟨.u32, .ofNat (← below src 20)⟩)

/-- An address in the memory that blocks use, with room for eight bytes. -/
def address (p : Pool) : Nat → Gen σ Expr
  | 0 => throw .exhausted
  | n + 1 => do
    let off := .binop (.arith .and .w32) (← expr p n .i32 1) (.const ⟨.u32, memBytes - 8⟩)
    return .binop (.arith .add .w64) (.const ⟨.u64, memBase⟩) (.unop (.convert .u32to64) off)

end

/-! ## Statements -/

/-- What has been declared so far. -/
structure Draft where
  temps : Array Ty
  pool : Pool

/-- The next temporary, of type `ty`. -/
def Draft.fresh (d : Draft) (ty : Ty) : Temp × Draft :=
  let t : Temp := .ofNat d.temps.size
  (t, ⟨d.temps.push ty, d.pool ++ [(ty, t)]⟩)

/-- A call of `bump`, either guarded or with a result. -/
def effect (fuel : Nat) (d : Draft) : Gen σ (Stmt × Draft) := do
  let a ← expr src d.pool fuel .i32 1
  let m ← address src d.pool fuel
  let call (guard : Expr) (result : Option Temp) : Stmt :=
    .effect ⟨"bump", guard, [a], result, .read, m, 4, [⟨.modify, bumpReg, 4⟩]⟩
  if (← below src 2) = 0 then
    let g ← expr src d.pool fuel .i1 1
    return (call g none, d)
  else
    let (t, d) := d.fresh .i32
    return (call (.const (.ofBool true)) (some t), d)

/-- A statement, and what has been declared behind it. -/
def stmt (c : Config) (fuel : Nat) (d : Draft) : Gen σ (Stmt × Draft) := do
  let depth := c.depth.toNatClampNeg
  let r ← below src 20
  if r < 8 then
    let ty ← pick src types
    let e ← expr src d.pool fuel ty depth
    let (t, d) := d.fresh ty
    return (.assign t e, d)
  else if r < 11 then
    let ty ← pick src types
    let off ← offset src ty
    return (.put off (← expr src d.pool fuel ty depth), d)
  else if r < 13 then
    let w ← anyWindow src
    let ix ← index src d.pool fuel
    let b ← bias src
    return (.putIx w ix b (← expr src d.pool fuel w.elem depth), d)
  else if r < 15 then
    let ty ← pick src types.tail
    let a ← address src d.pool fuel
    return (.store a (← expr src d.pool fuel ty depth), d)
  else if r < 17 then
    effect src fuel d
  else if r < 19 then
    let g ← expr src d.pool fuel .i1 depth
    let dst := c.addr + 0x10 + .ofNat (← below src 8) * 0x10
    return (.exit g .boring ⟨.u64, dst⟩, d)
  else if (← below src 2) = 0 then
    return (.fence, d)
  else
    let a := c.addr + .ofNat (← below src 64)
    return (.mark a (1 + .ofNat (← below src 15)), d)

/-- A sequence of `n` statements, and what has been declared behind them. -/
def stmts (c : Config) (fuel : Nat) : Nat → Draft → Gen σ (List Stmt × Draft)
  | 0, d => return ([], d)
  | n + 1, d => do
    let (s, d) ← stmt src c fuel d
    let (ss, d) ← stmts c fuel n d
    return (s :: ss, d)

/-- A block. It jumps back to its own address, or on, or returns; or its last statement is an exit
to its own address. -/
def block (c : Config) (fuel : Nat) : Gen σ Block := do
  let n ← below src c.stmts.toNatClampNeg
  let (ss, d) ← stmts src c fuel (n + 1) ⟨#[], []⟩
  let ss := .mark c.addr 4 :: ss
  let on : Expr := .const ⟨.u64, c.addr + 0x100⟩
  match ← below src 4 with
  | 0 => return ⟨d.temps, ss, .const ⟨.u64, c.addr⟩, .boring⟩
  | 1 => do
    let g ← expr src d.pool fuel .i1 c.depth.toNatClampNeg
    return ⟨d.temps, ss ++ [.exit g .boring ⟨.u64, c.addr⟩], on, .boring⟩
  | 2 => return ⟨d.temps, ss, ← address src d.pool fuel, .ret⟩
  | _ => return ⟨d.temps, ss, on, .boring⟩

end

end Sample
end Straightline
