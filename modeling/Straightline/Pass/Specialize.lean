import Straightline.Pass.Flat

/-!
# Specializing helper calls

A specializer knows, for some calls of pure helpers, a cheaper expression of the same value. Where
it offers one of the right type, the expression takes the place of the call, and the block is made
flat again.
-/

namespace Straightline

/-- Offers an expression for the call of a helper with the given arguments. -/
abbrev Specializer := String → List Expr → Option Expr

namespace Specialize

/-- The replacement of a statement, if it has one. -/
def replacement? (sp : Specializer) (temps : Array Ty) : Stmt → Except Fault (Option Stmt)
  | .assign dst (.call callee ty args) =>
    match sp callee args with
    | none => .ok none
    | some x => do
      let xty ← x.typeIn temps
      .ok (if xty = ty then some (.assign dst x) else none)
  | _ => .ok none

end Specialize

/-- The block with helper calls specialized; it is made flat if there was one to specialize. -/
def Block.specialize (b : Block) (sp : Specializer) : Except Fault Block := do
  let rs ← b.stmts.mapM (Specialize.replacement? sp b.temps)
  if rs.any Option.isSome then
    Block.flatten { b with stmts := (rs.zip b.stmts).map fun r => r.1.getD r.2 }
  else .ok b

end Straightline
