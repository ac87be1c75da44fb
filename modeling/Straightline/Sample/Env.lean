import Straightline.Machine.Run
import Straightline.Pass.Specialize

/-!
# Sample helpers

The helpers that generated blocks call: `mix32`, which is pure, and `bump`, which adds a word of
memory and its argument to one register and returns the register's old value. `mix32` with a zero
second argument has a cheaper form.
-/

namespace Straightline
namespace Sample

/-- The size of the register file that the blocks use. -/
def regBytes : Nat := 256

/-- The register that `bump` modifies. -/
def bumpReg : Int64 := 60

/-- The factor of `mix32`. -/
def mixFactor : UInt32 := 0x9e3779b1

def mix32 (a b : UInt32) : UInt32 := a * mixFactor ^^^ b

/-- The helper `mix32`; it needs two arguments. -/
def mixHelper : Helper
  | a :: b :: _ => .ok (mix32 a.toUInt32 b.toUInt32).toUInt64
  | _ => .error .crash

/-- The helper `bump`; the register is read before the argument is asked for. -/
def bumpHelper : EffectHelper := fun s args mem => do
  let old ← s.reg32 bumpReg
  match args with
  | [] => .error .crash
  | a :: _ => do
    let s ← s.setReg32 bumpReg (old + s.load32 mem + a.toUInt32)
    .ok (old.toUInt64, s)

/-- The helpers by name. -/
def env : Env where
  helper
    | "mix32" => some mixHelper
    | _ => none
  effect
    | "bump" => some bumpHelper
    | _ => none

/-- The cheaper form of `mix32` with a zero second argument. -/
def specializer : Specializer
  | "mix32", [a, .const c] =>
    if c.bits = 0 then
      some (.binop (.arith .mul .w32) a (.const ⟨.u32, mixFactor.toUInt64⟩))
    else none
  | _, _ => none

end Sample
end Straightline
