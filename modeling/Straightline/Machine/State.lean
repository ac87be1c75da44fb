import Std.Data.ExtTreeMap
import Straightline.Fault

/-!
# Machine states

A state is a file of register bytes and a sparse memory of bytes. Both are little endian. A memory
byte that was never stored reads as zero; which bytes are present is part of the state.

A register access has to lie in the file. Offsets are words, so the end of an access can wrap: such
an access is neither inside nor past the end, and it crashes.
-/

namespace Straightline

/-- Registers and memory. -/
structure State where
  regs : Array UInt8
  mem : Std.ExtTreeMap UInt64 UInt8

/-! ## Little-endian bytes -/

/-- The `n` low bytes of a word, lowest first. -/
def toBytes (v : UInt64) : Nat → List UInt8
  | 0 => []
  | n + 1 => v.toUInt8 :: toBytes (v >>> 8) n

/-- The word with the given bytes, lowest first. -/
def ofBytes : List UInt8 → UInt64
  | [] => 0
  | b :: bs => b.toUInt64 ||| ofBytes bs <<< 8

/-- The bytes of an array from `i` on replaced by `bs`, as far as the array reaches. -/
def overwrite (a : Array UInt8) (i : Nat) : List UInt8 → Array UInt8
  | [] => a
  | b :: bs => overwrite (a.setIfInBounds i b) (i + 1) bs

/-! ## Registers -/

/-- Where an access to the register file lies. -/
inductive Placement where
  | inside (start : Nat)
  | outside
  | wrapped

/-- The placement of an access of `n` bytes at `off` in a file of `len` bytes. -/
def placement (off : Int64) (n len : Nat) : Placement :=
  let stop := off + Int64.ofNat n
  if off < 0 ∨ Int64.ofNat len < stop then .outside
  else if stop < 0 then .wrapped
  else .inside off.toNatClampNeg

namespace State

/-- A state of `n` zero register bytes and no memory. -/
def zero (n : Nat) : State := ⟨.replicate n 0, ∅⟩

/-- The register value of type `t` at `off`. -/
def readReg (s : State) (off : Int64) (t : Ty) : Except Fault UInt64 :=
  match placement off t.bytes s.regs.size with
  | .inside i => .ok (ofBytes (s.regs.extract i (i + t.bytes)).toList &&& t.mask)
  | .outside => .error (.atExpr (.readOutside s.regs.size) (.get off t))
  | .wrapped => .error .crash

/-- Stores `v`, cut to type `t`, in the registers at `off`. -/
def writeReg (s : State) (off : Int64) (t : Ty) (v : UInt64) : Except Fault State :=
  match placement off t.bytes s.regs.size with
  | .inside i => .ok { s with regs := overwrite s.regs i (toBytes (v &&& t.mask) t.bytes) }
  | .outside => .error (.atStmt (.writeOutside s.regs.size) (.put off .missing))
  | .wrapped => .error .crash

/-! ## Memory -/

/-- The byte at an address. -/
def byteAt (s : State) (a : UInt64) : UInt8 := s.mem[a]?.getD 0

/-- The `n` bytes from address `a` on; addresses wrap. -/
def bytesAt (s : State) (a : UInt64) : Nat → List UInt8
  | 0 => []
  | n + 1 => s.byteAt a :: s.bytesAt (a + 1) n

/-- Stores bytes from address `a` on; addresses wrap. -/
def storeBytes (s : State) (a : UInt64) : List UInt8 → State
  | [] => s
  | b :: bs => { s with mem := s.mem.insert a b }.storeBytes (a + 1) bs

/-- The memory value of type `t` at address `a`. -/
def load (s : State) (a : UInt64) (t : Ty) : UInt64 :=
  ofBytes (s.bytesAt a t.bytes) &&& t.mask

/-- Stores the bytes of a value of type `t` at address `a`. -/
def store (s : State) (a : UInt64) (t : Ty) (v : UInt64) : State :=
  s.storeBytes a (toBytes v t.bytes)

/-! ## 32-bit access, for helpers -/

def reg32 (s : State) (off : Int64) : Except Fault UInt32 :=
  return (← s.readReg off .i32).toUInt32

def setReg32 (s : State) (off : Int64) (v : UInt32) : Except Fault State :=
  s.writeReg off .i32 v.toUInt64

def load32 (s : State) (a : UInt64) : UInt32 := (s.load a .i32).toUInt32

def store32 (s : State) (a : UInt64) (v : UInt32) : State := s.store a .i32 v.toUInt64

end State
end Straightline
