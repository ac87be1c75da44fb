/-!
# Jump kinds and touches

How a block is left, and how a helper touches memory or registers. Both are stored as one byte;
the codes past the named ones are representable, print as `INVALID` and are refused by the checker.
-/

namespace Straightline

/-- Why control leaves a block. `other i` is the `i`-th code past the named ones. -/
inductive JumpKind where
  | boring | call | ret | clientReq | yield | emWarn | noDecode | mapFail | tInval | noRedir
  | sigTRAP | sigSEGV | syscall
  | other (i : Fin 243)
deriving DecidableEq, Inhabited

namespace JumpKind

/-- The named kinds, in the order of their codes. -/
def named : List JumpKind :=
  [boring, call, ret, clientReq, yield, emWarn, noDecode, mapFail, tInval, noRedir, sigTRAP,
    sigSEGV, syscall]

def name : JumpKind → String
  | boring => "Boring"
  | call => "Call"
  | ret => "Return"
  | clientReq => "ClientReq"
  | yield => "Yield"
  | emWarn => "EmWarn"
  | noDecode => "NoDecode"
  | mapFail => "MapFail"
  | tInval => "TInval"
  | noRedir => "NoRedir"
  | sigTRAP => "SigTRAP"
  | sigSEGV => "SigSEGV"
  | syscall => "Syscall"
  | other _ => "INVALID"

/-- The kind spelled `n`. -/
def ofName? (n : String) : Option JumpKind := named.find? (·.name == n)

/-- The byte a kind is stored as. -/
def code : JumpKind → Nat
  | boring => 0
  | call => 1
  | ret => 2
  | clientReq => 3
  | yield => 4
  | emWarn => 5
  | noDecode => 6
  | mapFail => 7
  | tInval => 8
  | noRedir => 9
  | sigTRAP => 10
  | sigSEGV => 11
  | syscall => 12
  | other i => 13 + i

/-- The kind stored as the byte `n`. -/
def ofCode (n : UInt8) : JumpKind :=
  named[n.toNat]?.getD (other (.ofNat 243 (n.toNat - 13)))

def isValid : JumpKind → Bool
  | other _ => false
  | _ => true

end JumpKind

/-- How a helper touches a place. `other i` is the `i`-th code past the named ones. -/
inductive Touch where
  | none | read | write | modify
  | other (i : Fin 252)
deriving DecidableEq, Inhabited

namespace Touch

/-- The named touches, in the order of their codes. -/
def named : List Touch := [none, read, write, modify]

def name : Touch → String
  | none => "None"
  | read => "Read"
  | write => "Write"
  | modify => "Modify"
  | other _ => "INVALID"

/-- The touch spelled `n`. -/
def ofName? (n : String) : Option Touch := named.find? (·.name == n)

/-- The byte a touch is stored as. -/
def code : Touch → Nat
  | none => 0
  | read => 1
  | write => 2
  | modify => 3
  | other i => 4 + i

/-- The touch stored as the byte `n`. -/
def ofCode (n : UInt8) : Touch :=
  named[n.toNat]?.getD (other (.ofNat 252 (n.toNat - 4)))

def isValid : Touch → Bool
  | other _ => false
  | _ => true

/-- Whether the place may hold a new value afterwards. -/
def writes : Touch → Bool
  | write | modify => true
  | _ => false

end Touch
end Straightline
