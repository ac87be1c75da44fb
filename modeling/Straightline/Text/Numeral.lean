/-!
# Numerals

Unsigned numbers are read in the base that their start announces: `0x`, `0o` and `0b`, with a digit
behind them, mean sixteen, eight and two, any other leading `0` means eight, and all else ten. An
underscore may stand between two digits and behind the announcement of the base. Signed numbers are
read in decimal only, and without underscores. Numbers are written in decimal, or in hexadecimal
behind `0x`.
-/

namespace Straightline
namespace Numeral

/-- Why a text is no numeral for a machine word. -/
inductive Flaw where
  | malformed
  | outOfRange
deriving DecidableEq

def Flaw.text : Flaw → String
  | malformed => "invalid syntax"
  | outOfRange => "value out of range"

/-- The value of a digit; letters of either case go on behind nine. -/
def digit? (c : Char) : Option Nat :=
  if '0' ≤ c ∧ c ≤ '9' then some (c.toNat - '0'.toNat)
  else if 'a' ≤ c ∧ c ≤ 'z' then some (c.toNat - 'a'.toNat + 10)
  else if 'A' ≤ c ∧ c ≤ 'Z' then some (c.toNat - 'A'.toNat + 10)
  else none

/-- The number that the digit `c` continues `n` to, in the given base. -/
def push (base n : Nat) (c : Char) : Except Flaw Nat :=
  match digit? c with
  | none => .error .malformed
  | some d =>
    if base ≤ d then .error .malformed
    else if UInt64.size ≤ n * base + d then .error .outOfRange
    else .ok (n * base + d)

/-- The number that the digits `cs` continue `n` to, in the given base. Underscores count for
nothing. The first character that is no digit, or the first digit that takes the number past the
word, decides the flaw. -/
def value (base : Nat) : Nat → List Char → Except Flaw Nat
  | n, [] => .ok n
  | n, c :: cs =>
    if c = '_' then value base n cs
    else do
      let m ← push base n c
      value base m cs

/-- Whether every underscore stands behind a digit and before one; `behind` says that a digit, or
the announcement of a base, comes before `cs`. -/
def separated (behind : Bool) : List Char → Bool
  | [] => behind
  | c :: cs => if c = '_' then behind && separated false cs else separated true cs

/-- The base that the start of a text announces, whether it announces one, and the digits. -/
def split : List Char → Nat × Bool × List Char
  | '0' :: c :: d :: cs =>
    if c = 'x' ∨ c = 'X' then (16, true, d :: cs)
    else if c = 'o' ∨ c = 'O' then (8, true, d :: cs)
    else if c = 'b' ∨ c = 'B' then (2, true, d :: cs)
    else (8, true, c :: d :: cs)
  | '0' :: cs => (8, true, cs)
  | cs => (10, false, cs)

/-- The word that a text denotes. -/
def read (s : String) : Except Flaw UInt64 := do
  let (base, behind, digits) := split s.toList
  let n ← value base 0 digits
  if separated behind digits then .ok (.ofNat n) else .error .malformed

/-- The digits of a signed text, and whether a minus sign precedes them. -/
def splitSign : List Char → Bool × List Char
  | '-' :: cs => (true, cs)
  | '+' :: cs => (false, cs)
  | cs => (false, cs)

/-- The signed word that a text denotes: decimal digits, with a sign in front or none. -/
def readInt (s : String) : Except Flaw Int64 :=
  let (negative, digits) := splitSign s.toList
  if digits.isEmpty then .error .malformed
  else do
    let n ← digits.foldlM (push 10) 0
    if n < 0x8000000000000000 then .ok (if negative then -.ofNat n else .ofNat n)
    else if negative ∧ n = 0x8000000000000000 then .ok Int64.minValue
    else .error .outOfRange

/-- The number that decimal digits denote. -/
def decimalValue (cs : List Char) : Nat := cs.foldl (fun n c => n * 10 + (c.toNat - '0'.toNat)) 0

/-- Hexadecimal, in lower case and without leading zeros. -/
def hex (v : UInt64) : String := "0x" ++ String.ofList (Nat.toDigits 16 v.toNat)

/-- Decimal, with a minus sign if negative. -/
def decimal (n : Int) : String := toString n

end Numeral
end Straightline
