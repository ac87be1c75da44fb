/-!
# Random sources

A `Source` answers two questions from a state of its own: a number up to a bound, and a word. The
block generator asks nothing else, so what is said of its blocks holds for every source. `SplitMix`
is one whose stream is fixed by a 64-bit seed.
-/

namespace Straightline

/-- Where random numbers come from. -/
structure Source (σ : Type) where
  /-- A number that is at most `n`. -/
  upTo : (n : Nat) → σ → Fin (n + 1) × σ
  /-- Any word. -/
  word : σ → UInt64 × σ

namespace SplitMix

/-- The next word of the stream and the state behind it. -/
def next (s : UInt64) : UInt64 × UInt64 :=
  let s := s + 0x9e3779b97f4a7c15
  let z := (s ^^^ s >>> 30) * 0xbf58476d1ce4e5b9
  let z := (z ^^^ z >>> 27) * 0x94d049bb133111eb
  (z ^^^ z >>> 31, s)

/-- The top 31 bits of the next word. -/
def next31 (s : UInt64) : Nat × UInt64 :=
  let (z, s) := next s
  ((z >>> 33).toNat, s)

/-- Draws 31-bit numbers until one is at most `max`, but no more than `n` beyond the first. -/
def drawUpTo (max : Nat) : Nat → UInt64 → Nat × UInt64
  | 0, s => next31 s
  | n + 1, s =>
    let (v, s) := next31 s
    if v ≤ max then (v, s) else drawUpTo max n s

/-- The most draws that are made for one number. Less than half of all draws are rejected, so this
many in a row are not. -/
def maxDraws : Nat := 1000

/-- A number at most `n`, each equally likely: a remainder of a 31-bit number, where the numbers
beyond the last full round are rejected. -/
def upTo (n : Nat) (s : UInt64) : Fin (n + 1) × UInt64 :=
  if (n + 1) &&& n = 0 then
    let (v, s) := next31 s
    (.ofNat (n + 1) v, s)
  else
    let (v, s) := drawUpTo (0x7fffffff - 0x80000000 % (n + 1)) maxDraws s
    (.ofNat (n + 1) v, s)

/-- The stream as a source. -/
def source : Source UInt64 := ⟨upTo, next⟩

end SplitMix
end Straightline
