import Straightline.Text.Printable

/-!
# Quoted text

Messages show a text that was given from outside between double quotes. Printable characters stand
for themselves. The quote, the backslash and the controls that have a letter are written as a
backslash and one character; any other character is written by its code point, in hexadecimal digits
of a width that grows with it.
-/

namespace Straightline
namespace Quoted

/-- The letter that stands for a character behind a backslash. -/
def letter? (c : Char) : Option Char :=
  match c.toNat with
  | 7 => some 'a'
  | 8 => some 'b'
  | 9 => some 't'
  | 10 => some 'n'
  | 11 => some 'v'
  | 12 => some 'f'
  | 13 => some 'r'
  | 34 => some c
  | 92 => some c
  | _ => none

/-- The last `k` hexadecimal digits of `n`, the most significant first. -/
def hexDigits : Nat → Nat → List Char
  | 0, _ => []
  | k + 1, n => hexDigits k (n / 16) ++ [Nat.digitChar (n % 16)]

/-- A character by its code point. -/
def byCodePoint (c : Char) : List Char :=
  if c.toNat < 0x80 then 'x' :: hexDigits 2 c.toNat
  else if c.toNat < 0x10000 then 'u' :: hexDigits 4 c.toNat
  else 'U' :: hexDigits 8 c.toNat

/-- A character inside quotes. -/
def encodeChar (c : Char) : List Char :=
  match letter? c with
  | some l => ['\\', l]
  | none => if isPrintable c then [c] else '\\' :: byCodePoint c

/-- The text between double quotes. -/
def text (s : String) : String := "\"" ++ String.ofList (s.toList.flatMap encodeChar) ++ "\""

end Quoted
end Straightline
