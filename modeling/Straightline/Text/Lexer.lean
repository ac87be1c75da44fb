import Straightline.Block
import Straightline.Text.Numeral
import Straightline.Text.Place
import Straightline.Text.Quoted

/-!
# Words and marks of the text

Text is read as bytes. A reader takes the rest of the input and returns what it read with the rest
behind it, or stops: a `Stop` holds an error and the rest of the input at the place it is about, so
that its position follows from the length of that rest.

Readers skip blanks in front of what they look for. Words are runs of ASCII letters, digits and
underscores.
-/

namespace Straightline

/-- The rest of a text. -/
abbrev Input := List UInt8

/-- What is wrong with a text. -/
inductive SyntaxError where
  | markExpected (c : Char)
  | keywordExpected (kw : String)
  | tempRange (digits : String)
  | typeExpected (got : String)
  | numberExpected (got : String)
  | jumpKind (got : String)
  | tagExpected
  | unknownTag (got : String)
  | constWidth (v : UInt64) (tag : Tag)
  | exprExpected
  | unknownExpr (got : String)
  | calleeExpected
  | argCount (want got : Nat)
  | shapeExpected (got : String)
  | elementType (got : String)
  | stmtExpected
  | unknownStmt (got : String)
  | guardExpected
  | touchExpected (got : String)
  | unknownAttribute (got : String)
  | tempOrder (got : Temp) (want : Nat)
  | trailingText
  | within (p : Place) (e : SyntaxError)

namespace SyntaxError

def message : SyntaxError → String
  | markExpected c => "'" ++ c.toString ++ "' expected"
  | keywordExpected kw => kw ++ " expected"
  | tempRange digits =>
    "temp: strconv.ParseInt: parsing " ++ Quoted.text digits ++ ": " ++ Numeral.Flaw.outOfRange.text
  | typeExpected got => "type expected, got " ++ Quoted.text got
  | numberExpected got => "number expected, got " ++ Quoted.text got
  | jumpKind got => "unknown jump kind: " ++ Quoted.text got
  | tagExpected => "constant tag expected"
  | unknownTag got => "unknown constant tag: " ++ Quoted.text got
  | constWidth v tag => "constant " ++ Numeral.hex v ++ " does not fit " ++ tag.name
  | exprExpected => "expression expected"
  | unknownExpr got => "unknown expression: " ++ Quoted.text got
  | calleeExpected => "callee expected"
  | argCount want got => s!"{want} args expected, got {got}"
  | shapeExpected got => "array shape expected, got " ++ Quoted.text got
  | elementType got => "unknown element type: " ++ Quoted.text got
  | stmtExpected => "statement expected"
  | unknownStmt got => "unknown statement: " ++ Quoted.text got
  | guardExpected => "guard expected"
  | touchExpected got => "effect kind expected, got " ++ Quoted.text got
  | unknownAttribute got => "unknown effect attribute: " ++ Quoted.text got
  | tempOrder got want => s!"temps must be declared in order: got t{got.toInt}, want t{want}"
  | trailingText => "unexpected text after block"
  | within p e => p.text ++ ": " ++ e.message

end SyntaxError

/-- An error, and the rest of the input at the place where it is. -/
structure Stop where
  rest : Input
  error : SyntaxError

/-- Names the construct that a reading is part of. -/
def within {α : Type} (p : Place) : Except Stop α → Except Stop α
  | .ok r => .ok r
  | .error e => .error { e with error := .within p e.error }

namespace Lexer

/-- Blanks: space, tab, carriage return and line feed. -/
def isBlank (b : UInt8) : Bool := b == 32 || b == 9 || b == 13 || b == 10

/-- The bytes of words. -/
def isWordByte (b : UInt8) : Bool :=
  b == 95 || (65 ≤ b && b ≤ 90) || (97 ≤ b && b ≤ 122) || (48 ≤ b && b ≤ 57)

/-- The input behind its leading blanks. -/
def skip (s : Input) : Input := s.dropWhile isBlank

/-- ASCII bytes as text. -/
def ascii (bs : List UInt8) : String := String.ofList (bs.map fun b => Char.ofNat b.toNat)

/-- The next word, which is empty if there is none, and the input behind it. -/
def word (s : Input) : String × Input :=
  (ascii ((skip s).takeWhile isWordByte), (skip s).dropWhile isWordByte)

/-- The input behind the mark `c`, if it starts with it. -/
def eat (c : Char) : Input → Option Input
  | [] => none
  | b :: s => if b = c.toUInt8 then some s else none

/-- The mark `c`, behind blanks. -/
def expect (c : Char) (s : Input) : Except Stop Input :=
  match eat c (skip s) with
  | some r => .ok r
  | none => .error ⟨skip s, .markExpected c⟩

/-- The mark `c`, with no blanks before it. -/
def expectHere (c : Char) (s : Input) : Except Stop Input :=
  match eat c s with
  | some r => .ok r
  | none => .error ⟨s, .markExpected c⟩

/-- The word `kw`. -/
def keyword (kw : String) (s : Input) : Except Stop Input :=
  let (w, r) := word s
  if w = kw then .ok r else .error ⟨skip s, .keywordExpected kw⟩

def isDigit (c : Char) : Bool := '0' ≤ c && c ≤ '9'

/-- The digits of a word that names a temporary: a `t` and at least one digit. -/
def tempDigits? (w : String) : Option (List Char) :=
  match w.toList with
  | 't' :: c :: cs => if (c :: cs).all isDigit then some (c :: cs) else none
  | _ => none

/-- The temporary with the given digits; `s` is the input where its word stands. -/
def tempOf (digits : List Char) (s : Input) : Except Stop Temp :=
  let n := Numeral.decimalValue digits
  if n < 0x80000000 then .ok (.ofNat n)
  else .error ⟨skip s, .tempRange (String.ofList digits)⟩

/-- A type name. -/
def type (s : Input) : Except Stop (Ty × Input) :=
  let (w, r) := word s
  match Ty.ofName? w with
  | some t => .ok (t, r)
  | none => .error ⟨skip s, .typeExpected w⟩

/-- A number without sign. -/
def unsigned (s : Input) : Except Stop (UInt64 × Input) :=
  let (w, r) := word s
  match Numeral.read w with
  | .ok v => .ok (v, r)
  | .error _ => .error ⟨skip s, .numberExpected w⟩

/-- A number that a minus sign may precede, as a word that wraps. -/
def number (s : Input) : Except Stop (Int64 × Input) :=
  let (negative, r) :=
    match eat '-' (skip s) with
    | some r => (true, r)
    | none => (false, s)
  let (w, r) := word r
  match Numeral.read w with
  | .ok v => .ok (if negative then -v.toInt64 else v.toInt64, r)
  | .error _ => .error ⟨skip s, .numberExpected w⟩

/-- A number between parentheses. -/
def parenthesized (s : Input) : Except Stop (Int64 × Input) := do
  let s ← expect '(' s
  let (v, s) ← number s
  let s ← expect ')' s
  .ok (v, s)

/-- A jump kind between braces. -/
def jumpKind (s : Input) : Except Stop (JumpKind × Input) := do
  let r ← expect '\x7b' s
  let (w, r) := word r
  match JumpKind.ofName? w with
  | none => .error ⟨skip s, .jumpKind w⟩
  | some k => do
    let r ← expect '\x7d' r
    .ok (k, r)

/-- A constant: a number, a colon behind it and a tag. -/
def constant (s : Input) : Except Stop (Const × Input) := do
  let (v, r) ← unsigned s
  match eat ':' r with
  | none => .error ⟨r, .tagExpected⟩
  | some r =>
    let (w, r) := word r
    match Tag.ofName? w with
    | none => .error ⟨r, .unknownTag w⟩
    | some tag =>
      let c : Const := ⟨tag, v⟩
      if c.fits then .ok (c, r) else .error ⟨skip s, .constWidth v tag⟩

/-- A touch and the colon behind it. -/
def touch (s : Input) : Except Stop (Touch × Input) :=
  let (w, r) := word s
  match Touch.ofName? w with
  | none | some .none => .error ⟨skip s, .touchExpected w⟩
  | some t => do
    let r ← expectHere ':' r
    .ok (t, r)

end Lexer
end Straightline
