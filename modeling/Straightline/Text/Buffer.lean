import Straightline.Text.Reader

/-!
# Reading at an index

The readers of a text once more, now with the text in a buffer and the place they have come to as an
index into it. An index or a slice beyond the end of what it is taken of is a crash: so is one of
the buffer, of a word, or of a list of arguments. The grammar, the errors and the bounds on the
number of steps are those of `Reader`, where the rest of a text is a list.
-/

namespace Straightline

open Lexer

/-- Why a reading has no result: it went beyond an end, or refused the text. -/
inductive Halt (ε : Type) where
  | crash
  | stop (e : ε)

/-- An error, and the index that it is about. -/
structure Refusal where
  index : Nat
  error : SyntaxError

/-- A reading in a buffer. -/
abbrev Scan (α : Type) := Except (Halt Refusal) α

namespace Scan

/-- Refuses the text at index `i`. -/
def refuse {α : Type} (i : Nat) (e : SyntaxError) : Scan α := .error (.stop ⟨i, e⟩)

/-- Names the construct that a reading is part of. -/
def inside {α : Type} (p : Place) : Scan α → Scan α
  | .error (.stop r) => .error (.stop { r with error := .within p r.error })
  | x => x

/-- Refuses at index `i` what a reading refuses elsewhere. -/
def refusedAt {α : Type} (i : Nat) : Scan α → Scan α
  | .error (.stop r) => .error (.stop { r with index := i })
  | x => x

end Scan

/-! ## Checked accesses -/

section Checked

variable {α ε : Type}

/-- The entry with index `i`. -/
def fetch (xs : Array α) (i : Nat) : Except (Halt ε) α :=
  match xs[i]? with
  | some x => .ok x
  | none => .error .crash

/-- The entries from index `i` up to index `j`. -/
def slice (xs : Array α) (i j : Nat) : Except (Halt ε) (List α) :=
  if i ≤ j ∧ j ≤ xs.size then .ok (xs.extract i j).toList else .error .crash

/-- The first index from `i` on whose entry does not satisfy `p`. -/
def passWhile (p : α → Bool) (xs : Array α) (i : Nat) : Except (Halt ε) Nat :=
  if _ : i < xs.size then do
    let x ← fetch xs i
    if p x then passWhile p xs (i + 1) else .ok i
  else
    .ok i
termination_by xs.size - i

end Checked

/-- The characters of a word. -/
def chars (w : String) : Array Char := w.toList.toArray

/-- The bytes of a text. -/
abbrev Buffer := Array UInt8

namespace Buffer

open Scan (refuse inside refusedAt)

/-! ## Words and marks -/

/-- The index behind the blanks from index `i` on. -/
def skip {ε : Type} (b : Buffer) (i : Nat) : Except (Halt ε) Nat := passWhile isBlank b i

/-- The next word, which is empty if there is none, and the index behind it. -/
def word (b : Buffer) (i : Nat) : Scan (String × Nat) := do
  let i ← b.skip i
  let j ← passWhile isWordByte b i
  let bytes ← slice b i j
  .ok (ascii bytes, j)

/-- The byte with index `i`, zero at the end. -/
def peek (b : Buffer) (i : Nat) : Scan UInt8 := if i < b.size then fetch b i else .ok 0

/-- The index behind the mark `c`, if it stands at index `i`. -/
def eat (b : Buffer) (c : Char) (i : Nat) : Scan (Option Nat) := do
  let x ← b.peek i
  .ok (if x = c.toUInt8 then some (i + 1) else none)

/-- The mark `c`, behind blanks. -/
def expect (b : Buffer) (c : Char) (i : Nat) : Scan Nat := do
  let i ← b.skip i
  if i = b.size then
    refuse i (.markExpected c)
  else do
    let x ← fetch b i
    if x = c.toUInt8 then .ok (i + 1) else refuse i (.markExpected c)

/-- The mark `c`, with no blanks before it. -/
def expectHere (b : Buffer) (c : Char) (i : Nat) : Scan Nat := do
  match ← b.eat c i with
  | some i => .ok i
  | none => refuse i (.markExpected c)

/-- Refuses the text at the first index from `i` on that has no blank. -/
def refuseBehind {α : Type} (b : Buffer) (i : Nat) (e : SyntaxError) : Scan α := do
  let i ← b.skip i
  refuse i e

/-- The word `kw`. -/
def keyword (b : Buffer) (kw : String) (i : Nat) : Scan Nat := do
  let (w, j) ← b.word i
  if w = kw then .ok j else b.refuseBehind i (.keywordExpected kw)

/-- Whether a word names a temporary: a `t` and at least one digit. -/
def isTemp (w : String) : Scan Bool :=
  if (chars w).size < 2 then
    .ok false
  else do
    let c ← fetch (chars w) 0
    if c = 't' then do
      let cs ← slice (chars w) 1 (chars w).size
      .ok (cs.all isDigit)
    else
      .ok false

/-- A temporary. -/
def temp (b : Buffer) (i : Nat) : Scan (Temp × Nat) := do
  let (w, j) ← b.word i
  if ← isTemp w then do
    let digits ← slice (chars w) 1 (chars w).size
    let n := Numeral.decimalValue digits
    if n < 0x80000000 then .ok (.ofNat n, j)
    else b.refuseBehind i (.tempRange (String.ofList digits))
  else
    b.refuseBehind i (.keywordExpected "temp")

/-- A type name. -/
def type (b : Buffer) (i : Nat) : Scan (Ty × Nat) := do
  let (w, j) ← b.word i
  match Ty.ofName? w with
  | some t => .ok (t, j)
  | none => b.refuseBehind i (.typeExpected w)

/-- A number without sign. -/
def unsigned (b : Buffer) (i : Nat) : Scan (UInt64 × Nat) := do
  let (w, j) ← b.word i
  match Numeral.read w with
  | .ok v => .ok (v, j)
  | .error _ => b.refuseBehind i (.numberExpected w)

/-- A number that a minus sign may precede, as a word that wraps. -/
def number (b : Buffer) (i : Nat) : Scan (Int64 × Nat) := do
  let j ← b.skip i
  let sign ← b.eat '-' j
  let (w, j) ← b.word (sign.getD j)
  match Numeral.read w with
  | .ok v => .ok (if sign.isSome then -v.toInt64 else v.toInt64, j)
  | .error _ => b.refuseBehind i (.numberExpected w)

/-- A number between parentheses. -/
def parenthesized (b : Buffer) (i : Nat) : Scan (Int64 × Nat) := do
  let i ← b.expect '(' i
  let (v, i) ← b.number i
  let i ← b.expect ')' i
  .ok (v, i)

/-- A jump kind between braces. -/
def jumpKind (b : Buffer) (i : Nat) : Scan (JumpKind × Nat) := do
  let j ← b.expect '\x7b' i
  let (w, j) ← b.word j
  match JumpKind.ofName? w with
  | none => b.refuseBehind i (.jumpKind w)
  | some k => do
    let j ← b.expect '\x7d' j
    .ok (k, j)

/-- A constant: a number, a colon behind it and a tag. -/
def constant (b : Buffer) (i : Nat) : Scan (Const × Nat) := do
  let (v, j) ← b.unsigned i
  match ← b.eat ':' j with
  | none => refuse j .tagExpected
  | some j => do
    let (w, j) ← b.word j
    match Tag.ofName? w with
    | none => refuse j (.unknownTag w)
    | some tag =>
      let c : Const := ⟨tag, v⟩
      if c.fits then .ok (c, j) else b.refuseBehind i (.constWidth v tag)

/-- A touch and the colon behind it. -/
def touch (b : Buffer) (i : Nat) : Scan (Touch × Nat) := do
  let (w, j) ← b.word i
  match Touch.ofName? w with
  | none | some .none => b.refuseBehind i (.touchExpected w)
  | some t => do
    let j ← b.expectHere ':' j
    .ok (t, j)

/-! ## Expressions -/

section Operands

variable (b : Buffer) (read : Nat → Scan (Expr × Nat))

/-- The arguments from number `k` on, up to the closing parenthesis, in at most `n` bytes. -/
def argsFrom : Nat → Nat → Nat → Scan (List Expr × Nat)
  | 0, k, i => refuse i (.within (.arg k) .exprExpected)
  | n + 1, k, i => do
    let (x, i) ← inside (.arg k) (read i)
    let i ← b.skip i
    match ← b.eat ',' i with
    | some i => do
      let (xs, i) ← argsFrom n (k + 1) i
      .ok (x :: xs, i)
    | none => do
      let i ← b.expect ')' i
      .ok ([x], i)

/-- An argument list between parentheses. -/
def argList (i : Nat) : Scan (List Expr × Nat) := do
  let i ← b.expect '(' i
  let j ← b.skip i
  match ← b.eat ')' j with
  | some i => .ok ([], i)
  | none => argsFrom b read (b.size - i) 0 i

/-- An argument list of length `n`. -/
def args (n : Nat) (i : Nat) : Scan (List Expr × Nat) := do
  let (xs, j) ← argList b read i
  if xs.length = n then .ok (xs, j) else refuse i (.argCount n xs.length)

/-- A list of one argument. -/
def oneArg (i : Nat) : Scan (Expr × Nat) := do
  let (xs, i) ← args b read 1 i
  let a ← fetch xs.toArray 0
  .ok (a, i)

/-- The count in front of an array shape. -/
def count (digits : List Char) : Scan UInt64 := do
  let (n, _) ← unsigned (digits.map Char.toUInt8).toArray 0
  .ok n

/-- A window, for instance `(64:8xF64)`: a base, a count and an element type. -/
def window (i : Nat) : Scan (Window × Nat) := do
  let i ← b.expect '(' i
  let (base, i) ← b.number i
  let i ← b.expect ':' i
  let (w, j) ← b.word i
  let x ← passWhile isDigit (chars w) 0
  if x = 0 ∨ (chars w).size ≤ x + 1 then
    refuse i (.shapeExpected w)
  else do
    let c ← fetch (chars w) x
    if c = 'x' then do
      let digits ← slice (chars w) 0 x
      let n ← refusedAt i (count digits)
      let name ← slice (chars w) (x + 1) (chars w).size
      match Ty.ofName? (String.ofList name) with
      | none => refuse i (.elementType (String.ofList name))
      | some elem => do
        let j ← b.expect ')' j
        .ok (⟨base, elem, n.toInt64⟩, j)
    else
      refuse i (.shapeExpected w)

/-- A window and an index into it, for instance `(64:8xF64)[t1,-1]`. -/
def indexed (i : Nat) : Scan ((Window × Expr × Int64) × Nat) := do
  let (w, i) ← b.window i
  let i ← b.expect '[' i
  let (ix, i) ← inside .index (read i)
  let i ← b.expect ',' i
  let (bias, i) ← b.number i
  let i ← b.expect ']' i
  .ok ((w, ix, bias), i)

/-- An expression that starts with the word `w` and goes on at index `j`; `i` is the index of `w`.
Operands are read by `read`. -/
def exprAt (w : String) (i j : Nat) : Scan (Expr × Nat) :=
  match w with
  | "GET" => do
    let j ← b.expect ':' j
    let (ty, j) ← b.type j
    let (off, j) ← b.parenthesized j
    .ok (.get off ty, j)
  | "GETI" => do
    let ((w, ix, bias), j) ← inside .getIx (indexed b read j)
    .ok (.getIx w ix bias, j)
  | "LD" => do
    let j ← b.expect ':' j
    let (ty, j) ← b.type j
    let (a, j) ← inside .load (oneArg b read j)
    .ok (.load ty a, j)
  | "CALL" => do
    let (callee, j) ← b.word j
    if callee = "" then
      refuse j .calleeExpected
    else do
      let j ← b.expect ':' j
      let (ty, j) ← b.type j
      let (xs, j) ← inside (.call callee) (argList b read j)
      .ok (.call callee ty xs, j)
  | "Select" => do
    let (xs, j) ← inside .select (args b read 3 j)
    let c ← fetch xs.toArray 0
    let z ← fetch xs.toArray 1
    let x ← fetch xs.toArray 2
    .ok (.select c z x, j)
  | _ =>
    match Op.ofName? w with
    | none => refuse i (.unknownExpr w)
    | some op => do
      let (xs, j) ← inside (.op op) (args b read op.arity j)
      if op.arity = 1 then do
        let a ← fetch xs.toArray 0
        .ok (.unop op a, j)
      else do
        let a ← fetch xs.toArray 0
        let a' ← fetch xs.toArray 1
        .ok (.binop op a a', j)

end Operands

/-- An expression in at most `n` bytes. -/
def exprUpTo (b : Buffer) : Nat → Nat → Scan (Expr × Nat)
  | 0, i => b.refuseBehind i .exprExpected
  | n + 1, i => do
    let i ← b.skip i
    let (w, j) ← b.word i
    if w = "" then
      refuse i .exprExpected
    else if ← isTemp w then do
      let (t, j) ← b.temp i
      .ok (.tmp t, j)
    else do
      let c ← fetch (chars w) 0
      if isDigit c && (← b.eat ':' j).isSome then do
        let (c, j) ← b.constant i
        .ok (.const c, j)
      else
        b.exprAt (b.exprUpTo n) w i j

/-- An expression. -/
def expr (b : Buffer) (i : Nat) : Scan (Expr × Nat) := b.exprUpTo (b.size - i) i

/-! ## Statements -/

/-- An equals sign and the expression behind it. -/
def rhs (b : Buffer) (i : Nat) : Scan (Expr × Nat) := do
  let i ← b.expect '=' i
  b.expr i

/-- The attributes of an effect, added to `e`, in at most `n` bytes. -/
def attributes (b : Buffer) : Nat → Effect → Nat → Scan (Effect × Nat)
  | 0, e, i => .ok (e, i)
  | n + 1, e, i => do
    let (w, j) ← b.word i
    match ← if w = "" then .ok none else b.eat '=' j with
    | none => .ok (e, i)
    | some j =>
      match w with
      | "guard" => do
        let (g, j) ← inside .guard (b.expr j)
        b.attributes n { e with guard := g } j
      | "mem" => do
        let (t, j) ← b.touch j
        let (a, j) ← inside .memAddr (b.expr j)
        let j ← b.expectHere ':' j
        let (size, j) ← b.number j
        b.attributes n { e with memTouch := t, memAddr := a, memSize := size } j
      | "fx" => do
        let (t, j) ← b.touch j
        let (off, j) ← b.number j
        let j ← b.expectHere ':' j
        let (size, j) ← b.number j
        b.attributes n { e with state := e.state ++ [⟨t, off, size⟩] } j
      | _ => b.refuseBehind i (.unknownAttribute w)

/-- An effect behind its keyword, with the given result. -/
def effect (b : Buffer) (result : Option Temp) (i : Nat) : Scan (Stmt × Nat) := do
  let (callee, i) ← b.word i
  if callee = "" then
    refuse i .calleeExpected
  else do
    let (xs, i) ← inside (.effect callee) (b.argList b.expr i)
    let bare : Effect := ⟨callee, .missing, xs, result, .none, .missing, 0, []⟩
    let (e, i) ← b.attributes (b.size - i) bare i
    if e.guard.isMissing then refuse i .guardExpected else .ok (.effect e, i)

/-- An assignment or an effect with a result. -/
def definition (b : Buffer) (i : Nat) : Scan (Stmt × Nat) := do
  let (t, i) ← b.temp i
  let i ← b.expect '=' i
  let (w, j) ← b.word i
  if w = "EFFECT" then
    b.effect (some t) j
  else do
    let (x, i) ← inside (.temp t) (b.expr i)
    .ok (.assign t x, i)

/-- An exit behind its keyword. -/
def exit (b : Buffer) (i : Nat) : Scan (Stmt × Nat) := do
  let i ← b.expect '(' i
  let (guard, i) ← inside .guard (b.expr i)
  let i ← b.expect ')' i
  let i ← b.keyword "goto" i
  let (kind, i) ← b.jumpKind i
  let (dst, i) ← inside .exitTarget (b.constant i)
  .ok (.exit guard kind dst, i)

/-- A mark behind its keyword. -/
def mark (b : Buffer) (i : Nat) : Scan (Stmt × Nat) := do
  let i ← b.expect '(' i
  let (addr, i) ← b.unsigned i
  let i ← b.expect ',' i
  let (len, i) ← b.number i
  let i ← b.expect ')' i
  .ok (.mark addr len, i)

/-- A statement. -/
def stmt (b : Buffer) (i : Nat) : Scan (Stmt × Nat) := do
  let i ← b.skip i
  let (w, j) ← b.word i
  if ← isTemp w then
    b.definition i
  else
    match w with
    | "NoOp" => .ok (.noop, j)
    | "Fence" => .ok (.fence, j)
    | "Mark" => b.mark j
    | "PUT" => do
      let (off, j) ← b.parenthesized j
      let (data, j) ← inside .put (b.rhs j)
      .ok (.put off data, j)
    | "PUTI" => do
      let ((w, ix, bias), j) ← inside .putIx (b.indexed b.expr j)
      let (data, j) ← inside .putIx (b.rhs j)
      .ok (.putIx w ix bias data, j)
    | "ST" => do
      let (addr, j) ← inside .store (b.oneArg b.expr j)
      let (data, j) ← inside .store (b.rhs j)
      .ok (.store addr data, j)
    | "EFFECT" => b.effect none j
    | "if" => b.exit j
    | _ => refuse i (.unknownStmt w)

/-! ## Blocks -/

/-- The declaration of the temporary with number `n`. -/
def declaration (b : Buffer) (n : Nat) (i : Nat) : Scan (Ty × Nat) := do
  let i ← b.skip i
  let (t, j) ← refusedAt i (b.temp i)
  if t.toInt = n then do
    let j ← b.expect ':' j
    b.type j
  else
    refuse i (.tempOrder t n)

/-- The jump that ends a block, behind its keyword. -/
def jump (b : Buffer) (temps : Array Ty) (i : Nat) : Scan (Block × Nat) := do
  let (kind, i) ← b.jumpKind i
  let (next, i) ← inside .next (b.expr i)
  let i ← b.expect '\x7d' i
  .ok (⟨temps, [], next, kind⟩, i)

/-- The inside of a block from statement `k` on, in at most `n` bytes. -/
def body (b : Buffer) : Nat → Array Ty → Nat → Nat → Scan (Block × Nat)
  | 0, _, _, i => b.refuseBehind i .stmtExpected
  | n + 1, temps, k, i => do
    let (w, j) ← b.word i
    if w = "" then refuse j .stmtExpected
    else if w = "goto" then b.jump temps j
    else if (← isTemp w) && (← b.eat ':' j).isSome then do
      let (ty, i) ← b.declaration temps.size i
      b.body n (temps.push ty) k i
    else do
      let (x, i) ← inside (.stmt k) (b.stmt i)
      let (rest, i) ← b.body n temps (k + 1) i
      .ok ({ rest with stmts := x :: rest.stmts }, i)

/-- A block. -/
def block (b : Buffer) (i : Nat) : Scan (Block × Nat) := do
  let i ← b.keyword "IRBlock" i
  let i ← b.expect '\x7b' i
  b.body (b.size - i) #[] 0 i

/-! ## Whole texts -/

/-- The line and the column of a refusal. An index beyond the end is taken as the end. -/
def locate {ε : Type} (b : Buffer) (r : Refusal) : Except (Halt ε) Located := do
  let i := min r.index b.size
  let before ← slice b 0 i
  let start := (before.reverse.dropWhile (· != 10)).length
  .ok ⟨before.count 10 + 1, i - start + 1, r.error⟩

/-- Reads a buffer that holds exactly one block. -/
def read (b : Buffer) : Except (Halt Located) Block :=
  match b.block 0 with
  | .error .crash => .error .crash
  | .error (.stop r) => do
    let e ← b.locate r
    .error (.stop e)
  | .ok (x, i) => do
    let i ← b.skip i
    if i = b.size then
      .ok x
    else do
      let e ← b.locate ⟨i, .trailingText⟩
      .error (.stop e)

/-- Reads blocks from index `i` on, the first of which has number `k`, in at most `n` bytes. -/
def readFrom (b : Buffer) : Nat → Nat → Nat → Except (Halt (Nat × Located)) (List Block)
  | 0, _, _ => .ok []
  | n + 1, k, i => do
    let i ← b.skip i
    if i < b.size then
      match b.block i with
      | .error .crash => .error .crash
      | .error (.stop r) => do
        let e ← b.locate r
        .error (.stop (k, e))
      | .ok (x, j) => do
        let xs ← b.readFrom n (k + 1) j
        .ok (x :: xs)
    else
      .ok []

/-- Reads the blocks of a buffer; an error comes with the number of the block it is in. -/
def readAll (b : Buffer) : Except (Halt (Nat × Located)) (List Block) := b.readFrom b.size 0 0

end Buffer
end Straightline
