import Straightline.Text.Lexer

/-!
# Reading blocks

The grammar of expressions, statements and blocks, by recursive descent. Recursion into an operand
happens behind at least one byte, so the number of bytes left bounds the depth: `exprUpTo n` reads
an expression from an input of at most `n` bytes, and finds nothing at `n = 0`, where no byte is
left.
-/

namespace Straightline
namespace Reader

open Lexer

/-! ## Expressions -/

/-- The arguments from number `k` on, up to the closing parenthesis, in at most `n` bytes. -/
def argsFrom (read : Input → Except Stop (Expr × Input)) :
    Nat → Nat → Input → Except Stop (List Expr × Input)
  | 0, k, s => .error ⟨s, .within (.arg k) .exprExpected⟩
  | n + 1, k, s => do
    let (x, s) ← within (.arg k) (read s)
    match eat ',' (skip s) with
    | some s => do
      let (xs, s) ← argsFrom read n (k + 1) s
      .ok (x :: xs, s)
    | none => do
      let s ← expect ')' s
      .ok ([x], s)

/-- An argument list between parentheses. -/
def args (read : Input → Except Stop (Expr × Input)) (s : Input) :
    Except Stop (List Expr × Input) := do
  let s ← expect '(' s
  match eat ')' (skip s) with
  | some s => .ok ([], s)
  | none => argsFrom read s.length 0 s

/-- The stop that is due when a list has the wrong length. -/
def wrongCount (want : Nat) (xs : List Expr) (s : Input) : Stop := ⟨s, .argCount want xs.length⟩

/-- A list of one argument. -/
def oneArg (read : Input → Except Stop (Expr × Input)) (s : Input) :
    Except Stop (Expr × Input) := do
  let (xs, r) ← args read s
  match xs with
  | [a] => .ok (a, r)
  | _ => .error (wrongCount 1 xs s)

/-- A window, for instance `(64:8xF64)`: a base, a count and an element type. -/
def window (s : Input) : Except Stop (Window × Input) := do
  let s ← expect '(' s
  let (base, s) ← number s
  let s ← expect ':' s
  let (w, r) := word s
  let digits := w.toList.takeWhile isDigit
  match digits, w.toList.dropWhile isDigit with
  | _ :: _, 'x' :: c :: cs =>
    match Numeral.read (String.ofList digits) with
    | .error _ => .error ⟨s, .numberExpected (String.ofList digits)⟩
    | .ok n =>
      match Ty.ofName? (String.ofList (c :: cs)) with
      | none => .error ⟨s, .elementType (String.ofList (c :: cs))⟩
      | some elem => do
        let r ← expect ')' r
        .ok (⟨base, elem, n.toInt64⟩, r)
  | _, _ => .error ⟨s, .shapeExpected w⟩

/-- A window and an index into it, for instance `(64:8xF64)[t1,-1]`. -/
def indexed (read : Input → Except Stop (Expr × Input)) (s : Input) :
    Except Stop ((Window × Expr × Int64) × Input) := do
  let (w, s) ← window s
  let s ← expect '[' s
  let (ix, s) ← within .index (read s)
  let s ← expect ',' s
  let (bias, s) ← number s
  let s ← expect ']' s
  .ok ((w, ix, bias), s)

/-- An expression that starts with the word `w` and goes on with `r`; `s` is the input at `w`.
Operands are read by `read`. -/
def exprAt (read : Input → Except Stop (Expr × Input)) (w : String) (s r : Input) :
    Except Stop (Expr × Input) :=
  match w with
  | "GET" => do
    let r ← expect ':' r
    let (ty, r) ← type r
    let (off, r) ← parenthesized r
    .ok (.get off ty, r)
  | "GETI" => do
    let ((w, ix, bias), r) ← within .getIx (indexed read r)
    .ok (.getIx w ix bias, r)
  | "LD" => do
    let r ← expect ':' r
    let (ty, r) ← type r
    let (a, r) ← within .load (oneArg read r)
    .ok (.load ty a, r)
  | "CALL" => do
    let (callee, r) := word r
    if callee = "" then
      .error ⟨r, .calleeExpected⟩
    else do
      let r ← expect ':' r
      let (ty, r) ← type r
      let (xs, r) ← within (.call callee) (args read r)
      .ok (.call callee ty xs, r)
  | "Select" => within .select do
    let (xs, r') ← args read r
    match xs with
    | [c, z, x] => .ok (.select c z x, r')
    | _ => .error (wrongCount 3 xs r)
  | _ =>
    match Op.ofName? w with
    | none => .error ⟨s, .unknownExpr w⟩
    | some op => within (.op op) do
      let (xs, r') ← args read r
      match xs with
      | [a] => if op.arity = 1 then .ok (.unop op a, r') else .error (wrongCount op.arity xs r)
      | [a, b] =>
        if op.arity = 2 then .ok (.binop op a b, r') else .error (wrongCount op.arity xs r)
      | _ => .error (wrongCount op.arity xs r)

/-- An expression in an input of at most `n` bytes. -/
def exprUpTo : Nat → Input → Except Stop (Expr × Input)
  | 0, s => .error ⟨skip s, .exprExpected⟩
  | n + 1, s =>
    let s := skip s
    let (w, r) := word s
    match w.toList with
    | [] => .error ⟨s, .exprExpected⟩
    | c :: _ =>
      match tempDigits? w with
      | some digits => do
        let t ← tempOf digits s
        .ok (.tmp t, r)
      | none =>
        if isDigit c && (eat ':' r).isSome then do
          let (c, r) ← constant s
          .ok (.const c, r)
        else exprAt (exprUpTo n) w s r

/-- An expression. -/
def expr (s : Input) : Except Stop (Expr × Input) := exprUpTo s.length s

/-! ## Statements -/

/-- An equals sign and the expression behind it. -/
def rhs (s : Input) : Except Stop (Expr × Input) := do
  let s ← expect '=' s
  expr s

/-- The attributes of an effect, added to `e`, in at most `n` bytes. An attribute is a word with an
equals sign right behind it; a later guard or memory touch replaces an earlier one. -/
def attributes : Nat → Effect → Input → Except Stop (Effect × Input)
  | 0, e, s => .ok (e, s)
  | n + 1, e, s =>
    let (w, r) := word s
    match if w = "" then none else eat '=' r with
    | none => .ok (e, s)
    | some r =>
      match w with
      | "guard" => do
        let (g, r) ← within .guard (expr r)
        attributes n { e with guard := g } r
      | "mem" => do
        let (t, r) ← touch r
        let (a, r) ← within .memAddr (expr r)
        let r ← expectHere ':' r
        let (size, r) ← number r
        attributes n { e with memTouch := t, memAddr := a, memSize := size } r
      | "fx" => do
        let (t, r) ← touch r
        let (off, r) ← number r
        let r ← expectHere ':' r
        let (size, r) ← number r
        attributes n { e with state := e.state ++ [⟨t, off, size⟩] } r
      | _ => .error ⟨skip s, .unknownAttribute w⟩

/-- An effect behind its keyword, with the given result. -/
def effect (result : Option Temp) (s : Input) : Except Stop (Stmt × Input) := do
  let (callee, s) := word s
  if callee = "" then
    .error ⟨s, .calleeExpected⟩
  else do
    let (xs, s) ← within (.effect callee) (args expr s)
    let bare : Effect := ⟨callee, .missing, xs, result, .none, .missing, 0, []⟩
    let (e, s) ← attributes s.length bare s
    if e.guard.isMissing then .error ⟨s, .guardExpected⟩ else .ok (.effect e, s)

/-- An assignment or an effect with a result, behind the temporary `t`. -/
def definition (t : Temp) (s : Input) : Except Stop (Stmt × Input) := do
  let s ← expect '=' s
  let (w, r) := word s
  if w = "EFFECT" then
    effect (some t) r
  else do
    let (x, s) ← within (.temp t) (expr s)
    .ok (.assign t x, s)

/-- An exit behind its keyword. -/
def exit (s : Input) : Except Stop (Stmt × Input) := do
  let s ← expect '(' s
  let (guard, s) ← within .guard (expr s)
  let s ← expect ')' s
  let s ← keyword "goto" s
  let (kind, s) ← jumpKind s
  let (dst, s) ← within .exitTarget (constant s)
  .ok (.exit guard kind dst, s)

/-- A mark behind its keyword. -/
def mark (s : Input) : Except Stop (Stmt × Input) := do
  let s ← expect '(' s
  let (addr, s) ← unsigned s
  let s ← expect ',' s
  let (len, s) ← number s
  let s ← expect ')' s
  .ok (.mark addr len, s)

/-- A statement. -/
def stmt (s : Input) : Except Stop (Stmt × Input) :=
  let s := skip s
  let (w, r) := word s
  match tempDigits? w with
  | some digits => do
    let t ← tempOf digits s
    definition t r
  | none =>
    match w with
    | "NoOp" => .ok (.noop, r)
    | "Fence" => .ok (.fence, r)
    | "Mark" => mark r
    | "PUT" => do
      let (off, r) ← parenthesized r
      let (data, r) ← within .put (rhs r)
      .ok (.put off data, r)
    | "PUTI" => do
      let ((w, ix, bias), r) ← within .putIx (indexed expr r)
      let (data, r) ← within .putIx (rhs r)
      .ok (.putIx w ix bias data, r)
    | "ST" => do
      let (addr, r) ← within .store (oneArg expr r)
      let (data, r) ← within .store (rhs r)
      .ok (.store addr data, r)
    | "EFFECT" => effect none r
    | "if" => exit r
    | _ => .error ⟨s, .unknownStmt w⟩

/-! ## Blocks -/

/-- The declaration of the temporary with the given digits, which has to have number `i`; `s` is
the input where it starts and `r` the input behind its name. -/
def declaration (digits : List Char) (i : Nat) (s r : Input) : Except Stop (Ty × Input) := do
  let t ← tempOf digits s
  if t.toInt = i then do
    let r ← expect ':' r
    type r
  else
    .error ⟨skip s, .tempOrder t i⟩

/-- The jump that ends a block, behind its keyword. -/
def jump (temps : Array Ty) (s : Input) : Except Stop (Block × Input) := do
  let (kind, s) ← jumpKind s
  let (next, s) ← within .next (expr s)
  let s ← expect '\x7d' s
  .ok (⟨temps, [], next, kind⟩, s)

/-- The inside of a block from statement `k` on, in at most `n` bytes. Declarations may stand
between statements. -/
def body : Nat → Array Ty → Nat → Input → Except Stop (Block × Input)
  | 0, _, _, s => .error ⟨skip s, .stmtExpected⟩
  | n + 1, temps, k, s =>
    let (w, r) := word s
    if w = "" then .error ⟨r, .stmtExpected⟩
    else if w = "goto" then jump temps r
    else
      match if (eat ':' r).isSome then tempDigits? w else none with
      | some digits => do
        let (ty, s) ← declaration digits temps.size s r
        body n (temps.push ty) k s
      | none => do
        let (x, s) ← within (.stmt k) (stmt s)
        let (b, s) ← body n temps (k + 1) s
        .ok ({ b with stmts := x :: b.stmts }, s)

/-- A block. -/
def block (s : Input) : Except Stop (Block × Input) := do
  let s ← keyword "IRBlock" s
  let s ← expect '\x7b' s
  body s.length #[] 0 s

end Reader

/-! ## Whole texts -/

/-- A syntax error and its place: line and column count from one, columns in bytes. -/
structure Located where
  line : Nat
  col : Nat
  error : SyntaxError

namespace Located

/-- The place of a stop in the text it stopped in. -/
def ofStop (text : Input) (e : Stop) : Located :=
  let before := text.take (text.length - e.rest.length)
  ⟨before.count 10 + 1, (before.reverse.takeWhile (· != 10)).length + 1, e.error⟩

def message (e : Located) : String := s!"{e.line}:{e.col}: " ++ e.error.message

end Located

/-- The bytes of a text. -/
def bytesOf (s : String) : Input := s.toUTF8.data.toList

/-- Reads a text that holds exactly one block. -/
def Block.read (text : Input) : Except Located Block :=
  match Reader.block text with
  | .error e => .error (.ofStop text e)
  | .ok (b, r) =>
    match Lexer.skip r with
    | [] => .ok b
    | r => .error (.ofStop text ⟨r, .trailingText⟩)

/-- Reads blocks from the rest `s` of a text, the first of which has number `i`, in at most `n`
bytes. -/
def Block.readFrom (text : Input) : Nat → Nat → Input → Except (Nat × Located) (List Block)
  | 0, _, _ => .ok []
  | n + 1, i, s =>
    match Lexer.skip s with
    | [] => .ok []
    | s =>
      match Reader.block s with
      | .error e => .error (i, .ofStop text e)
      | .ok (b, r) => do
        let bs ← Block.readFrom text n (i + 1) r
        .ok (b :: bs)

/-- Reads the blocks of a text; an error comes with the number of the block it is in. -/
def Block.readAll (text : Input) : Except (Nat × Located) (List Block) :=
  Block.readFrom text text.length 0 text

end Straightline
