import Straightline.Block
import Straightline.Text.Numeral
import Straightline.Text.Place

/-!
# Writing blocks

`text` writes a node; `unprintable?` finds the first hole that keeps a node from being written, in
the order of writing. A node prints if it has no such hole, a block if it also has a successor.
-/

namespace Straightline

/-- Why a node cannot be written. -/
inductive Unprintable where
  | noSuccessor
  | stmt
  | expr
  /-- Something of the named kind, which is no part of a block. -/
  | foreign (kind : String)
  | within (p : Place) (e : Unprintable)

def Unprintable.message : Unprintable → String
  | noSuccessor => "no successor"
  | stmt => "unsupported stmt: <nil>"
  | expr => "unsupported expr: <nil>"
  | foreign kind => "unsupported type: " ++ kind
  | within p e => p.text ++ ": " ++ e.message

namespace Expr

/-- A temporary. -/
def tempText (t : Temp) : String := "t" ++ Numeral.decimal t.toInt

/-- A constant: its bits and its tag. -/
def constText (c : Const) : String := Numeral.hex c.bits ++ ":" ++ c.tag.name

/-- A window and an index into it. -/
def indexedText (w : Window) (ix : String) (bias : Int64) : String :=
  "(" ++ Numeral.decimal w.base.toInt ++ ":" ++ Numeral.decimal w.count.toInt ++ "x" ++ w.elem.name
    ++ ")[" ++ ix ++ "," ++ Numeral.decimal bias.toInt ++ "]"

/-- An argument list. -/
def argsText (args : List String) : String := "(" ++ ",".intercalate args ++ ")"

mutual

/-- The text of an expression. -/
def text : Expr → String
  | missing => "<nil>"
  | tmp t => tempText t
  | const c => constText c
  | get off ty => "GET:" ++ ty.name ++ "(" ++ Numeral.decimal off.toInt ++ ")"
  | getIx w ix bias => "GETI" ++ indexedText w ix.text bias
  | unop op a => op.name ++ argsText [a.text]
  | binop op a b => op.name ++ argsText [a.text, b.text]
  | load ty a => "LD:" ++ ty.name ++ argsText [a.text]
  | call callee ty args => "CALL " ++ callee ++ ":" ++ ty.name ++ argsText (texts args)
  | select c z x => "Select" ++ argsText [c.text, z.text, x.text]

/-- The texts of several expressions. -/
def texts : List Expr → List String
  | [] => []
  | e :: es => e.text :: texts es

end

theorem texts_eq (es : List Expr) : texts es = es.map text := by
  induction es with
  | nil => rfl
  | cons e es ih => rw [texts, ih, List.map_cons]

mutual

/-- The first hole of an expression. -/
def unprintable? : Expr → Option Unprintable
  | missing => some .expr
  | tmp _ | const _ | get _ _ => none
  | getIx _ ix _ => ix.unprintable?.map (.within .index)
  | unop _ a | load _ a => a.unprintable?.map (.within (.arg 0))
  | binop _ a b =>
    a.unprintable?.map (.within (.arg 0)) <|> b.unprintable?.map (.within (.arg 1))
  | call _ _ args => unprintableArg? 0 args
  | select c z x =>
    c.unprintable?.map (.within (.arg 0)) <|> z.unprintable?.map (.within (.arg 1))
      <|> x.unprintable?.map (.within (.arg 2))

/-- The first hole of an argument list whose first argument has number `i`. -/
def unprintableArg? (i : Nat) : List Expr → Option Unprintable
  | [] => none
  | e :: es => e.unprintable?.map (.within (.arg i)) <|> unprintableArg? (i + 1) es

end

end Expr

namespace Effect

/-- The text of an effect: result, callee and arguments, then its attributes. -/
def text (e : Effect) : String :=
  (match e.result with
    | none => ""
    | some t => Expr.tempText t ++ " = ")
  ++ "EFFECT " ++ e.callee ++ Expr.argsText (Expr.texts e.args) ++ " guard=" ++ e.guard.text
  ++ (if e.touchesMem then
      " mem=" ++ e.memTouch.name ++ ":" ++ e.memAddr.text ++ ":" ++ Numeral.decimal e.memSize.toInt
    else "")
  ++ String.join (e.state.map fun t =>
      " fx=" ++ t.touch.name ++ ":" ++ Numeral.decimal t.off.toInt ++ ":"
        ++ Numeral.decimal t.size.toInt)

/-- The first hole of an effect. -/
def unprintable? (e : Effect) : Option Unprintable :=
  Expr.unprintableArg? 0 e.args <|> e.guard.unprintable?.map (.within .guard)
    <|> if e.touchesMem then e.memAddr.unprintable?.map (.within .memAddr) else none

end Effect

namespace Stmt

/-- The text of a statement. -/
def text : Stmt → String
  | missing => "<nil>"
  | noop => "NoOp"
  | mark addr len => "Mark(" ++ Numeral.hex addr ++ "," ++ Numeral.decimal len.toInt ++ ")"
  | fence => "Fence"
  | assign dst src => Expr.tempText dst ++ " = " ++ src.text
  | put off data => "PUT(" ++ Numeral.decimal off.toInt ++ ") = " ++ data.text
  | putIx w ix bias data => "PUTI" ++ Expr.indexedText w ix.text bias ++ " = " ++ data.text
  | store addr data => "ST(" ++ addr.text ++ ") = " ++ data.text
  | effect e => e.text
  | exit guard kind dst =>
    "if (" ++ guard.text ++ ") goto \x7b" ++ kind.name ++ "\x7d " ++ Expr.constText dst

/-- The first hole of a statement. -/
def unprintable? : Stmt → Option Unprintable
  | missing => some .stmt
  | noop | mark _ _ | fence => none
  | assign _ src => src.unprintable?.map (.within .rhs)
  | put _ data => data.unprintable?.map (.within .data)
  | putIx _ ix _ data =>
    ix.unprintable?.map (.within .index) <|> data.unprintable?.map (.within .data)
  | store addr data =>
    addr.unprintable?.map (.within .addr) <|> data.unprintable?.map (.within .data)
  | effect e => e.unprintable?
  | exit guard _ _ => guard.unprintable?.map (.within .guard)

end Stmt

namespace Block

/-- The declarations of temporaries, the first of which has number `i`. -/
def declTexts : Nat → List Ty → List String
  | _, [] => []
  | i, t :: ts => (s!"t{i}:" ++ t.name) :: declTexts (i + 1) ts

/-- The line that declares the temporaries, if there are any. -/
def tempsText (temps : Array Ty) : String :=
  if temps.isEmpty then "" else "\t" ++ " ".intercalate (declTexts 0 temps.toList) ++ "\n"

/-- The text of a block. -/
def text (b : Block) : String :=
  "IRBlock \x7b\n" ++ tempsText b.temps
    ++ String.join (b.stmts.map fun s => "\t" ++ s.text ++ "\n")
    ++ "\tgoto \x7b" ++ b.kind.name ++ "\x7d " ++ b.next.text ++ "\n\x7d\n"

/-- The first hole of the statements, the first of which has number `i`. -/
def unprintableStmt? (i : Nat) : List Stmt → Option Unprintable
  | [] => none
  | s :: ss => s.unprintable?.map (.within (.stmt i)) <|> unprintableStmt? (i + 1) ss

/-- The first hole of a block. -/
def unprintable? (b : Block) : Option Unprintable :=
  unprintableStmt? 0 b.stmts
    <|> if b.next.isMissing then some .noSuccessor
      else b.next.unprintable?.map (.within .next)

end Block

/-- Something to be written. -/
inductive Item where
  | block (b : Block)
  | stmt (s : Stmt)
  | expr (e : Expr)
  /-- A thing of the named kind that is no part of a block. -/
  | foreign (kind : String)

namespace Item

/-- Writes an item. A hole by itself is no part of a block. -/
def print : Item → Except Unprintable String
  | block b => b.unprintable?.elim (.ok b.text) .error
  | stmt .missing | expr .missing => .error (.foreign "<nil>")
  | stmt s => s.unprintable?.elim (.ok s.text) .error
  | expr e => e.unprintable?.elim (.ok e.text) .error
  | foreign kind => .error (.foreign kind)

/-- Writes an item, or the reason why it cannot be written between angle brackets. -/
def render (x : Item) : String :=
  match x.print with
  | .ok s => s
  | .error e => "<" ++ e.message ++ ">"

end Item

/-- The text of a block, or what keeps it from having one. -/
def Block.print (b : Block) : Except Unprintable String := (Item.block b).print

end Straightline
