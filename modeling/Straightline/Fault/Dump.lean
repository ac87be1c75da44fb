import Straightline.Fault

/-!
# Field-by-field form of nodes

A message about a node shows the node with all its fields: records as `Field:value Field:value` in
braces, lists in brackets, integers in decimal, enumerations by name and a hole as `<nil>`.
-/

namespace Straightline
namespace Dump

/-- Fields between braces. -/
def record (fields : List (String × String)) : String :=
  "\x7b" ++ " ".intercalate (fields.map fun f => f.1 ++ ":" ++ f.2) ++ "\x7d"

/-- Items between brackets. -/
def list (items : List String) : String := "[" ++ " ".intercalate items ++ "]"

def int (n : Int64) : String := toString n.toInt

def temp (t : Temp) : String := toString t.toInt

def word (n : UInt64) : String := toString n.toNat

def const (c : Const) : String := record [("Tag", c.tag.name), ("Bits", word c.bits)]

def window (w : Window) : String :=
  record [("Base", int w.base), ("Elem", w.elem.name), ("N", int w.count)]

mutual

def expr : Expr → String
  | .missing => "<nil>"
  | .tmp t => record [("T", temp t)]
  | .const c => const c
  | .get off ty => record [("Offset", int off), ("Ty", ty.name)]
  | .getIx w ix bias => record [("Descr", window w), ("Ix", expr ix), ("Bias", int bias)]
  | .unop op a => record [("Op", op.name), ("Arg", expr a)]
  | .binop op a b => record [("Op", op.name), ("Arg1", expr a), ("Arg2", expr b)]
  | .load ty a => record [("Ty", ty.name), ("Addr", expr a)]
  | .call callee ty args =>
    record [("Callee", callee), ("RetTy", ty.name), ("Args", list (exprs args))]
  | .select c z x => record [("Cond", expr c), ("IfZero", expr z), ("Else", expr x)]

def exprs : List Expr → List String
  | [] => []
  | e :: es => expr e :: exprs es

end

def regTouch (t : RegTouch) : String :=
  record [("Fx", t.touch.name), ("Offset", int t.off), ("Size", int t.size)]

def effect (e : Effect) : String :=
  record [("Callee", e.callee), ("Guard", expr e.guard), ("Args", list (exprs e.args)),
    ("Tmp", temp (e.result.getD noTemp)), ("MemFx", e.memTouch.name), ("MemAddr", expr e.memAddr),
    ("MemSize", int e.memSize), ("State", list (e.state.map regTouch))]

def stmt : Stmt → String
  | .missing => "<nil>"
  | .noop | .fence => record []
  | .mark addr len => record [("Addr", word addr), ("Len", int len)]
  | .assign dst src => record [("Dst", temp dst), ("Src", expr src)]
  | .put off data => record [("Offset", int off), ("Data", expr data)]
  | .putIx w ix bias data =>
    record [("Descr", window w), ("Ix", expr ix), ("Bias", int bias), ("Data", expr data)]
  | .store addr data => record [("Addr", expr addr), ("Data", expr data)]
  | .effect e => effect e
  | .exit guard kind dst =>
    record [("Guard", expr guard), ("Kind", kind.name), ("Dst", const dst)]

def block (b : Block) : String :=
  "&" ++ record [("Temps", list (b.temps.toList.map Ty.name)), ("Stmts", list (b.stmts.map stmt)),
    ("Next", expr b.next), ("Kind", b.kind.name)]

end Dump

/-- The name of an expression's form. -/
def Expr.form : Expr → String
  | .missing => "<nil>"
  | .tmp _ => "Tmp"
  | .const _ => "Const"
  | .get _ _ => "Get"
  | .getIx _ _ _ => "GetI"
  | .unop _ _ => "Unop"
  | .binop _ _ _ => "Binop"
  | .load _ _ => "Load"
  | .call _ _ _ => "Call"
  | .select _ _ _ => "Select"

/-- The name of a statement's form. -/
def Stmt.form : Stmt → String
  | .missing => "<nil>"
  | .noop => "NoOp"
  | .mark _ _ => "Mark"
  | .assign _ _ => "Assign"
  | .put _ _ => "Put"
  | .putIx _ _ _ _ => "PutI"
  | .store _ _ => "Store"
  | .effect _ => "Effect"
  | .fence => "Fence"
  | .exit _ _ _ => "Exit"

/-- A node as messages show it: the name of its form, then its fields. -/
def Node.dump : Node → String
  | .expr e => "ir." ++ e.form ++ " " ++ Dump.expr e
  | .stmt s => "ir." ++ s.form ++ " " ++ Dump.stmt s
  | .block b => "*ir.Block " ++ Dump.block b

end Straightline
