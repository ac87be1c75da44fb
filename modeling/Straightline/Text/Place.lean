import Straightline.Op

/-!
# Places in a text

An error in the text of a block names the constructs around it, from the outside in.
-/

namespace Straightline

/-- A construct of the text, as errors inside it name it. -/
inductive Place where
  | block (i : Nat)
  | stmt (i : Nat)
  | next
  | temp (t : Int32)
  | put
  | putIx
  | store
  | effect (callee : String)
  | guard
  | exitTarget
  | memAddr
  | rhs
  | data
  | addr
  | getIx
  | load
  | call (callee : String)
  | select
  | op (op : Op)
  | arg (i : Nat)
  | index
deriving DecidableEq

def Place.text : Place → String
  | block i => s!"block {i}"
  | stmt i => s!"stmt {i}"
  | next => "next"
  | temp t => s!"t{t.toInt}"
  | put => "PUT"
  | putIx => "PUTI"
  | store => "ST"
  | effect callee => "EFFECT " ++ callee
  | guard => "guard"
  | exitTarget => "exit target"
  | memAddr => "mem addr"
  | rhs => "rhs"
  | data => "data"
  | addr => "addr"
  | getIx => "GETI"
  | load => "LD"
  | call callee => "CALL " ++ callee
  | select => "Select"
  | op o => o.name
  | arg i => s!"arg {i}"
  | index => "index"

end Straightline
