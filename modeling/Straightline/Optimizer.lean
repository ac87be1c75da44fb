import Straightline.Fault.Message
import Straightline.Pass.Chain
import Straightline.Pass.Liveness
import Straightline.Pass.Nesting
import Straightline.Pass.RegisterReads
import Straightline.Pass.RegisterWrites
import Straightline.Pass.Sharing
import Straightline.Pass.Specialize
import Straightline.Pass.Unroll
import Straightline.Pass.WindowReads
import Straightline.Pass.WindowWrites
import Straightline.Text.Printer
import Straightline.WellFormed

/-!
# The pipeline

An `Optimizer` is a configuration: how far to go, which registers are precise, how to specialize
helpers. It runs the passes over one block at a time and keeps a journal.

Level 0 makes the block flat. Level 1 adds the cheap passes. Level 2 adds the passes over windows,
if the block has indexed accesses, and unrolling.
-/

namespace Straightline

/-- The text of an error. A crash has none of its own. -/
def Error.message : Error → String
  | fault (.illFormed e) => e.message
  | fault .crash => "crash"
  | misconfigured e => e.message
  | text e => e.message
  | noFile name => "read file: open " ++ name ++ ": no such file or directory"
  | numeral s flaw => "strconv.ParseUint: parsing " ++ Quoted.text s ++ ": " ++ flaw.text
  | integer s flaw => "strconv.ParseInt: parsing " ++ Quoted.text s ++ ": " ++ flaw.text
  | notYesNo => "not a bool value"
  | noSuchFlag => "no such flag"
  | within task e => task ++ ": " ++ e.message

/-- What goes wrong at the bottom of an error. -/
def Error.root : Error → Error
  | within _ e => e.root
  | e => e

/-- The settings and callbacks of the pipeline. -/
structure Optimizer where
  level : Int64
  /-- The statement count that unrolled blocks are kept below; zero for no unrolling. -/
  unrollThresh : Int64
  /-- Whether every register has to hold its value at memory accesses. -/
  preciseMemory : Bool
  precise : Precise
  specializer : Specializer

namespace Optimizer

def maxLevel : Int64 := 2

def maxUnrollThresh : Int64 := 400

/-- Everything on, nothing precise, no helper specialized. -/
def default : Optimizer := ⟨2, 120, false, .none, fun _ _ => none⟩

/-- Checks that the settings are in range. -/
def validate (o : Optimizer) : Except Error Unit :=
  if o.level < 0 ∨ maxLevel < o.level then .error (.misconfigured (.level maxLevel o.level))
  else if o.unrollThresh < 0 ∨ maxUnrollThresh < o.unrollThresh then
    .error (.misconfigured (.unrollThreshold maxUnrollThresh o.unrollThresh))
  else .ok ()

/-- The registers that memory accesses observe. -/
def oracle (o : Optimizer) : Precise := if o.preciseMemory then fun _ _ => true else o.precise

/-- Runs a pass as a stage of the pipeline. -/
def stage (s : Stage) (pass : Block → Journaled Block) (b : Block) : Journaled Block := do
  let r ← pass b
  .record (.stage s b.stmts.length r.stmts.length)
  .record (.block s r)
  return r

/-- Runs a pass that records nothing itself. -/
def quiet (s : Stage) (pass : Block → Except Fault Block) : Block → Journaled Block :=
  stage s fun b => .silent (pass b)

def dead : Block → Journaled Block := stage .dead Block.sweep

/-- The passes that are run on every block. -/
def cheap (o : Optimizer) (b : Block) : Journaled Block := do
  let b ← quiet .gets Block.reuseReads b
  let b ← quiet .puts (·.dropWrites o.oracle) b
  let b ← quiet .cprop Block.propagate b
  let b ← dead b
  let b ← quiet .spec (·.specialize o.specializer) b
  dead b

/-- The passes that are run on blocks with indexed accesses. -/
def expensive (o : Optimizer) (b : Block) : Journaled Block := do
  let b ← quiet .cse (fun b => .ok b.share) b
  let b ← quiet .chains (fun b => .ok b.collapse) b
  let b ← stage .getis Block.reuseElements b
  let b ← stage .putis (·.dropElements o.oracle) b
  dead b

/-- Whether a statement of a flat block accesses a window. -/
def isIndexed : Stmt → Bool
  | .putIx _ _ _ _ | .assign _ (.getIx _ _ _) => true
  | _ => false

/-- Unrolls a block, if it is a loop, and optimizes the result once more. -/
def unroll (o : Optimizer) (addr : UInt64) (indexed : Bool) (b : Block) : Journaled Block := do
  match ← b.unroll addr o.unrollThresh with
  | none => return b
  | some (u, factor) =>
    .record (.unrolled factor u.stmts.length)
    .record (.counted .unrolled)
    .record (.block .unroll u)
    let b ← o.cheap u
    if indexed then do
      let b ← o.expensive b
      o.cheap b
    else do
      let b ← quiet .cse (fun b => .ok b.share) b
      dead b

/-- Level 2 behind the cheap passes. -/
def full (o : Optimizer) (addr : UInt64) (b : Block) : Journaled Block :=
  if b.stmts.any isIndexed then do
    .record (.counted .expensive)
    let b ← o.expensive b
    let b ← o.cheap b
    o.unroll addr true b
  else o.unroll addr false b

/-- The flat, optimized form of a block that starts at address `addr`. -/
def optimize (o : Optimizer) (b : Block) (addr : UInt64) : Journaled Block := do
  .record (.optimizing addr b.stmts.length o.level)
  ⟨[], o.validate⟩
  .record (.counted .blocks)
  let b ← quiet .flat Block.flatten b
  if o.level = 0 then
    return b
  else do
    let b ← o.cheap b
    if o.level = 1 then return b else o.full addr b

/-- A light pass over a block that was optimized and then changed. -/
def cleanup (b : Block) : Journaled Block := do
  .record (.cleaning b.stmts.length)
  let b ← dead b
  let b ← quiet .cprop Block.propagate b
  dead b

/-- Prepares a flat block for instruction selection. -/
def buildTrees (b : Block) : Journaled Block := do
  .record (.buildingTrees b.stmts.length)
  let b ← dead b
  quiet .trees Block.buildTrees b

/-- Checks a block, optimizes it, checks the result and builds trees. -/
def translate (o : Optimizer) (b : Block) (addr : UInt64) : Journaled Block := do
  .silent (b.check false)
  let r ← o.optimize b addr
  .silent (r.check true)
  buildTrees r

/-- Optimizes a block and checks that the result is flat. Without an address the block starts at its
first mark, or at zero. -/
def compile (o : Optimizer) (b : Block) (addr : Option UInt64) : Journaled Block := do
  let r ← (o.optimize b (addr.getD (b.addr?.getD 0))).within "optimize"
  (Journaled.silent (r.check true)).within "check optimized"
  return r

end Optimizer

/-- Reads a text that holds one well-formed block. -/
def Block.readChecked (text : Input) : Except Error Block :=
  match Block.read text with
  | .error e => .error (.within "parse block" (.text e))
  | .ok b =>
    match b.check false with
    | .error f => .error (.within "check" (.fault f))
    | .ok () => .ok b

end Straightline
