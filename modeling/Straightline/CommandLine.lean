import Straightline.Optimizer
import Straightline.Sample.Generator

/-!
# The command line

What the program does with its arguments, as a function: from the files it can read, the environment
and the arguments to what it prints and how it ends. Files are handled in order, and what was
printed before a failure stays printed.

Topics for the journal may be given in front of the subcommand, and counters may be asked for; both
concern diagnostics only and change nothing that is printed here.
-/

namespace Straightline
namespace CommandLine

/-- What the program can see. -/
structure World where
  /-- The contents of a file. -/
  file : String → Option Input
  /-- A variable of the environment. -/
  setting : String → Option String

/-- How the program ends: its output, its exit code, and the message of the error it ends with. -/
structure Outcome where
  stdout : String
  exit : UInt8
  error : Option String

/-! ## Flags -/

/-- What a flag is given. -/
inductive FlagKind where
  | yesNo | integer | text
deriving DecidableEq

/-- The value of a flag. -/
inductive FlagValue where
  | yesNo (b : Bool)
  | integer (n : Int64)
  | text (s : String)
deriving DecidableEq

/-- The words for yes and no, in letters of either case. -/
def yesNo? (s : String) : Option Bool :=
  match s.map Char.toLower with
  | "1" | "t" | "true" | "y" | "yes" => some true
  | "0" | "f" | "false" | "n" | "no" => some false
  | _ => none

/-- Reads a value; an empty one means yes. -/
def FlagKind.read (k : FlagKind) (s : String) : Except Error FlagValue :=
  match k with
  | yesNo =>
    match if s = "" then some true else yesNo? s with
    | some b => .ok (.yesNo b)
    | none => .error .notYesNo
  | integer =>
    match Numeral.readInt s with
    | .ok n => .ok (.integer n)
    | .error flaw => .error (.integer s flaw)
  | text => .ok (.text s)

/-- The flags that a subcommand has. -/
abbrev FlagKinds := List (String × FlagKind)

/-- The flags in front of the file names, with their values. -/
abbrev Flags := List (String × FlagValue)

/-- A flag: two dashes and a name, then perhaps an equals sign and a value, which is empty if it is
left out. -/
def flag? (arg : String) : Option (String × String) :=
  match arg.toList with
  | '-' :: '-' :: cs =>
    some (String.ofList (cs.takeWhile (· != '=')), String.ofList ((cs.dropWhile (· != '=')).drop 1))
  | _ => none

/-- Reads the value of a flag. -/
def readFlag (kinds : FlagKinds) (name value : String) : Except Error (String × FlagValue) :=
  match kinds.lookup name with
  | none => .error .noSuchFlag
  | some k => (k.read value).map fun v => (name, v)

/-- The flags and the file names. -/
def split (kinds : FlagKinds) : List String → Except Error (Flags × List String)
  | [] => .ok ([], [])
  | arg :: args =>
    match flag? arg with
    | none => .ok ([], arg :: args)
    | some (name, value) => do
      let f ← (readFlag kinds name value).mapError (.within ("parse flag: " ++ arg))
      let (fs, names) ← split kinds args
      .ok (f :: fs, names)

namespace Flags

/-- The value of a flag, the last one if there are several. -/
def find? (fs : Flags) (name : String) : Option FlagValue := fs.reverse.lookup name

/-- The answer of a flag. -/
def yesNo (fs : Flags) (name : String) (default : Bool) : Bool :=
  match fs.find? name with
  | some (.yesNo b) => b
  | _ => default

/-- The number that a flag is given. -/
def integer (fs : Flags) (name : String) (default : Int64) : Int64 :=
  match fs.find? name with
  | some (.integer n) => n
  | _ => default

/-- The text that a flag is given; an empty one counts as none. -/
def text? (fs : Flags) (name : String) : Option String :=
  match fs.find? name with
  | some (.text s) => if s = "" then none else some s
  | _ => none

end Flags

/-- The number that a variable of the environment holds; a text that is no number counts for
nothing. -/
def intSetting (w : World) (var : String) (default : Int64) : Int64 :=
  match (w.setting var).map Numeral.readInt with
  | some (.ok n) => n
  | _ => default

/-- The words by which a variable of the environment says yes: in small letters, in capitals, or with
a capital in front. -/
def yesWords : List String :=
  ["1", "t", "T", "true", "True", "TRUE", "y", "Y", "yes", "Yes", "YES"]

/-- Whether a variable of the environment says yes; any other text says no. -/
def yesSetting (w : World) (var : String) : Bool := (w.setting var).any yesWords.contains

/-! ## Subcommands -/

/-- What a subcommand printed, and the error it stopped at. -/
structure Printed where
  text : String
  error : Option Error

/-- Handles files in order until one fails. -/
def forFiles (handle : String → Except Error String) : List String → Printed
  | [] => ⟨"", none⟩
  | name :: names =>
    match handle name with
    | .error e => ⟨"", some e⟩
    | .ok s =>
      let rest := forFiles handle names
      { rest with text := s ++ rest.text }

/-- The well-formed block of a file. -/
def readBlock (w : World) (name : String) : Except Error Block :=
  match w.file name with
  | none => .error (.noFile name)
  | some text => Block.readChecked text

/-- Names the task and the file that an error belongs to. -/
def onFile {α : Type} (task name : String) : Except Error α → Except Error α :=
  Except.mapError (.within (task ++ " " ++ name))

/-- The flags of `opt`. -/
def optFlags : FlagKinds :=
  [("level", .integer), ("unroll", .integer), ("precise", .yesNo), ("addr", .text),
    ("trees", .yesNo), ("spec", .yesNo), ("stats", .yesNo)]

/-- The optimizer that flags and environment ask for. -/
def optimizer (w : World) (fs : Flags) : Optimizer where
  level := fs.integer "level" (intSetting w "IROPT_LEVEL" Optimizer.default.level)
  unrollThresh :=
    fs.integer "unroll" (intSetting w "IROPT_UNROLL_THRESH" Optimizer.default.unrollThresh)
  preciseMemory := fs.yesNo "precise" (yesSetting w "IROPT_PRECISE_MEM_EXNS")
  precise := .none
  specializer := if fs.yesNo "spec" false then Sample.specializer else fun _ _ => none

/-- The address that the flags give, if they do. -/
def address (fs : Flags) : Except Error (Option UInt64) :=
  match fs.text? "addr" with
  | none => .ok none
  | some s =>
    match Numeral.read s with
    | .ok a => .ok (some a)
    | .error flaw => .error (.within "parse addr" (.numeral s flaw))

/-- The subcommand `opt` prints the optimized blocks, as trees if asked to. -/
def opt (w : World) (fs : Flags) (names : List String) : Printed :=
  let o := optimizer w fs
  match address fs with
  | .error e => ⟨"", some e⟩
  | .ok addr =>
    forFiles (fun name => do
      let r ← onFile "optimize" name do
        let b ← readBlock w name
        (o.compile b addr).result
      let r ← if fs.yesNo "trees" false then
          onFile "build trees" name (Optimizer.buildTrees r).result
        else .ok r
      .ok (Item.block r).render) names

/-- The subcommand `check` says that the blocks are well formed, and flat if asked to. -/
def check (w : World) (fs : Flags) (names : List String) : Printed :=
  forFiles (fun name => onFile "check" name do
    let b ← readBlock w name
    if fs.yesNo "flat" false then
      (b.check true).mapError .fault
    .ok s!"{name}: ok ({b.length} statements, {b.temps.size} temps)\n") names

/-- The subcommand `fmt` prints the blocks. -/
def fmt (w : World) (names : List String) : Printed :=
  forFiles (fun name => onFile "fmt" name do
    let b ← readBlock w name
    .ok (Item.block b).render) names

/-- Eight hexadecimal digits behind `0x`. -/
def hex32 (v : UInt32) : String :=
  let digits := Nat.toDigits 16 v.toNat
  "0x" ++ String.ofList (List.replicate (8 - digits.length) '0' ++ digits)

/-- A decimal number in at least three places. -/
def threePlaces (n : Nat) : String :=
  let digits := Nat.toDigits 10 n
  String.ofList (List.replicate (3 - digits.length) ' ' ++ digits)

/-- The line for a word that changed. -/
def changeLine (place : String) (was now : UInt32) : String :=
  if was = now then "" else "  " ++ place ++ ": " ++ hex32 was ++ " -> " ++ hex32 now ++ "\n"

/-- The lines for the registers and the memory words that changed. -/
def changes (was now : State) : Except Fault String := do
  let regs ← (List.range (was.regs.size / 4)).mapM fun i => do
    let a ← was.reg32 (.ofNat (4 * i))
    let b ← now.reg32 (.ofNat (4 * i))
    .ok (changeLine ("reg " ++ threePlaces (4 * i)) a b)
  let mem := (List.range (Sample.memBytes.toNat / 4)).map fun i =>
    let a := Sample.memBase + .ofNat (4 * i)
    changeLine ("mem " ++ Numeral.hex a) (was.load32 a) (now.load32 a)
  .ok (String.join (regs ++ mem))

/-- The line that says where a block went. -/
def jumpLine (name : String) (r : Result) : String :=
  name ++ ": goto \x7b" ++ r.kind.name ++ "\x7d " ++ Numeral.hex r.target ++ " (exit "
    ++ (match r.exit with
      | some i => toString i
      | none => "-1")
    ++ ")\n"

/-- The subcommand `run` runs the blocks from a state of zeros and prints where they went and what
they changed. -/
def run (w : World) (names : List String) : Printed :=
  forFiles (fun name => onFile "run" name do
    let b ← readBlock w name
    let start := State.zero Sample.regBytes
    let r := b.run start Sample.env
    let res ← r.outcome.mapError .fault
    let lines ← (changes start r.state).mapError .fault
    .ok (jumpLine name res ++ lines)) names

/-- The fuel for generating one block, far beyond what a block takes. -/
def genFuel : Nat := 100000

/-- The text of `n` generated blocks. -/
def generated (c : Sample.Config) : Nat → UInt64 → Printed
  | 0, _ => ⟨"", none⟩
  | n + 1, s =>
    match Sample.block SplitMix.source c genFuel s with
    | .error _ => ⟨"", some (.fault .crash)⟩
    | .ok (b, s) =>
      let rest := generated c n s
      { rest with text := (Item.block b).render ++ rest.text }

/-- The flags of `gen`. -/
def genFlags : FlagKinds :=
  [("seed", .integer), ("n", .integer), ("stmts", .integer), ("depth", .integer)]

/-- The subcommand `gen` prints generated blocks. -/
def gen (fs : Flags) : Printed :=
  generated ⟨0x400000, fs.integer "stmts" 24, fs.integer "depth" 3⟩
    (fs.integer "n" 1).toNatClampNeg (fs.integer "seed" 1).toUInt64

/-! ## The program -/

/-- Whether an error is a crash, which ends the program without a message. -/
def isCrash (e : Error) : Bool :=
  match e.root with
  | .fault .crash => true
  | _ => false

/-- The end of a subcommand. -/
def finish (command : String) (p : Printed) : Outcome :=
  match p.error with
  | none => ⟨p.text, 0, none⟩
  | some e =>
    if isCrash e then ⟨p.text, 2, none⟩
    else ⟨p.text, 1, some (command ++ ": " ++ e.message)⟩

/-- Runs a subcommand on its flags and file names. -/
def subcommand (command : String) (kinds : FlagKinds) (args : List String)
    (act : Flags → List String → Printed) : Outcome :=
  finish command (match split kinds args with
    | .error e => ⟨"", some e⟩
    | .ok (fs, names) => act fs names)

/-- Runs the program on its arguments. -/
def program (w : World) (args : List String) : Outcome :=
  match args.dropWhile (·.startsWith "-") with
  | [] => ⟨"", 0, none⟩
  | command :: rest =>
    match command with
    | "opt" => subcommand command optFlags rest (opt w)
    | "check" => subcommand command [("flat", .yesNo)] rest (check w)
    | "fmt" => subcommand command [] rest fun _ names => fmt w names
    | "run" => subcommand command [("seed", .integer)] rest fun _ names => run w names
    | "gen" => subcommand command genFlags rest fun fs _ => gen fs
    | _ => ⟨"", 1, some ("no such command: " ++ command)⟩

end CommandLine
end Straightline
