import Straightline.Access
import Straightline.Fault
import Straightline.Text.Reader

/-!
# Journals

Passes and the pipeline record what they do. A `Journaled` computation ends in a value or an error
and has recorded events either way, so the journal of a failed run shows how far it got.

`result` forgets the events: it commutes with sequencing (`result_bind`), so that what is computed
can be reasoned about without the journal.
-/

namespace Straightline

/-! ## Errors -/

/-- A setting of the optimizer that is out of its range. -/
inductive Misconfigured where
  | level (max given : Int64)
  | unrollThreshold (max given : Int64)

def Misconfigured.message : Misconfigured → String
  | level max n => s!"level out of range [0, {max.toInt}]: {n.toInt}"
  | unrollThreshold max n => s!"unroll threshold out of range [0, {max.toInt}]: {n.toInt}"

/-- Why a task on blocks failed. -/
inductive Error where
  | fault (f : Fault)
  | misconfigured (e : Misconfigured)
  | text (e : Located)
  /-- A file that cannot be read. -/
  | noFile (name : String)
  /-- A text that should be a number without sign. -/
  | numeral (text : String) (flaw : Numeral.Flaw)
  /-- A text that should be a signed number. -/
  | integer (text : String) (flaw : Numeral.Flaw)
  /-- A text that should mean yes or no. -/
  | notYesNo
  /-- A flag that the subcommand does not have. -/
  | noSuchFlag
  /-- An error in the course of a task. -/
  | within (task : String) (e : Error)

/-! ## Events -/

/-- The steps of the pipeline. -/
inductive Stage where
  | flat | gets | puts | cprop | dead | spec | cse | chains | getis | putis | unroll | trees
deriving DecidableEq

def Stage.name : Stage → String
  | flat => "flat"
  | gets => "gets"
  | puts => "puts"
  | cprop => "cprop"
  | dead => "dead"
  | spec => "spec"
  | cse => "cse"
  | chains => "chains"
  | getis => "getis"
  | putis => "putis"
  | unroll => "unroll"
  | trees => "trees"

/-- What the optimizer counts. -/
inductive Counter where
  | blocks | expensive | unrolled
deriving DecidableEq

/-- Something that happened. -/
inductive Event where
  | optimizing (addr : UInt64) (stmts : Nat) (level : Int64)
  | cleaning (stmts : Nat)
  | buildingTrees (stmts : Nat)
  /-- A stage took a block of `before` statements to one of `after`. -/
  | stage (s : Stage) (before after : Nat)
  /-- The block that a stage ended with. -/
  | block (s : Stage) (b : Block)
  /-- The last exit, number `stmt`, now leaves the loop instead of repeating it. -/
  | exitInverted (stmt : Nat) (addr : UInt64)
  | loopTooBig (addr : UInt64) (size : Nat) (thresh : Int64)
  | unrolled (factor stmts : Nat)
  /-- An indexed read stays: the search for its value ended at statement `stop`. -/
  | readKept (stmt stop : Nat) (rel : Relation) (bounds : Region)
  /-- An indexed read takes the value written by statement `source`. -/
  | readForwarded (stmt source : Nat) (bounds : Region)
  /-- An indexed write goes, since statement `later` writes the same element. -/
  | writeRemoved (stmt later : Nat) (bounds : Region)
  /-- The temporaries whose assignments went, if any did. -/
  | deadCode (removed : Option (List Nat)) (before after : Nat)
  /-- The temporaries that the jump uses. -/
  | liveOut (live : List Nat)
  | counted (c : Counter)

namespace Event

/-- Which readers of the journal an event is for. -/
inductive Audience where
  | everyone
  | topic (name : String)
  | noOne

def audience : Event → Audience
  | optimizing _ _ _ | cleaning _ | buildingTrees _ => .everyone
  | stage _ _ _ => .topic "iropt_pass"
  | block s _ => .topic ("dump_" ++ s.name)
  | exitInverted _ _ | loopTooBig _ _ _ | unrolled _ _ => .topic "iropt_unroll"
  | readKept _ _ _ _ | readForwarded _ _ _ | writeRemoved _ _ _ => .topic "iropt_alias"
  | deadCode _ _ _ => .topic "iropt_dead"
  | liveOut _ => .topic "dump_dead_live"
  | counted _ => .noOne

/-- Whether a reader of the given topics sees the event. -/
def isFor (topics : List String) (e : Event) : Bool :=
  match e.audience with
  | .everyone => true
  | .topic t => topics.contains t
  | .noOne => false

end Event

/-! ## Counters -/

/-- How many blocks were optimized, how many took the expensive stages, how many were unrolled. -/
structure Stats where
  blocks : Nat
  expensive : Nat
  unrolled : Nat
deriving DecidableEq

/-- The counters after an event. -/
def Stats.after (s : Stats) : Event → Stats
  | .counted .blocks => { s with blocks := s.blocks + 1 }
  | .counted .expensive => { s with expensive := s.expensive + 1 }
  | .counted .unrolled => { s with unrolled := s.unrolled + 1 }
  | _ => s

/-! ## Journaled computations -/

/-- The events of a computation, first to last, and how it ended. -/
structure Journaled (α : Type) where
  events : List Event
  result : Except Error α

namespace Journaled

variable {α β : Type}

/-- Goes on with `f` behind a value; an error ends the computation. -/
def andThen (x : Journaled α) (f : α → Journaled β) : Journaled β :=
  match x.result with
  | .error e => ⟨x.events, .error e⟩
  | .ok a => ⟨x.events ++ (f a).events, (f a).result⟩

instance : Monad Journaled where
  pure a := ⟨[], .ok a⟩
  bind := andThen

/-- Records an event. -/
def record (e : Event) : Journaled Unit := ⟨[e], .ok ()⟩

/-- A computation that records nothing. -/
def silent : Except Fault α → Journaled α
  | .ok a => ⟨[], .ok a⟩
  | .error f => ⟨[], .error (.fault f)⟩

/-- Names the task that a computation is part of. -/
def within (task : String) (x : Journaled α) : Journaled α :=
  { x with result := x.result.mapError (.within task) }

@[simp]
theorem result_pure (a : α) : (pure a : Journaled α).result = .ok a := rfl

@[simp]
theorem result_bind (x : Journaled α) (f : α → Journaled β) :
    (x >>= f).result = x.result >>= fun a => (f a).result := by
  show (andThen x f).result = x.result.bind fun a => (f a).result
  unfold andThen
  cases x.result <;> rfl

@[simp]
theorem result_record (e : Event) : (record e).result = .ok () := rfl

@[simp]
theorem result_silent (x : Except Fault α) : (silent x).result = x.mapError .fault := by
  cases x <;> rfl

theorem result_bind_eq_ok {x : Journaled α} {f : α → Journaled β} {b : β} :
    (x >>= f).result = .ok b ↔ ∃ a, x.result = .ok a ∧ (f a).result = .ok b := by
  rw [result_bind]
  cases x.result with
  | error e => simp [bind, Except.bind]
  | ok a => simp [bind, Except.bind]

theorem result_silent_eq_ok {x : Except Fault α} {a : α} :
    (silent x).result = .ok a ↔ x = .ok a := by
  cases x <;> simp [silent]

end Journaled
end Straightline
