import Straightline.BitSet

/-!
# Dense sets in memory

Sets that are changed in place. Each numbered set has a buffer of two words, and a slice that says
where its words are: nowhere at first, in its own buffer from the first write on, or in an array on
its own once it has outgrown the buffer or was made by another set. A step writes to memory through
the slice, so two sets whose slices showed the same words would change together.

A slice that has to grow stays where it is as long as there is capacity behind it and moves to a new
array otherwise. How much capacity a new array has beyond what is asked for is left open: `spare`
gives it, from the number of words that move.

Writing through a slice beyond its length is refused, and so are the negative keys of which `BitSet`
speaks. A refusal returns the memory as it was left.
-/

namespace Straightline

/-- What words are stored in: the buffer of a set, or an array. -/
inductive Storage where
  | buffer (set : Nat)
  | array (n : Nat)
deriving DecidableEq

/-- The first words of a storage. -/
structure Slice where
  storage : Storage
  length : Nat

/-- The memory of numbered sets: what is stored, how many arrays there are, and the slices. -/
structure SetMemory where
  stored : Storage → Array UInt64
  arrays : Nat
  slice? : Nat → Option Slice

namespace SetMemory

/-- No set has been written to. -/
def start : SetMemory where
  stored
    | .buffer _ => #[0, 0]
    | .array _ => #[]
  arrays := 0
  slice? _ := none

/-- The words that a slice shows. -/
def wordsOf (m : SetMemory) (sl : Slice) : Array UInt64 := (m.stored sl.storage).take sl.length

/-- What a set holds: the words that its slice shows. -/
def view (m : SetMemory) (s : Nat) : BitSet :=
  match m.slice? s with
  | none => .empty
  | some sl => ⟨m.wordsOf sl⟩

/-- Writes a storage anew. -/
def put (m : SetMemory) (p : Storage) (words : Array UInt64) : SetMemory :=
  { m with stored := fun q => if q = p then words else m.stored q }

/-- Gives a set another slice. -/
def point (m : SetMemory) (s : Nat) (sl : Slice) : SetMemory :=
  { m with slice? := fun t => if t = s then some sl else m.slice? t }

/-- One more array, with the given words. -/
def allocate (m : SetMemory) (words : Array UInt64) : SetMemory :=
  { m.put (.array m.arrays) words with arrays := m.arrays + 1 }

/-- Puts a set together anew from a slice: its own buffer is zero again. -/
def assign (m : SetMemory) (s : Nat) (sl : Slice) : SetMemory :=
  (m.put (.buffer s) #[0, 0]).point s sl

/-- Changes the word with index `i` of a set, through its slice. -/
def modify (m : SetMemory) (s i : Nat) (f : UInt64 → UInt64) : Except SetMemory SetMemory :=
  match m.slice? s with
  | none => .error m
  | some sl =>
    if i < sl.length then .ok (m.put sl.storage ((m.stored sl.storage).modify i f)) else .error m

section Growth

variable (spare : Nat → Nat)

/-- Makes the slice of a set longer by a zero word. -/
def append (m : SetMemory) (s : Nat) (sl : Slice) : SetMemory :=
  let words := m.stored sl.storage
  if sl.length < words.size then
    (m.put sl.storage (words.setIfInBounds sl.length 0)).point s ⟨sl.storage, sl.length + 1⟩
  else
    let moved := (m.wordsOf sl).push 0 ++ Array.replicate (spare sl.length) 0
    (m.allocate moved).point s ⟨.array m.arrays, sl.length + 1⟩

/-- Makes the slice of a set longer by `n` zero words. -/
def extend (s : Nat) : Nat → SetMemory → SetMemory
  | 0, m => m
  | n + 1, m =>
    match m.slice? s with
    | none => m
    | some sl => extend s n (m.append spare s sl)

/-- Makes room for `n` words; a set without a slice begins with its buffer. -/
def grow (m : SetMemory) (s n : Nat) : SetMemory :=
  let m :=
    match m.slice? s with
    | none => m.point s ⟨.buffer s, 2⟩
    | some _ => m
  m.extend spare s (n - (m.view s).words.size)

/-- Adds a key to a set; refuses a negative key. -/
def insert (m : SetMemory) (s : Nat) (k : Int) : Except SetMemory SetMemory :=
  match k with
  | .ofNat k => (m.grow spare s (k / 64 + 1)).modify s (k / 64) (· ||| BitSet.bit k)
  | .negSucc _ => .error (m.grow spare s 0)

/-- Adds the members of set `t` to set `s`. The slice of `t` is read word by word, as it stood before
`s` was given room. -/
def merge (m : SetMemory) (s t : Nat) : Except SetMemory SetMemory :=
  match m.slice? t with
  | none => .ok (m.grow spare s 0)
  | some sl =>
    (List.range sl.length).foldlM
      (fun m i => m.modify s i (· ||| (m.stored sl.storage)[i]?.getD 0))
      (m.grow spare s sl.length)

end Growth

/-- Removes a key from a set; refuses a negative key, unless the set has no words and `-64 < k`. -/
def erase (m : SetMemory) (s : Nat) (k : Int) : Except SetMemory SetMemory :=
  match m.slice? s, k with
  | none, .ofNat _ => .ok m
  | none, .negSucc k => if k < 63 then .ok m else .error m
  | some sl, .ofNat k =>
    if k / 64 < sl.length then m.modify s (k / 64) (· &&& ~~~BitSet.bit k) else .ok m
  | some _, .negSucc _ => .error m

/-- Removes all members from a set. -/
def clear (m : SetMemory) (s : Nat) : Except SetMemory SetMemory :=
  (List.range (m.view s).words.size).foldlM (fun m i => m.modify s i fun _ => 0) m

/-- Makes a set anew, empty and with room for the keys below `n`. -/
def make (m : SetMemory) (s : Nat) (n : Int) : SetMemory :=
  let words := (BitSet.ofCapacity n).words
  (m.allocate words).assign s ⟨.array m.arrays, words.size⟩

/-- Makes set `s` a copy of set `t`: a new array takes the words of `t`. -/
def copy (m : SetMemory) (s t : Nat) : SetMemory :=
  let words := (m.view t).words
  let room := (BitSet.ofCapacity (words.size * 64 : Nat)).words
  let copied := words ++ room.drop words.size
  ((m.allocate room).put (.array m.arrays) copied).assign s ⟨.array m.arrays, room.size⟩

end SetMemory
end Straightline
