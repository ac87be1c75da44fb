import Mathlib
import Straightline.SetMemory
import Straightline.Proofs.FiniteSets

/-!
# Sets in memory do not share words

No two sets keep their words in the same storage, and a set that has no slice yet finds its buffer
zero (`Separate`). Whatever a set writes, it writes to a storage that is its own, so the other sets
go on showing what they showed: that is said once, for any step that leaves a set with a storage of
its own (`changes_of_owned`), and every operation is such a step or a row of them. On its target an
operation does what the operation on dense sets of the same name does.

A program over numbered sets is a list of `SetStep`s. What one step does to the members of its
target is said with the operations on finite sets. By induction every program takes the sets in
memory and the finite sets that they stand for through the same steps.
-/

namespace Straightline
namespace SetMemory

variable {m m₁ m₂ : SetMemory} {s : Nat}

/-- Every slice lies within its storage, no two sets have the same storage, no set has the buffer of
another or an array that is still to come, and the buffer of a set without a slice is zero. -/
structure Separate (m : SetMemory) : Prop where
  two_le : ∀ {s sl}, m.slice? s = some sl → 2 ≤ sl.length
  length_le : ∀ {s sl}, m.slice? s = some sl → sl.length ≤ (m.stored sl.storage).size
  buffer : ∀ {s sl i}, m.slice? s = some sl → sl.storage = .buffer i → i = s
  array : ∀ {s sl n}, m.slice? s = some sl → sl.storage = .array n → n < m.arrays
  apart : ∀ {s t sl sl'}, m.slice? s = some sl → m.slice? t = some sl' →
    sl.storage = sl'.storage → s = t
  idle : ∀ {s}, m.slice? s = none → m.stored (.buffer s) = #[0, 0]

theorem start_separate : start.Separate where
  two_le h := by cases h
  length_le h := by cases h
  buffer h := by cases h
  array h := by cases h
  apart h := by cases h
  idle _ := rfl

/-- A step that makes `b` of set `s` and nothing of the others. -/
structure Changes (m : SetMemory) (s : Nat) (b : BitSet) (m' : SetMemory) : Prop where
  separate : m'.Separate
  target : m'.view s = b
  others : ∀ t, t ≠ s → m'.slice? t = m.slice? t
  frame : ∀ t, t ≠ s → m'.view t = m.view t

theorem Changes.refl (hm : m.Separate) (s : Nat) : m.Changes s (m.view s) m :=
  ⟨hm, rfl, fun _ _ => rfl, fun _ _ => rfl⟩

theorem Changes.trans {b c : BitSet} (h₁ : m.Changes s b m₁) (h₂ : m₁.Changes s c m₂) :
    m.Changes s c m₂ where
  separate := h₂.separate
  target := h₂.target
  others t ht := (h₂.others t ht).trans (h₁.others t ht)
  frame t ht := (h₂.frame t ht).trans (h₁.frame t ht)

/-! ## Storages -/

theorem view_of_slice {sl : Slice} (h : m.slice? s = some sl) : m.view s = ⟨m.wordsOf sl⟩ := by
  simp [view, h]

theorem view_of_no_slice (h : m.slice? s = none) : m.view s = .empty := by
  simp [view, h]

theorem Separate.size_view (hm : m.Separate) {sl : Slice} (h : m.slice? s = some sl) :
    (m.view s).words.size = sl.length := by
  rw [view_of_slice h, wordsOf, Array.take_eq_extract, Array.size_extract]
  have := hm.length_le h
  omega

/-- A storage that no other set has, be it that set `s` has it or nobody. -/
structure Free (m : SetMemory) (s : Nat) (p : Storage) : Prop where
  unused : ∀ {t sl}, t ≠ s → m.slice? t = some sl → sl.storage ≠ p
  buffer : ∀ {i}, p = .buffer i → i = s

theorem Separate.free_of_slice (hm : m.Separate) {sl : Slice} (h : m.slice? s = some sl) :
    m.Free s sl.storage where
  unused ht hsl heq := ht (hm.apart hsl h heq)
  buffer := hm.buffer h

theorem Separate.free_buffer (hm : m.Separate) (s : Nat) : m.Free s (.buffer s) where
  unused ht hsl heq := ht (hm.buffer hsl heq).symm
  buffer h := (Storage.buffer.inj h).symm

theorem Separate.free_array (hm : m.Separate) (s : Nat) : m.Free s (.array m.arrays) where
  unused _ hsl heq := Nat.lt_irrefl _ (hm.array hsl heq)
  buffer h := by cases h

/-- A set that writes to a free storage only, and has its slice there afterwards, changes itself and
no other set. -/
theorem changes_of_owned (m₁ : SetMemory) (hm : m.Separate) {p : Storage} {n : Nat}
    (hfree : m.Free s p) (hslice : m₁.slice? s = some ⟨p, n⟩)
    (hothers : ∀ t, t ≠ s → m₁.slice? t = m.slice? t) (harrays : m.arrays ≤ m₁.arrays)
    (harray : ∀ k, p = .array k → k < m₁.arrays)
    (hstored : ∀ q, q ≠ p → q ≠ .buffer s → m₁.stored q = m.stored q)
    (hn : 2 ≤ n) (hsize : n ≤ (m₁.stored p).size) :
    m.Changes s ⟨(m₁.stored p).take n⟩ m₁ := by
  -- what is stored for another set is neither in `p` nor in the buffer of `s`
  have hkept {t : Nat} {sl : Slice} (ht : t ≠ s) (h : m.slice? t = some sl) :
      m₁.stored sl.storage = m.stored sl.storage :=
    hstored _ (hfree.unused ht h) fun heq => ht (hm.buffer h heq).symm
  have hcases {t : Nat} {sl : Slice} (h : m₁.slice? t = some sl) :
      t = s ∧ sl = ⟨p, n⟩ ∨ t ≠ s ∧ m.slice? t = some sl := by
    by_cases ht : t = s
    · rw [ht, hslice] at h
      exact .inl ⟨ht, (Option.some.inj h).symm⟩
    · exact .inr ⟨ht, hothers t ht ▸ h⟩
  refine ⟨⟨?_, ?_, ?_, ?_, ?_, ?_⟩, ?_, hothers, ?_⟩
  · intro t sl h
    rcases hcases h with ⟨rfl, rfl⟩ | ⟨ht, h⟩
    · exact hn
    · exact hm.two_le h
  · intro t sl h
    rcases hcases h with ⟨rfl, rfl⟩ | ⟨ht, h⟩
    · exact hsize
    · rw [hkept ht h]
      exact hm.length_le h
  · intro t sl i h hi
    rcases hcases h with ⟨rfl, rfl⟩ | ⟨ht, h⟩
    · exact hfree.buffer hi
    · exact hm.buffer h hi
  · intro t sl k h hk
    rcases hcases h with ⟨rfl, rfl⟩ | ⟨ht, h⟩
    · exact harray k hk
    · exact (hm.array h hk).trans_le harrays
  · intro t u sl sl' h h' heq
    rcases hcases h with ⟨rfl, rfl⟩ | ⟨ht, h⟩ <;> rcases hcases h' with ⟨rfl, rfl⟩ | ⟨hu, h'⟩
    · rfl
    · exact absurd heq.symm (hfree.unused hu h')
    · exact absurd heq (hfree.unused ht h)
    · exact hm.apart h h' heq
  · intro t h
    have ht : t ≠ s := by
      rintro rfl
      rw [hslice] at h
      cases h
    rw [hstored _ (fun heq => ht (hfree.buffer heq.symm)) fun heq => ht (Storage.buffer.inj heq)]
    exact hm.idle (hothers t ht ▸ h)
  · exact view_of_slice hslice
  · intro t ht
    cases h : m.slice? t with
    | none => rw [view_of_no_slice h, view_of_no_slice ((hothers t ht).trans h)]
    | some sl =>
      rw [view_of_slice h, view_of_slice ((hothers t ht).trans h), wordsOf, wordsOf, hkept ht h]

/-! ## Growth -/

theorem slice?_point_self (m : SetMemory) (s : Nat) (sl : Slice) :
    (m.point s sl).slice? s = some sl := if_pos rfl

theorem slice?_point_of_ne {t : Nat} (ht : t ≠ s) (sl : Slice) :
    (m.point s sl).slice? t = m.slice? t := if_neg ht

theorem stored_put_self (m : SetMemory) (p : Storage) (words : Array UInt64) :
    (m.put p words).stored p = words := if_pos rfl

theorem stored_put_of_ne {p q : Storage} (hq : q ≠ p) (words : Array UInt64) :
    (m.put p words).stored q = m.stored q := if_neg hq

/-- A set without a slice begins with two zero words. -/
theorem point_buffer_changes (hm : m.Separate) (h : m.slice? s = none) :
    m.Changes s ⟨#[0, 0]⟩ (m.point s ⟨.buffer s, 2⟩) := by
  have hidle : (m.point s ⟨.buffer s, 2⟩).stored (.buffer s) = #[0, 0] := hm.idle h
  have hchanges := changes_of_owned (m.point s ⟨.buffer s, 2⟩) hm (hm.free_buffer s)
    (slice?_point_self m s _) (fun t ht => slice?_point_of_ne ht _) (le_refl _)
    (fun k hk => by cases hk) (fun q _ _ => rfl) (le_refl 2) (by rw [hidle]; simp)
  rwa [hidle] at hchanges

/-- Writing a storage of its own anew, a set shows the new words. -/
theorem put_point_changes (hm : m.Separate) {sl : Slice} (h : m.slice? s = some sl)
    {words : Array UInt64} {n : Nat} (hn : 2 ≤ n) (hsize : n ≤ words.size) :
    m.Changes s ⟨words.take n⟩ ((m.put sl.storage words).point s ⟨sl.storage, n⟩) := by
  have hput := stored_put_self m sl.storage words
  have hchanges := changes_of_owned ((m.put sl.storage words).point s ⟨sl.storage, n⟩) hm
    (hm.free_of_slice h) (slice?_point_self _ s _) (fun t ht => slice?_point_of_ne ht _)
    (le_refl _) (fun k hk => hm.array h hk) (fun q hq _ => stored_put_of_ne hq words) hn
    (hsize.trans_eq (congrArg Array.size hput.symm))
  rwa [show ((m.put sl.storage words).point s ⟨sl.storage, n⟩).stored sl.storage = words from hput]
    at hchanges

/-- A set that moves to a new array shows the words that were put there, whatever is made of its
buffer. -/
theorem moved_changes (m₁ : SetMemory) (hm : m.Separate) {words : Array UInt64} {n : Nat}
    (hslice : m₁.slice? = (m.point s ⟨.array m.arrays, n⟩).slice?)
    (harrays : m₁.arrays = m.arrays + 1) (hnew : m₁.stored (.array m.arrays) = words)
    (hstored : ∀ q, q ≠ .array m.arrays → q ≠ .buffer s → m₁.stored q = m.stored q)
    (hn : 2 ≤ n) (hsize : n ≤ words.size) : m.Changes s ⟨words.take n⟩ m₁ := by
  have hself : m₁.slice? s = some ⟨.array m.arrays, n⟩ := by rw [hslice, slice?_point_self]
  rw [← hnew]
  refine changes_of_owned m₁ hm (hm.free_array s) hself ?_ (by omega) ?_ hstored hn (hnew ▸ hsize)
  · intro t ht
    rw [hslice, slice?_point_of_ne ht]
  · intro k hk
    rw [← Storage.array.inj hk]
    omega

section Growth

variable (spare : Nat → Nat)

theorem append_changes (hm : m.Separate) {sl : Slice} (h : m.slice? s = some sl) :
    m.Changes s ⟨(m.view s).words.push 0⟩ (m.append spare s sl) := by
  have htwo := hm.two_le h
  have hsize := hm.size_view h
  rw [view_of_slice h] at hsize ⊢
  simp only [append]
  split
  · rename_i hlt
    have hwords : (m.wordsOf sl).push 0 =
        ((m.stored sl.storage).setIfInBounds sl.length 0).take (sl.length + 1) := by
      rw [wordsOf, Array.take_eq_extract, Array.take_eq_extract]
      apply Array.ext_getElem?
      intro i
      rw [Array.getElem?_push, Array.size_extract, Array.getElem?_extract, Array.getElem?_extract,
        Array.getElem?_setIfInBounds, Array.size_setIfInBounds]
      grind
    rw [hwords]
    exact put_point_changes hm h (by omega) (by rw [Array.size_setIfInBounds]; exact hlt)
  · have hpush : ((m.wordsOf sl).push 0).size = sl.length + 1 := by rw [Array.size_push, hsize]
    generalize hmoved : (m.wordsOf sl).push 0 ++ Array.replicate (spare sl.length) 0 = moved
    have hwords : (m.wordsOf sl).push 0 = moved.take (sl.length + 1) := by
      rw [← hmoved, ← hpush, Array.take_eq_extract, Array.extract_append_left, Array.extract_size]
    rw [hwords]
    refine moved_changes _ hm rfl rfl (stored_put_self _ _ _) (fun q hq _ => stored_put_of_ne hq _)
      (by omega) ?_
    rw [← hmoved, Array.size_append]
    omega

theorem extend_changes (hm : m.Separate) (h : m.slice? s ≠ none) (n : Nat) :
    m.Changes s ⟨(m.view s).words ++ Array.replicate n 0⟩ (m.extend spare s n) := by
  induction n generalizing m with
  | zero => simpa [extend] using Changes.refl hm s
  | succ n ih =>
    obtain ⟨sl, hsl⟩ := Option.ne_none_iff_exists'.mp h
    have happend := append_changes spare hm hsl
    have hslice : (m.append spare s sl).slice? s ≠ none := by
      simp only [append]
      split <;> simp [slice?_point_self]
    have hrest := happend.trans (ih happend.separate hslice)
    rw [happend.target] at hrest
    have hwords : (m.view s).words.push 0 ++ Array.replicate n 0 =
        (m.view s).words ++ Array.replicate (n + 1) 0 := by
      rw [Array.push_eq_append, Array.append_assoc, Nat.add_comm, ← Array.replicate_append_replicate]
      rfl
    rw [extend, hsl, ← hwords]
    exact hrest

/-- Growing a set makes room in it. -/
theorem grow_changes (hm : m.Separate) (s n : Nat) :
    m.Changes s ((m.view s).reserve (n - 1)) (m.grow spare s n) := by
  cases h : m.slice? s with
  | none =>
    have hbegin := point_buffer_changes hm h
    have hextend := hbegin.trans (extend_changes spare hbegin.separate
      (by simp [slice?_point_self]) (n - 2))
    have hgrow : m.grow spare s n = (m.point s ⟨.buffer s, 2⟩).extend spare s (n - 2) := by
      simp only [grow, h, hbegin.target]
      rfl
    have hreserve : BitSet.empty.reserve (n - 1) = ⟨#[0, 0] ++ Array.replicate (n - 2) 0⟩ := by
      have hwant : max (n - 1 + 1) 2 = 2 + (n - 2) := by omega
      have hempty : BitSet.empty.reserve (n - 1) = ⟨Array.replicate (max (n - 1 + 1) 2) 0⟩ := by
        simp [BitSet.reserve, BitSet.empty]
      rw [hempty, hwant, ← Array.replicate_append_replicate]
      rfl
    rw [hbegin.target] at hextend
    rw [hgrow, view_of_no_slice h, hreserve]
    exact hextend
  | some sl =>
    have htwo := hm.two_le h
    have hsize := hm.size_view h
    have hgrow : m.grow spare s n = m.extend spare s (n - (m.view s).words.size) := by
      simp only [grow, h]
    have hreserve : (m.view s).reserve (n - 1) =
        ⟨(m.view s).words ++ Array.replicate (n - (m.view s).words.size) 0⟩ := by
      have hne : (m.view s).words.isEmpty = false := by
        rw [Array.isEmpty, decide_eq_false_iff_not]
        omega
      have hcount : max (n - 1 + 1) 0 - (m.view s).words.size = n - (m.view s).words.size := by
        omega
      simp only [BitSet.reserve, hne, Bool.false_eq_true, ↓reduceIte, hcount]
    rw [hgrow, hreserve]
    exact extend_changes spare hm (by simp [h]) _

end Growth

/-! ## Writing words -/

/-- A word within the slice can be changed, and the slices stay. -/
theorem modify_changes (hm : m.Separate) {i : Nat} (hi : i < (m.view s).words.size)
    (f : UInt64 → UInt64) :
    ∃ m', m.modify s i f = .ok m' ∧ m.Changes s ⟨(m.view s).words.modify i f⟩ m' ∧
      m'.slice? = m.slice? := by
  cases h : m.slice? s with
  | none =>
    rw [view_of_no_slice h] at hi
    exact absurd hi (Nat.not_lt_zero i)
  | some sl =>
    have hlen := hm.length_le h
    rw [hm.size_view h] at hi
    have hwords : (m.view s).words.modify i f =
        ((m.stored sl.storage).modify i f).take sl.length := by
      rw [view_of_slice h, wordsOf, Array.take_eq_extract, Array.take_eq_extract]
      apply Array.ext_getElem?
      intro j
      rw [Array.getElem?_modify, Array.getElem?_extract, Array.getElem?_extract,
        Array.getElem?_modify, Array.size_modify]
      grind
    let m' := m.put sl.storage ((m.stored sl.storage).modify i f)
    have hput : m'.stored sl.storage = (m.stored sl.storage).modify i f := stored_put_self ..
    refine ⟨m', by simp [modify, h, hi, m'], ?_, rfl⟩
    rw [hwords, ← hput]
    exact changes_of_owned m' hm (hm.free_of_slice h) h (fun _ _ => rfl) (le_refl _)
      (fun k hk => hm.array h hk) (fun q hq _ => stored_put_of_ne hq _) (hm.two_le h)
      (by rw [hput, Array.size_modify]; exact hlen)

theorem mapIdx_id (words : Array UInt64) : words.mapIdx (fun _ w => w) = words := by
  apply Array.ext_getElem?
  simp

/-- What a loop over the first `n` words, changing word `j` by `g j`, makes of a set. -/
def rewritten (b : BitSet) (g : Nat → UInt64 → UInt64) (n : Nat) : BitSet :=
  ⟨b.words.mapIdx fun j w => if j < n then g j w else w⟩

/-- A loop whose body changes the word it has come to changes the words up to there. What the body
does may depend on the memory that the loop has left so far. -/
theorem foldlM_changes (hm : m.Separate) {body : SetMemory → Nat → Except SetMemory SetMemory}
    (g : Nat → UInt64 → UInt64) {n : Nat} (hn : n ≤ (m.view s).words.size)
    (hbody : ∀ i < n, ∀ m', m.Changes s (rewritten (m.view s) g i) m' → m'.slice? = m.slice? →
      body m' i = m'.modify s i (g i)) :
    ∃ m', (List.range n).foldlM body m = .ok m' ∧ m.Changes s (rewritten (m.view s) g n) m' ∧
      m'.slice? = m.slice? := by
  induction n with
  | zero =>
    have hnone : rewritten (m.view s) g 0 = m.view s := by
      simp [rewritten, mapIdx_id]
    exact ⟨m, rfl, hnone.symm ▸ Changes.refl hm s, rfl⟩
  | succ n ih =>
    obtain ⟨m₁, hrun, hchanges, hslices⟩ := ih (by omega) fun i hi => hbody i (by omega)
    have hsize : (m₁.view s).words.size = (m.view s).words.size := by
      rw [hchanges.target, rewritten, Array.size_mapIdx]
    have hlt : n < (m₁.view s).words.size := by omega
    obtain ⟨m₂, hmodify, hstep, hsame⟩ := modify_changes hchanges.separate hlt (g n)
    refine ⟨m₂, ?_, ?_, hsame.trans hslices⟩
    · rw [List.range_succ, List.foldlM_append, hrun]
      show (body m₁ n >>= pure) = _
      rw [hbody n (by omega) m₁ hchanges hslices, hmodify]
      rfl
    · have hnext : (⟨(m₁.view s).words.modify n (g n)⟩ : BitSet) = rewritten (m.view s) g (n + 1) := by
        rw [hchanges.target, rewritten, rewritten, BitSet.mk.injEq]
        apply Array.ext_getElem?
        intro j
        rw [Array.getElem?_modify, Array.getElem?_mapIdx, Array.getElem?_mapIdx]
        grind
      rw [← hnext]
      exact hchanges.trans hstep

/-! ## Operations -/

variable (spare : Nat → Nat)

theorem insert_changes (hm : m.Separate) (s k : Nat) :
    ∃ m' b, m.insert spare s k = .ok m' ∧ (m.view s).insert k = .ok b ∧ m.Changes s b m' := by
  have hgrow := grow_changes spare hm s (k / 64 + 1)
  have hroom := BitSet.lt_size_reserve (s := m.view s) (k / 64)
  rw [← Nat.add_sub_cancel (k / 64) 1, ← hgrow.target, Nat.add_sub_cancel] at hroom
  obtain ⟨m', hmodify, hchanges, -⟩ := modify_changes hgrow.separate hroom (· ||| BitSet.bit k)
  refine ⟨m', _, hmodify, rfl, ?_⟩
  rw [hgrow.target] at hchanges
  exact hgrow.trans hchanges

theorem erase_changes (hm : m.Separate) (s k : Nat) :
    ∃ m' b, m.erase s k = .ok m' ∧ (m.view s).erase k = .ok b ∧ m.Changes s b m' := by
  by_cases hk : k / 64 < (m.view s).words.size
  · obtain ⟨m', hmodify, hchanges, -⟩ := modify_changes hm hk (· &&& ~~~BitSet.bit k)
    refine ⟨m', _, ?_, rfl, hchanges⟩
    cases h : m.slice? s with
    | none => simp [view_of_no_slice h, BitSet.empty] at hk
    | some sl =>
      rw [hm.size_view h] at hk
      simp only [erase, h]
      rw [← hmodify]
      exact if_pos hk
  · -- there is no word to write
    have hsame : (m.view s).erase k = .ok (m.view s) := by
      have hmodify : (m.view s).words.modify (k / 64) (· &&& ~~~BitSet.bit k) = (m.view s).words := by
        apply Array.ext_getElem?
        intro j
        rw [Array.getElem?_modify]
        grind
      rw [← Int.ofNat_eq_natCast, BitSet.erase, hmodify]
    refine ⟨m, m.view s, ?_, hsame, Changes.refl hm s⟩
    cases h : m.slice? s with
    | none => simp only [erase, h]
    | some sl =>
      rw [hm.size_view h] at hk
      simp only [erase, h]
      exact if_neg hk

theorem clear_changes (hm : m.Separate) (s : Nat) :
    ∃ m', m.clear s = .ok m' ∧ m.Changes s (m.view s).clear m' := by
  obtain ⟨m', hrun, hchanges, -⟩ := foldlM_changes (s := s) hm (fun _ _ => 0) (le_refl _)
    fun _ _ _ _ _ => rfl
  refine ⟨m', hrun, ?_⟩
  have hclear : rewritten (m.view s) (fun _ _ => 0) (m.view s).words.size = (m.view s).clear := by
    rw [rewritten, BitSet.clear, BitSet.mk.injEq]
    apply Array.ext_getElem?
    intro j
    rw [Array.getElem?_mapIdx, Array.getElem?_map]
    grind
  rwa [hclear] at hchanges

/-- A set put together anew from a new array shows the words that were put there. -/
theorem assign_changes (m₁ : SetMemory) (hm : m.Separate) {words : Array UInt64}
    (hslice : m₁.slice? = m.slice?) (harrays : m₁.arrays = m.arrays + 1)
    (hnew : m₁.stored (.array m.arrays) = words)
    (hstored : ∀ q, q ≠ .array m.arrays → m₁.stored q = m.stored q) (hsize : 2 ≤ words.size) :
    m.Changes s ⟨words⟩ (m₁.assign s ⟨.array m.arrays, words.size⟩) := by
  have hassigned (q : Storage) (hq : q ≠ .buffer s) :
      (m₁.assign s ⟨.array m.arrays, words.size⟩).stored q = m₁.stored q := stored_put_of_ne hq _
  have hchanges := moved_changes (m₁.assign s ⟨.array m.arrays, words.size⟩) hm
    (by simp only [assign, point, put, hslice]) harrays ((hassigned _ (by simp)).trans hnew)
    (fun q hq hs => (hassigned q hs).trans (hstored q hq)) hsize (le_refl _)
  rwa [Array.take_eq_extract, Array.extract_size] at hchanges

theorem make_changes (hm : m.Separate) (s : Nat) (n : Int) :
    m.Changes s (.ofCapacity n) (m.make s n) := by
  have hsize : 2 ≤ (BitSet.ofCapacity n).words.size := by
    rw [BitSet.ofCapacity, Array.size_replicate]
    omega
  exact assign_changes (m.allocate (BitSet.ofCapacity n).words) hm rfl rfl (stored_put_self ..)
    (fun q hq => stored_put_of_ne hq _) hsize

/-- A set has no words or two at least. -/
theorem Separate.size_view_ne_one (hm : m.Separate) (t : Nat) : (m.view t).words.size ≠ 1 := by
  cases h : m.slice? t with
  | none => simp [view_of_no_slice h, BitSet.empty]
  | some sl =>
    rw [hm.size_view h]
    have := hm.two_le h
    omega

theorem copy_changes (hm : m.Separate) (s t : Nat) :
    m.Changes s (m.view t).copy (m.copy s t) := by
  let words := (m.view t).words
  let room := (BitSet.ofCapacity (words.size * 64 : Nat)).words
  have hroom : room = Array.replicate (max 2 words.size) 0 := by
    have hcount : (words.size * 64 + 63) / 64 = words.size := by omega
    simp only [room, BitSet.ofCapacity, Int.toNat_natCast, hcount]
  have hcopied : (m.view t).copy = ⟨words ++ room.drop words.size⟩ := by
    have hone := hm.size_view_ne_one t
    have hcount : max (0 + 1) (if words.isEmpty then 2 else 0) - words.size =
        max 2 words.size - words.size := by
      rw [Array.isEmpty]
      grind
    rw [hroom, Array.drop_eq_extract, Array.extract_replicate, BitSet.copy, BitSet.reserve]
    grind
  have hsize : (words ++ room.drop words.size).size = room.size := by
    rw [Array.size_append, Array.drop_eq_extract, Array.size_extract, hroom, Array.size_replicate]
    omega
  have hchanges := assign_changes (s := s)
    ((m.allocate room).put (.array m.arrays) (words ++ room.drop words.size)) hm rfl rfl
    (stored_put_self ..)
    (fun q hq => (stored_put_of_ne hq _).trans (stored_put_of_ne hq _))
    (by rw [hsize, hroom, Array.size_replicate]; omega)
  rw [hcopied]
  rwa [hsize] at hchanges

theorem stored_of_slice {t : Nat} {sl : Slice} (h : m.slice? t = some sl) {i : Nat}
    (hi : i < sl.length) : (m.stored sl.storage)[i]? = (m.view t).words[i]? := by
  rw [view_of_slice h, wordsOf, Array.take_eq_extract, Array.getElem?_extract]
  grind

theorem grow_eq_self {sl : Slice} (hm : m.Separate) (h : m.slice? s = some sl) :
    m.grow spare s sl.length = m := by
  simp only [grow, h, hm.size_view h, Nat.sub_self]
  rfl

/-- Or-ing the words of `v` into a set with room for them is the union. -/
theorem rewritten_reserve (u v : BitSet) :
    rewritten (u.reserve (v.words.size - 1)) (fun j w => w ||| v.words[j]?.getD 0) v.words.size =
      u.union v := by
  rw [rewritten, BitSet.union, BitSet.mk.injEq]
  apply Array.ext_getElem?
  intro j
  rw [Array.getElem?_mapIdx, Array.getElem?_mapIdx]
  by_cases hj : j < v.words.size <;> simp [hj]

theorem merge_changes (hm : m.Separate) (s t : Nat) :
    ∃ m', m.merge spare s t = .ok m' ∧ m.Changes s ((m.view s).union (m.view t)) m' := by
  cases h : m.slice? t with
  | none =>
    have hunion : (m.view s).union (m.view t) = (m.view s).reserve (0 - 1) := by
      rw [view_of_no_slice h, BitSet.union, BitSet.empty]
      simp [mapIdx_id]
    refine ⟨m.grow spare s 0, by simp only [merge, h], ?_⟩
    rw [hunion]
    exact grow_changes spare hm s 0
  | some sl =>
    have hgrow := grow_changes spare hm s sl.length
    have hsize := hm.size_view h
    -- what the loop reads is what `t` held at first
    have hbody : ∀ i < sl.length, ∀ m',
        (m.grow spare s sl.length).Changes s
          (rewritten ((m.grow spare s sl.length).view s)
            (fun j w => w ||| (m.view t).words[j]?.getD 0) i) m' →
        m'.slice? = (m.grow spare s sl.length).slice? →
        m'.modify s i (· ||| (m'.stored sl.storage)[i]?.getD 0) =
          m'.modify s i (· ||| (m.view t).words[i]?.getD 0) := by
      intro i hi m' hchanges hslices
      have hread : (m'.stored sl.storage)[i]? = (m.view t).words[i]? := by
        by_cases ht : t = s
        · subst ht
          rw [grow_eq_self spare hm h] at hchanges hslices
          rw [stored_of_slice (hslices ▸ h) hi, hchanges.target, rewritten, Array.getElem?_mapIdx]
          simp
        · have hslice : m'.slice? t = some sl := by rw [hslices, hgrow.others t ht, h]
          rw [stored_of_slice hslice hi, hchanges.frame t ht, hgrow.frame t ht]
      rw [hread]
    have hroom : sl.length ≤ ((m.grow spare s sl.length).view s).words.size := by
      have := BitSet.lt_size_reserve (s := m.view s) (sl.length - 1)
      rw [hgrow.target]
      omega
    obtain ⟨m', hrun, hchanges, -⟩ := foldlM_changes hgrow.separate
      (fun j w => w ||| (m.view t).words[j]?.getD 0) hroom hbody
    refine ⟨m', by simp only [merge, h]; exact hrun, ?_⟩
    have hunion := rewritten_reserve (m.view s) (m.view t)
    rw [hsize, ← hgrow.target] at hunion
    rw [hunion] at hchanges
    exact hgrow.trans hchanges

end SetMemory

/-! ## Programs -/

/-- A step of a program over numbered sets: it changes the set with the first number. -/
inductive SetStep where
  | make (i : Nat) (n : Int)
  | insert (i k : Nat)
  | erase (i k : Nat)
  | union (i j : Nat)
  | clear (i : Nat)
  | copy (i j : Nat)

namespace SetStep

/-- The number of the set that a step changes. -/
def target : SetStep → Nat
  | make i _ | insert i _ | erase i _ | union i _ | clear i | copy i _ => i

/-- The memory after a step. -/
def run (spare : Nat → Nat) (m : SetMemory) : SetStep → Except SetMemory SetMemory
  | make i n => .ok (m.make i n)
  | insert i k => m.insert spare i k
  | erase i k => m.erase i k
  | union i j => m.merge spare i j
  | clear i => m.clear i
  | copy i j => .ok (m.copy i j)

/-- The memory after a program. -/
def runAll (spare : Nat → Nat) : SetMemory → List SetStep → Except SetMemory SetMemory
  | m, [] => .ok m
  | m, step :: steps => step.run spare m >>= fun m' => runAll spare m' steps

/-- What a step makes of the members of its target. -/
def members (Ms : Nat → Finset Nat) : SetStep → Finset Nat
  | make _ _ | clear _ => ∅
  | insert i k => Insert.insert k (Ms i)
  | erase i k => (Ms i).erase k
  | union i j => Ms i ∪ Ms j
  | copy _ j => Ms j

/-- The finite sets after a program. -/
def after : (Nat → Finset Nat) → List SetStep → Nat → Finset Nat
  | Ms, [] => Ms
  | Ms, step :: steps => after (Function.update Ms step.target (step.members Ms)) steps

variable (spare : Nat → Nat) {m m' : SetMemory}

/-- A step succeeds, does to its target what it does to the members, and nothing to other sets. -/
theorem run_changes (hm : m.Separate) (step : SetStep) :
    ∃ m' b, step.run spare m = .ok m' ∧ m.Changes step.target b m' ∧
      ∀ Ms : Nat → Finset Nat, (∀ i, (m.view i).Represents (Ms i)) →
        b.Represents (step.members Ms) := by
  cases step with
  | make i n =>
    refine ⟨_, _, rfl, SetMemory.make_changes hm i n, fun Ms h => ?_⟩
    apply BitSet.represents_of_contains
    simp [BitSet.contains_ofCapacity, members]
  | insert i k =>
    obtain ⟨m', b, hrun, hb, hchanges⟩ := SetMemory.insert_changes spare hm i k
    refine ⟨m', b, hrun, hchanges, fun Ms h => BitSet.represents_of_contains fun n => ?_⟩
    rw [BitSet.contains_insert hb, Bool.or_eq_true, decide_eq_true_eq, (h i).mem, Int.natCast_inj,
      members, Finset.mem_insert]
  | erase i k =>
    obtain ⟨m', b, hrun, hb, hchanges⟩ := SetMemory.erase_changes hm i k
    refine ⟨m', b, hrun, hchanges, fun Ms h => BitSet.represents_of_contains fun n => ?_⟩
    rw [BitSet.contains_erase hb, Bool.and_eq_true, Bool.not_eq_true', decide_eq_false_iff_not,
      (h i).mem, Int.natCast_inj, members, Finset.mem_erase]
  | union i j =>
    obtain ⟨m', hrun, hchanges⟩ := SetMemory.merge_changes spare hm i j
    refine ⟨m', _, hrun, hchanges, fun Ms h => BitSet.represents_of_contains fun n => ?_⟩
    rw [BitSet.contains_union, Bool.or_eq_true, (h i).mem, (h j).mem, members, Finset.mem_union]
  | clear i =>
    obtain ⟨m', hrun, hchanges⟩ := SetMemory.clear_changes hm i
    refine ⟨m', _, hrun, hchanges, fun Ms h => ?_⟩
    apply BitSet.represents_of_contains
    simp [BitSet.contains_clear, members]
  | copy i j =>
    refine ⟨_, _, rfl, SetMemory.copy_changes hm i j,
      fun Ms h => BitSet.represents_of_contains fun n => ?_⟩
    rw [BitSet.contains_copy, (h j).mem, members]

/-- A program succeeds, does to the sets what it does to the finite sets that they stand for, and
leaves the sets alone that are no step's target. -/
theorem runAll_changes (hm : m.Separate) (steps : List SetStep) :
    ∃ m', runAll spare m steps = .ok m' ∧ m'.Separate ∧
      (∀ Ms : Nat → Finset Nat, (∀ i, (m.view i).Represents (Ms i)) →
        ∀ i, (m'.view i).Represents (after Ms steps i)) ∧
      ∀ i, (∀ step ∈ steps, step.target ≠ i) → m'.view i = m.view i := by
  induction steps generalizing m with
  | nil => exact ⟨m, rfl, hm, fun _ h => h, fun _ _ => rfl⟩
  | cons step steps ih =>
    obtain ⟨m₁, b, hrun, hchanges, hb⟩ := run_changes spare hm step
    obtain ⟨m', hrest, hm', hrep, hframe⟩ := ih hchanges.separate
    refine ⟨m', by rw [runAll, hrun]; exact hrest, hm', fun Ms h => hrep _ fun i => ?_,
      fun i hi => ?_⟩
    · by_cases hi : i = step.target
      · rw [hi, Function.update_self, hchanges.target]
        exact hb Ms h
      · rw [Function.update_of_ne hi, hchanges.frame i hi]
        exact h i
    · rw [List.forall_mem_cons] at hi
      rw [hframe i hi.2, hchanges.frame i hi.1.symm]

theorem runAll_append (front back : List SetStep) :
    runAll spare m (front ++ back) = runAll spare m front >>= fun m' => runAll spare m' back := by
  induction front generalizing m with
  | nil => rfl
  | cons step front ih =>
    rw [List.cons_append, runAll, runAll]
    cases step.run spare m with
    | error m₁ => rfl
    | ok m₁ => exact ih

/-- After a copy, the copy changes by steps on the copy only, and its source by steps on the
source only. -/
theorem runAll_copy {front back : List SetStep} {i j : Nat} {before : SetMemory}
    (hbefore : before.Separate) (hfront : runAll spare m front = .ok before)
    (hrun : runAll spare m (front ++ copy i j :: back) = .ok m') :
    ((∀ step ∈ back, step.target ≠ i) → m'.view i = (before.view j).copy) ∧
      (i ≠ j → (∀ step ∈ back, step.target ≠ j) → m'.view j = before.view j) := by
  have hcopy := SetMemory.copy_changes hbefore i j
  obtain ⟨m₁, hback, -, -, hframe⟩ := runAll_changes spare hcopy.separate back
  rw [runAll_append, hfront] at hrun
  obtain rfl : m₁ = m' := Except.ok.inj (hback.symm.trans hrun)
  constructor
  · intro hi
    rw [hframe i hi, hcopy.target]
  · intro hne hj
    rw [hframe j hj, hcopy.frame j hne.symm]

end SetStep

/-- Every program over numbered sets, none of which has been written to at first, succeeds, and each
set then stands for the finite set that the program makes of it. A copy stands for what its source
stood for until a step changes the copy itself, and the source shows what it showed until a step
changes the source: this holds although the sets are changed in place, and wherever growing sets are
moved to. -/
theorem set_programs_keep_members (spare : Nat → Nat) (steps : List SetStep) :
    ∃ m, SetStep.runAll spare .start steps = .ok m ∧
      (∀ i, (m.view i).Represents (SetStep.after (fun _ => ∅) steps i)) ∧
      ∀ front i j back, steps = front ++ .copy i j :: back →
        ∃ before, SetStep.runAll spare .start front = .ok before ∧
          ((∀ step ∈ back, step.target ≠ i) →
            ∀ M, (before.view j).Represents M → (m.view i).Represents M) ∧
          (i ≠ j → (∀ step ∈ back, step.target ≠ j) → m.view j = before.view j) := by
  have hempty (i : Nat) :
      (SetMemory.start.view i).Represents ((fun _ => ∅ : Nat → Finset Nat) i) :=
    BitSet.represents_of_contains (by simp [SetMemory.view, SetMemory.start, BitSet.contains_empty])
  have hstart := SetMemory.start_separate
  obtain ⟨m, hrun, -, hrep, -⟩ := SetStep.runAll_changes spare hstart steps
  refine ⟨m, hrun, hrep _ hempty, ?_⟩
  rintro front i j back rfl
  obtain ⟨before, hfront, hbefore, -, -⟩ := SetStep.runAll_changes spare hstart front
  obtain ⟨hcopy, hsource⟩ := SetStep.runAll_copy spare hbefore hfront hrun
  refine ⟨before, hfront, fun hi M hM => ?_, hsource⟩
  rw [hcopy hi]
  apply BitSet.represents_of_contains
  intro k
  rw [BitSet.contains_copy, hM.mem]

end Straightline
