import Mathlib
import Straightline.Proofs.Accesses
import Straightline.Proofs.Crashes

/-!
# Registers and memory as one byte store

The register file and the memory are kept in different ways, an array that is overwritten and a
sparse map that is filled byte by byte, but they obey one law. A store is a partial function from
positions to bytes, and an access is a run of positions: consecutive indices in the file,
consecutive addresses that wrap in memory. A write lays the bytes of its value over its positions
and changes no other cell (`Overlaid`). A read gives the little-endian number of its cells, cut to
its type (`numberAt`), whatever writes those cells come from.

An access that does not lie in the file fails and leaves the state alone. It names the rule that it
breaks, unless its end wraps; then it crashes.
-/

namespace Straightline

/-! ## Cells -/

/-- Byte `i` of a word, counted from the lowest. -/
def byteOf (v : UInt64) (i : Nat) : UInt8 := .ofNat (v.toNat / 256 ^ i)

section Cells

variable {A : Type}

/-- The cells are those before, with the `n` low bytes of `v` laid over the positions `pos 0`,
`pos 1` and so on. -/
structure Overlaid (before after : A → Option UInt8) (pos : Nat → A) (n : Nat) (v : UInt64) :
    Prop where
  written : ∀ i < n, after (pos i) = some (byteOf v i)
  kept : ∀ a, (∀ i < n, a ≠ pos i) → after a = before a

/-- The bytes of `n` cells; an empty cell counts as zero. -/
def bytesIn (cells : A → Option UInt8) (pos : Nat → A) (n : Nat) : List UInt8 :=
  (List.range n).map fun i => (cells (pos i)).getD 0

/-- The little-endian number of `n` cells. -/
def numberAt (cells : A → Option UInt8) (pos : Nat → A) (n : Nat) : Nat :=
  Nat.ofDigits 256 ((bytesIn cells pos n).map UInt8.toNat)

theorem length_bytesIn (cells : A → Option UInt8) (pos : Nat → A) (n : Nat) :
    (bytesIn cells pos n).length = n := by
  simp [bytesIn]

theorem bytesIn_succ (cells : A → Option UInt8) (pos : Nat → A) (n : Nat) :
    bytesIn cells pos (n + 1)
      = (cells (pos 0)).getD 0 :: bytesIn cells (fun i => pos (i + 1)) n := by
  simp [bytesIn, List.range_succ_eq_map, Function.comp_def]

end Cells

/-! ## Bytes and numbers -/

theorem byteOf_zero (v : UInt64) : byteOf v 0 = v.toUInt8 := by
  rw [← UInt8.toNat_inj]
  simp [byteOf]

theorem byteOf_shiftRight (v : UInt64) (i : Nat) : byteOf (v >>> 8) i = byteOf v (i + 1) := by
  have hshift : (v >>> 8).toNat = v.toNat / 256 := by simp [Nat.shiftRight_eq_div_pow]
  rw [byteOf, byteOf, hshift, Nat.div_div_eq_div_mul, ← pow_succ']

theorem getElem?_toBytes (v : UInt64) {n i : Nat} (hi : i < n) :
    (toBytes v n)[i]? = some (byteOf v i) := by
  induction n generalizing v i with
  | zero => omega
  | succ n ih =>
    cases i with
    | zero => rw [toBytes, List.getElem?_cons_zero, byteOf_zero]
    | succ i => rw [toBytes, List.getElem?_cons_succ, ih _ (by omega), byteOf_shiftRight]

theorem ofDigits_toNat_lt (bs : List UInt8) :
    Nat.ofDigits 256 (bs.map UInt8.toNat) < 256 ^ bs.length := by
  have hdigit : ∀ d ∈ bs.map UInt8.toNat, d < 256 := by
    intro d hd
    obtain ⟨b, -, rfl⟩ := List.mem_map.mp hd
    exact b.toNat_lt
  simpa using Nat.ofDigits_lt_base_pow_length (by omega) hdigit

/-- Bytes that fit a word make the word of their number. -/
theorem toNat_ofBytes (bs : List UInt8) (h : bs.length ≤ 8) :
    (ofBytes bs).toNat = Nat.ofDigits 256 (bs.map UInt8.toNat) := by
  induction bs with
  | nil => rfl
  | cons b bs ih =>
    rw [List.length_cons] at h
    -- seven bytes are left, so the shift by one byte loses none
    have hlt : Nat.ofDigits 256 (bs.map UInt8.toNat) < 2 ^ 56 :=
      (ofDigits_toNat_lt bs).trans_le
        ((Nat.pow_le_pow_right (by omega) (show bs.length ≤ 7 by omega)).trans (by norm_num))
    have hshift : (ofBytes bs <<< 8).toNat = Nat.ofDigits 256 (bs.map UInt8.toNat) <<< 8 := by
      rw [UInt64.toNat_shiftLeft, ih (by omega)]
      generalize Nat.ofDigits 256 (bs.map UInt8.toNat) = x at hlt
      rw [show (8 : UInt64).toNat % 64 = 8 from rfl, Nat.shiftLeft_eq]
      exact Nat.mod_eq_of_lt (by omega)
    rw [ofBytes, UInt64.toNat_or, hshift, UInt8.toNat_toUInt64, Nat.or_comm,
      ← Nat.shiftLeft_add_eq_or_of_lt b.toNat_lt, Nat.shiftLeft_eq, List.map_cons,
      Nat.ofDigits_cons]
    ring

/-- The word of some cells, cut to a type, is their number cut to its bits. -/
theorem toNat_ofBytes_bytesIn {A : Type} (cells : A → Option UInt8) (pos : Nat → A) (U : Ty) :
    (ofBytes (bytesIn cells pos U.bytes) &&& U.mask).toNat
      = numberAt cells pos U.bytes % 2 ^ U.bits := by
  rw [Ty.toNat_and_mask, toNat_ofBytes _ (by rw [length_bytesIn]; exact U.bytes_le), numberAt]

namespace State

variable {s s' : State} {off : Int64} {T U : Ty} {v : UInt64} {a : UInt64}

/-! ## The register file -/

/-- The register file as cells. -/
def regCells (s : State) (j : Nat) : Option UInt8 := s.regs[j]?

/-- The access lies in the register file. -/
def Holds (s : State) (off : Int64) (T : Ty) : Prop :=
  0 ≤ off.toInt ∧ off.toInt + T.bytes ≤ s.regs.size

/-- The index of byte `i` of a register access. -/
def regPos (off : Int64) (i : Nat) : Nat := off.toNatClampNeg + i

theorem Holds.placement (h : s.Holds off T) (hs : s.Sized) :
    placement off T.bytes s.regs.size = .inside off.toNatClampNeg :=
  placement_of_bounds T.bytes_le h.1 h.2 hs

theorem Holds.le_size (h : s.Holds off T) : off.toNatClampNeg + T.bytes ≤ s.regs.size := by
  obtain ⟨h0, hend⟩ := h
  rw [← Int64.toNat_toInt]
  omega

theorem toList_extract (h : s.Holds off T) :
    (s.regs.extract off.toNatClampNeg (off.toNatClampNeg + T.bytes)).toList
      = bytesIn s.regCells (regPos off) T.bytes := by
  have hle := h.le_size
  apply List.ext_getElem?
  intro k
  rw [Array.getElem?_toList, Array.getElem?_extract, bytesIn, List.getElem?_map]
  by_cases hk : k < T.bytes
  · have hj : off.toNatClampNeg + k < s.regs.size := by omega
    rw [if_pos (by omega), List.getElem?_range hk, Option.map_some, regCells, regPos,
      Array.getElem?_eq_getElem hj, Option.getD_some]
  · rw [if_neg (by omega), List.getElem?_eq_none (by rw [List.length_range]; omega),
      Option.map_none]

/-- A read in the file gives the number of its cells. -/
theorem readReg_eq_numberAt (hs : s.Sized) (h : s.Holds off U) :
    ∃ u, s.readReg off U = .ok u ∧
      u.toNat = numberAt s.regCells (regPos off) U.bytes % 2 ^ U.bits := by
  unfold readReg
  rw [h.placement hs]
  refine ⟨_, rfl, ?_⟩
  rw [toList_extract h, toNat_ofBytes_bytesIn]

/-- A write in the file lays its value over its cells. -/
theorem writeReg_overlaid (hv : T.Fits v) (h : s.writeReg off T v = .ok s') :
    Overlaid s.regCells s'.regCells (regPos off) T.bytes v := by
  obtain ⟨i, hi, rfl⟩ := writeReg_eq_ok.mp h
  obtain ⟨hoff, hlen, -⟩ := placement_eq_inside T.bytes_le hi
  have hnat : off.toNatClampNeg = i := by
    rw [← Int64.toNat_toInt, hoff, Int.toNat_natCast]
  have hcell : ∀ j, (overwrite s.regs i (toBytes (v &&& T.mask) T.bytes))[j]?
      = if i ≤ j ∧ j < i + T.bytes then (toBytes v T.bytes)[j - i]? else s.regs[j]? := by
    intro j
    rw [hv, getElem?_overwrite _ _ _ _ (by rw [length_toBytes]; exact hlen), length_toBytes]
  constructor
  · intro k hk
    rw [regCells, regPos, hnat, hcell, if_pos (by omega), Nat.add_sub_cancel_left,
      getElem?_toBytes v hk]
  · intro j hj
    rw [regCells, hcell, if_neg]
    · rfl
    · rintro ⟨hlo, hhi⟩
      exact hj (j - i) (by omega) (by rw [regPos, hnat]; omega)

/-- An access past the file names the rule it breaks; one whose end wraps crashes. -/
theorem regAccess_of_not_holds (hs : s.Sized) (h : ¬s.Holds off U) :
    (¬(⟨off, U⟩ : RegAccess).Wraps →
      s.readReg off U = .error (.atExpr (.readOutside s.regs.size) (.get off U)) ∧
        ∀ v, s.writeReg off U v
          = .error (.atStmt (.writeOutside s.regs.size) (.put off .missing))) ∧
    ((⟨off, U⟩ : RegAccess).Wraps →
      s.readReg off U = .error .crash ∧ ∀ v, s.writeReg off U v = .error .crash) := by
  have hwraps : _ ↔ (⟨off, U⟩ : RegAccess).Wraps := placement_eq_wrapped U.bytes_le hs
  unfold readReg writeReg
  cases hp : placement off U.bytes s.regs.size with
  | inside i =>
    obtain ⟨hoff, hlen, -⟩ := placement_eq_inside U.bytes_le hp
    exact absurd ⟨by omega, by omega⟩ h
  | outside =>
    rw [hp] at hwraps
    exact ⟨fun _ => ⟨rfl, fun _ => rfl⟩, fun hw => by simp [← hwraps] at hw⟩
  | wrapped =>
    rw [hp] at hwraps
    exact ⟨fun hw => absurd (hwraps.mp rfl) hw, fun _ => ⟨rfl, fun _ => rfl⟩⟩

/-! ## The memory -/

/-- The memory as cells. -/
def memCells (s : State) (a : UInt64) : Option UInt8 := s.mem[a]?

/-- The address of byte `i` of a memory access; addresses wrap. -/
def memPos (a : UInt64) (i : Nat) : UInt64 := a + .ofNat i

theorem bytesAt_eq (s : State) (a : UInt64) (n : Nat) :
    s.bytesAt a n = bytesIn s.memCells (memPos a) n := by
  induction n generalizing a with
  | zero => rfl
  | succ n ih =>
    have hrest : memPos (a + 1) = fun i => memPos a (i + 1) :=
      funext fun i => add_one_add_ofNat a i
    rw [bytesAt, bytesIn_succ, ih, hrest]
    simp [byteAt, memCells, memPos]

/-- A load gives the number of its cells. -/
theorem load_eq_numberAt (s : State) (a : UInt64) (U : Ty) :
    (s.load a U).toNat = numberAt s.memCells (memPos a) U.bytes % 2 ^ U.bits := by
  rw [load, bytesAt_eq, toNat_ofBytes_bytesIn]

/-- Fewer than `2 ^ 64` steps do not lead back to an address. -/
theorem ne_add_ofNat_succ (a : UInt64) {i : Nat} (hi : i + 1 < 2 ^ 64) :
    a ≠ a + .ofNat (i + 1) := by
  intro heq
  have hnat := congrArg UInt64.toNat heq
  have hlt := a.toNat_lt
  rw [UInt64.toNat_add, UInt64.toNat_ofNat_of_lt' hi] at hnat
  omega

theorem getElem?_storeBytes (s : State) (a : UInt64) {bs : List UInt8} {i : Nat}
    (hlen : bs.length ≤ 2 ^ 64) (hi : i < bs.length) :
    (s.storeBytes a bs).mem[a + .ofNat i]? = bs[i]? := by
  induction bs generalizing s a i with
  | nil => simp at hi
  | cons b bs ih =>
    rw [List.length_cons] at hlen hi
    rw [storeBytes]
    cases i with
    | zero =>
      -- the later bytes go to other addresses
      rw [show a + .ofNat 0 = a by simp, getElem?_storeBytes_of_not]
      · simp
      · intro j hj
        rw [add_one_add_ofNat]
        exact ne_add_ofNat_succ a (by omega)
    | succ i => rw [← add_one_add_ofNat, ih _ _ (by omega) (by omega), List.getElem?_cons_succ]

/-- A store lays its value over its cells. -/
theorem store_overlaid (s : State) (a : UInt64) (T : Ty) (v : UInt64) :
    Overlaid s.memCells (s.store a T v).memCells (memPos a) T.bytes v := by
  have hlen := length_toBytes v T.bytes
  constructor
  · intro i hi
    have hle := T.bytes_le
    rw [memCells, memPos, store, getElem?_storeBytes _ _ (by omega) (by omega),
      getElem?_toBytes v hi]
  · intro x hx
    exact getElem?_storeBytes_of_not _ (by rw [hlen]; exact hx)

end State

/-! ## Statements -/

/-- The statements that access a register value of type `U` at `off`, directly or as an element of
a window, fail, and the run ends in the state that it had. -/
structure Machine.Refuses (m : Machine) (off : Int64) (U : Ty) (read write : Fault) : Prop where
  get : ∀ t, m.step (.assign t (.get off U)) = .fail read m.state
  getIx : ∀ t w ix bias i, w.elem = U → m.eval ix = .ok i → Machine.element w i bias = .ok off →
    m.step (.assign t (.getIx w ix bias)) = .fail read m.state
  put : ∀ data v, data.typeIn m.temps = .ok U → m.eval data = .ok v →
    m.step (.put off data) = .fail write m.state
  putIx : ∀ w ix bias data i v, w.elem = U → m.eval ix = .ok i → m.eval data = .ok v →
    Machine.element w i bias = .ok off → m.step (.putIx w ix bias data) = .fail write m.state

theorem Machine.refuses {m : Machine} {off : Int64} {U : Ty} {read write : Fault}
    (hr : m.state.readReg off U = .error read)
    (hw : ∀ v, m.state.writeReg off U v = .error write) : m.Refuses off U read write where
  get t := by simp [step, eval, hr, attempt, bind, Except.bind]
  getIx t w ix bias i hU hi hoff := by
    subst hU
    simp [step, eval, hi, hoff, hr, attempt, bind, Except.bind]
  put data v hT hv := by simp [step, hT, hv, hw, attempt, bind, Except.bind]
  putIx w ix bias data i v hU hi hv hoff := by
    subst hU
    simp [step, hi, hv, hoff, hw, attempt, bind, Except.bind]

/-! ## The law -/

/-- Registers and memory are little-endian byte stores. A write of a value that fits its type lays
its bytes over the cells of the access and leaves all other cells alone, and every later read gives
the number of the cells it covers. A register access that does not lie in the file fails with the
rule that it breaks, or crashes if its end wraps, and leaves the state alone either way. -/
theorem stores_are_little_endian {s : State} (hs : s.Sized) {T : Ty} {v : UInt64}
    (hv : T.Fits v) :
    (∀ off, s.Holds off T → ∃ s', s.writeReg off T v = .ok s' ∧ s'.mem = s.mem ∧
      s'.regs.size = s.regs.size ∧
      Overlaid s.regCells s'.regCells (State.regPos off) T.bytes v ∧
      ∀ off' U, s.Holds off' U → ∃ u, s'.readReg off' U = .ok u ∧
        u.toNat = numberAt s'.regCells (State.regPos off') U.bytes % 2 ^ U.bits) ∧
    (∀ a, (s.store a T v).regs = s.regs ∧
      Overlaid s.memCells (s.store a T v).memCells (State.memPos a) T.bytes v ∧
      ∀ a' U, ((s.store a T v).load a' U).toNat
        = numberAt (s.store a T v).memCells (State.memPos a') U.bytes % 2 ^ U.bits) ∧
    ∀ off U, ¬s.Holds off U → ∃ read write, s.readReg off U = .error read ∧
      (∀ u, s.writeReg off U u = .error write) ∧
      (∀ m : Machine, m.state = s → m.Refuses off U read write) ∧
      (¬(⟨off, U⟩ : RegAccess).Wraps →
        read = .atExpr (.readOutside s.regs.size) (.get off U) ∧
          write = .atStmt (.writeOutside s.regs.size) (.put off .missing)) ∧
      ((⟨off, U⟩ : RegAccess).Wraps → read = .crash ∧ write = .crash) := by
  refine ⟨fun off h => ?_, fun a => ?_, fun off U h => ?_⟩
  · obtain ⟨s', hw⟩ := State.exists_writeReg (v := v) h.1 h.2 hs
    have hsize := State.size_writeReg hw
    refine ⟨s', hw, State.mem_writeReg hw, hsize, State.writeReg_overlaid hv hw, ?_⟩
    intro off' U h'
    -- the file keeps its size, so what lay in it still does
    have hs' : s'.Sized := by rw [State.Sized, hsize]; exact hs
    exact State.readReg_eq_numberAt hs' (by rw [State.Holds, hsize]; exact h')
  · exact ⟨State.regs_store s a T v, State.store_overlaid s a T v,
      fun a' U => State.load_eq_numberAt _ a' U⟩
  · obtain ⟨hpast, hwrap⟩ := State.regAccess_of_not_holds hs h
    by_cases hw : (⟨off, U⟩ : RegAccess).Wraps
    · obtain ⟨hr, hwr⟩ := hwrap hw
      refine ⟨_, _, hr, hwr, ?_, fun hn => absurd hw hn, fun _ => ⟨rfl, rfl⟩⟩
      rintro m rfl
      exact Machine.refuses hr hwr
    · obtain ⟨hr, hwr⟩ := hpast hw
      refine ⟨_, _, hr, hwr, ?_, fun _ => ⟨rfl, rfl⟩, fun h' => absurd h' hw⟩
      rintro m rfl
      exact Machine.refuses hr hwr

/-- A register read that takes the last byte of a write and the byte behind it, a load that takes
all but the first byte of a store around the last address, and a read that runs past the file. -/
theorem stores_are_little_endian_straddle :
    (State.zero 16).Sized ∧ Ty.i32.Fits 0x04030201 ∧ (State.zero 16).Holds 2 .i32 ∧
      (State.zero 16).Holds 5 .i16 ∧ ¬(State.zero 16).Holds 14 .i32 ∧
      (∃ s' u, (State.zero 16).writeReg 2 .i32 0x04030201 = .ok s' ∧
        s'.readReg 5 .i16 = .ok u ∧ u.toNat = 0x0004) ∧
      (((State.zero 16).store (-2) .i32 0x04030201).load (-1) .i32).toNat = 0x00040302 ∧
      (State.zero 16).readReg 14 .i32 = .error (.atExpr (.readOutside 16) (.get 14 .i32)) := by
  have hs : (State.zero 16).Sized := by unfold State.Sized; decide
  have hv : Ty.i32.Fits 0x04030201 := by unfold Ty.Fits; decide
  have hin : (State.zero 16).Holds 2 .i32 := ⟨by decide, by decide⟩
  have hin' : (State.zero 16).Holds 5 .i16 := ⟨by decide, by decide⟩
  have hout : ¬(State.zero 16).Holds 14 .i32 := by unfold State.Holds; decide
  have hwrap : ¬(⟨14, .i32⟩ : RegAccess).Wraps := by unfold RegAccess.Wraps; decide
  obtain ⟨hreg, hmem, hpast⟩ := stores_are_little_endian hs hv
  refine ⟨hs, hv, hin, hin', hout, ?_, ?_, ?_⟩
  · obtain ⟨s', hw, -, -, hover, hread⟩ := hreg 2 hin
    obtain ⟨u, hu, hnum⟩ := hread 5 .i16 hin'
    have h5 : s'.regCells 5 = some 4 := hover.written 3 (by decide)
    have h6 : s'.regCells 6 = some 0 := hover.kept 6 (by decide)
    refine ⟨s', u, hw, hu, hnum.trans ?_⟩
    show Nat.ofDigits 256 [((s'.regCells 5).getD 0).toNat, ((s'.regCells 6).getD 0).toNat] % _ = _
    rw [h5, h6]
    decide
  · obtain ⟨-, hover, hload⟩ := hmem (-2)
    rw [hload]
    have h0 := hover.written 1 (by decide)
    have h1 := hover.written 2 (by decide)
    have h2 := hover.written 3 (by decide)
    have h3 := hover.kept 2 (by decide)
    generalize (State.store _ _ _ _).memCells = cells at h0 h1 h2 h3
    show Nat.ofDigits 256 [((cells (State.memPos (-2) 1)).getD 0).toNat,
      ((cells (State.memPos (-2) 2)).getD 0).toNat, ((cells (State.memPos (-2) 3)).getD 0).toNat,
      ((cells 2).getD 0).toNat] % _ = _
    rw [h0, h1, h2, h3]
    rfl
  · obtain ⟨read, write, hr, -, -, hrule, -⟩ := hpast 14 .i32 hout
    rw [hr, (hrule hwrap).1]
    rfl

/-- A write at the last offset does not lie in the file, and it crashes where it should name the
rule that it breaks. -/
theorem setReg32_crashes_at_last_offset :
    ¬(State.zero 16).Holds 9223372036854775807 .i32 ∧
      (State.zero 16).setReg32 9223372036854775807 1 = .error .crash :=
  ⟨by unfold State.Holds; decide, rfl⟩

end Straightline
