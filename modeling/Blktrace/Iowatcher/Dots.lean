import Blktrace.Lib.Walks
import Blktrace.Lib.Word
import Mathlib.Data.Rat.Floor

/-!
# `iowatcher/plot.c`: the dots of an IO graph

`alloc_dot_data` has a bit for each cell of a graph, and a row of them more than the graph has. `set_gdd_bit`
goes along the bytes of an IO row by row and sets the bit of each cell that it comes by. A `double` is an
exact rational here.
-/

namespace Blktrace.Iowatcher

/-! ## The functions -/

/-- What `struct graph_dot_data` has from the beginning on, and the bytes that `data` has. The banks of fio,
the colour and the label are left out. -/
structure DotFrame where
  minOffset : UInt64
  maxOffset : UInt64
  rows : Int32
  cols : Int32
  minSeconds : Int32
  maxSeconds : UInt32
  stopSeconds : UInt32
  room : ℤ

/-- `struct graph_dot_data`, and the indices of the bits that were set in it. -/
structure GraphDotData extends DotFrame where
  totalIos : UInt64 := 0
  data : ℤ → UInt8 := fun _ => 0
  bits : List ℤ := []

/-- `alloc_dot_data`. A size below 0 is more than `calloc` can have. -/
def allocDotData (graphHeight ioGraphScale graphWidth : Int32) (minSeconds maxSeconds : UInt32)
    (minOffset maxOffset : UInt64) (stopSeconds : UInt32) : Option GraphDotData :=
  let size : Int32 := 88
  let rows := graphHeight * ioGraphScale
  let cols := graphWidth
  let arrSize := (rows + 1) * cols
  let arrSize := (arrSize + 7) / 8
  if size + arrSize < 0 then none
  else some { minOffset, maxOffset, rows, cols, minSeconds := minSeconds.toInt32, maxSeconds, stopSeconds
              room := arrSize.toInt }

/-- `floor(x / y)` as an `int`. What is not finite, or does not fit, has no value as one. -/
def floorDiv (x y : ℚ) : Option Int32 :=
  if y = 0 then none
  else if -2 ^ 31 ≤ ⌊x / y⌋ ∧ ⌊x / y⌋ < 2 ^ 31 then some (Int32.ofInt ⌊x / y⌋)
  else none

/-- A `double` that is not below 0 as a `u64`. -/
def toU64 (x : ℚ) : Option UInt64 := if x < 2 ^ 64 then some (UInt64.ofNat ⌊x⌋₊) else none

namespace DotFrame

variable (gdd : DotFrame)

/-- `bytes_per_row`. -/
def bytesPerRow : ℚ := (gdd.maxOffset - gdd.minOffset + 1).toNat / gdd.rows.toInt

/-- `secs_per_col`. -/
def secsPerCol : ℚ := (gdd.maxSeconds - gdd.minSeconds.toUInt32).toNat / gdd.cols.toInt

/-- `bit_index`. -/
def bitIndex (offset : UInt64) (time : ℚ) : Option Int32 :=
  (floorDiv (time - gdd.minSeconds.toInt) gdd.secsPerCol).bind fun colInt =>
    (floorDiv (offset - gdd.minOffset).toNat gdd.bytesPerRow).map fun rowInt => rowInt * gdd.cols + colInt

/-- `offset += mod`. -/
def nextRow (offset : UInt64) : Option UInt64 := toU64 (offset.toNat + gdd.bytesPerRow)

end DotFrame

/-- `gdd->data[arr_index] |= 1 << bit_mod`. -/
def GraphDotData.setBit (gdd : GraphDotData) (bitIndex : Int32) : GraphDotData :=
  let arrIndex := (bitIndex / 8).toInt
  let bitMod := (bitIndex % 8).toInt.toNat
  { gdd with
    data := Function.update gdd.data arrIndex (gdd.data arrIndex ||| UInt8.ofNat (1 <<< bitMod))
    bits := gdd.bits ++ [bitIndex.toInt] }

/-- The loop of `set_gdd_bit`, of a number of turns at most. An offset without a value is one that is not read
where no bytes are left. -/
def setBits (time : ℚ) : ℕ → GraphDotData → Option UInt64 → ℚ → Option GraphDotData
  | 0, _, _, _ => none
  | fuel + 1, gdd, offset, bytes =>
    if 0 < bytes then
      offset.bind fun offset =>
        if offset ≤ gdd.maxOffset then
          (gdd.bitIndex offset time).bind fun bitIndex =>
            setBits time fuel (gdd.setBit bitIndex) (gdd.nextRow offset) (bytes - gdd.bytesPerRow)
        else some gdd
    else some gdd

/-- `set_gdd_bit`, with a number of turns at most. -/
def setGddBit (fuel : ℕ) (gdd : GraphDotData) (offset : UInt64) (bytes time : ℚ) : Option GraphDotData :=
  if gdd.maxOffset < offset ∨ offset < gdd.minOffset then some gdd
  else
    let time := time / 1000000000
    if time < gdd.minSeconds.toInt ∨ gdd.maxSeconds.toNat < time then some gdd
    else setBits time fuel { gdd with totalIos := gdd.totalIos + 1 } (some offset) bytes

/-! ## What is claimed -/

/-- A graph, from when it is allocated on. -/
inductive DotsOf (fresh : GraphDotData) : GraphDotData → Prop
  | fresh : DotsOf fresh fresh
  | io {gdd gdd' : GraphDotData} {fuel : ℕ} {offset : UInt64} {bytes time : ℚ} :
    DotsOf fresh gdd → setGddBit fuel gdd offset bytes time = some gdd' → DotsOf fresh gdd'

/-- The bits that are allocated, by what `alloc_dot_data` says. -/
def DotFrame.cells (gdd : DotFrame) : ℤ := (gdd.rows.toInt + 1) * gdd.cols.toInt

/-- **The IO is dotted**: the bits are allocated, the loop ends, and the bits that it sets are among them. -/
structure Dotted (gdd : GraphDotData) (offset : UInt64) (bytes time : ℚ) : Prop where
  room : gdd.cells ≤ 8 * gdd.room
  drawn : ∃ fuel gdd' drawn, setGddBit fuel gdd offset bytes time = some gdd' ∧
    gdd'.bits = gdd.bits ++ drawn ∧ ∀ i ∈ drawn, 0 ≤ i ∧ i < gdd.cells

/-- The IO is one that the graph shows. -/
def DotFrame.Shows (gdd : DotFrame) (offset : UInt64) (bytes time : ℚ) : Prop :=
  0 < bytes ∧ gdd.minOffset ≤ offset ∧ offset ≤ gdd.maxOffset ∧
    gdd.minSeconds.toInt ≤ time / 1000000000 ∧ time / 1000000000 ≤ gdd.maxSeconds.toNat

namespace DotFrame

variable (gdd : DotFrame)

/-- The bytes of the graph. -/
def span : ℕ := gdd.maxOffset.toNat - gdd.minOffset.toNat + 1

/-- The whole bytes of a row. -/
def stride : ℕ := gdd.span / gdd.rows.toInt.toNat

/-- The row of an offset. -/
def rowAt (offset : ℕ) : ℕ := (offset - gdd.minOffset.toNat) * gdd.rows.toInt.toNat / gdd.span

/-- How many strides there are from an offset to behind the graph. -/
def strides (offset : UInt64) : ℕ := (gdd.maxOffset.toNat - offset.toNat) / gdd.stride + 1

/-- The strides that lead behind the graph do not lead to 2^64, or else there are no bytes left by then. -/
def EndFits (offset : UInt64) (bytes : ℚ) : Prop :=
  gdd.stride ≠ 0 → offset.toNat + gdd.strides offset * gdd.stride < 2 ^ 64 ∨
    bytes * gdd.rows.toInt ≤ gdd.strides offset * gdd.span

/-- The time is not so far behind the last column that the row of the offset leads out of the graph. -/
def ColumnFits (offset : ℕ) (time : ℚ) : Prop :=
  gdd.rowAt offset + (time - gdd.minSeconds.toInt) / (gdd.maxSeconds - gdd.minSeconds.toUInt32).toNat <
    (gdd.rows.toInt : ℚ) + 1

end DotFrame

/-- The bits of the graph are less than `int`s can count; and where it shows the IO, its bytes are not all
that 64 bits count, the loop does not leave them either, and the first second is less than 2^31, or else the
column fits each row that is come by. -/
structure Drawable (gdd : DotFrame) (offset : UInt64) (bytes time : ℚ) : Prop where
  room : gdd.cells + 7 < 2 ^ 31
  finite : gdd.Shows offset bytes time → gdd.span < 2 ^ 64
  ends : gdd.Shows offset bytes time → gdd.EndFits offset bytes
  columns : gdd.Shows offset bytes time → 0 ≤ gdd.minSeconds.toInt ∨
    ∀ j : ℕ, j * gdd.span < bytes * gdd.rows.toInt → offset.toNat + j * gdd.stride ≤ gdd.maxOffset.toNat →
      gdd.ColumnFits (offset.toNat + j * gdd.stride) (time / 1000000000)

/-! ## The bits that are allocated -/

theorem room_iff {graphHeight ioGraphScale graphWidth : Int32} {minSeconds maxSeconds stopSeconds : UInt32}
    {minOffset maxOffset : UInt64} {fresh : GraphDotData}
    (h : allocDotData graphHeight ioGraphScale graphWidth minSeconds maxSeconds minOffset maxOffset
      stopSeconds = some fresh) (hrows : 1 ≤ fresh.rows.toInt) (hcols : 1 ≤ fresh.cols.toInt) :
    fresh.cells ≤ 8 * fresh.room ↔ fresh.cells + 7 < 2 ^ 31 := by
  have hroom : fresh.room = (((fresh.rows + 1) * fresh.cols + 7) / 8).toInt := by
    unfold allocDotData at h
    dsimp only at h
    split_ifs at h
    obtain rfl := Option.some.inj h
    rfl
  have hdiv := Int32.toInt_div ((fresh.rows + 1) * fresh.cols + 7) 8
  rw [show (8 : Int32).toInt = 8 from rfl] at hdiv
  have hlt := ((fresh.rows + 1) * fresh.cols + 7).toInt_lt
  have hge := ((fresh.rows + 1) * fresh.cols + 7).le_toInt
  generalize hsum : ((fresh.rows + 1) * fresh.cols + 7).toInt = sum at hdiv hlt hge
  have hparts := Int.mul_tdiv_add_tmod sum 8
  have hrestLt := Int.tmod_lt_of_pos sum (show (0 : ℤ) < 8 by decide)
  have hrestGt := Int.lt_tmod_of_pos sum (show (0 : ℤ) < 8 by decide)
  rw [Int.bmod_eq_of_le (by omega) (by omega)] at hdiv
  rw [hroom, hdiv]
  constructor
  · -- the sum is an `int`, so that its eighths are less than 2^28
    intro hcells
    rcases Int.lt_or_le sum 0 with hneg | hpos
    · omega
    · have hrest := Int.tmod_nonneg 8 hpos
      omega
  · intro hcells
    have hle : fresh.rows.toInt + 1 ≤ fresh.cells := by
      rw [DotFrame.cells]
      nlinarith
    have hone : (1 : Int32).toInt = 1 := rfl
    have hseven : (7 : Int32).toInt = 7 := rfl
    have hrow : (fresh.rows + 1).toInt = fresh.rows.toInt + 1 := by
      apply Word.toInt32_add <;> rw [hone] <;> omega
    have hmul : ((fresh.rows + 1) * fresh.cols).toInt = fresh.cells := by
      rw [DotFrame.cells, ← hrow] at hcells hle ⊢
      apply Word.toInt32_mul <;> omega
    have hseventh : ((fresh.rows + 1) * fresh.cols + 7).toInt = fresh.cells + 7 := by
      rw [← hmul]
      apply Word.toInt32_add <;> rw [hmul, hseven] <;> omega
    have hrest := Int.tmod_nonneg 8 (show 0 ≤ sum by omega)
    omega

/-! ## The loop as a walk -/

namespace GraphDotData

@[simp] theorem toDotFrame_setBit (gdd : GraphDotData) (i : Int32) :
    (gdd.setBit i).toDotFrame = gdd.toDotFrame := rfl

@[simp] theorem bits_setBit (gdd : GraphDotData) (i : Int32) :
    (gdd.setBit i).bits = gdd.bits ++ [i.toInt] := rfl

theorem toDotFrame_foldl (gdd : GraphDotData) (is : List Int32) :
    (is.foldl setBit gdd).toDotFrame = gdd.toDotFrame := by
  induction is generalizing gdd with
  | nil => rfl
  | cons i is ih => rw [List.foldl_cons, ih, toDotFrame_setBit]

theorem bits_foldl (gdd : GraphDotData) (is : List Int32) :
    (is.foldl setBit gdd).bits = gdd.bits ++ is.map Int32.toInt := by
  induction is generalizing gdd with
  | nil => simp
  | cons i is ih => simp [ih]

end GraphDotData

/-- The loop, which finds an index in each row. -/
def DotFrame.walk (gdd : DotFrame) (time : ℚ) : Walk ℚ UInt64 Int32 where
  cost := gdd.bytesPerRow
  inside offset := offset ≤ gdd.maxOffset
  next := gdd.nextRow
  find offset := gdd.bitIndex offset time

instance (gdd : DotFrame) (time : ℚ) : DecidablePred (gdd.walk time).inside :=
  fun offset => inferInstanceAs (Decidable (offset ≤ gdd.maxOffset))

theorem setBits_eq (time : ℚ) (fuel : ℕ) (gdd : GraphDotData) (offset : Option UInt64) (bytes : ℚ) :
    setBits time fuel gdd offset bytes =
      ((gdd.walk time).run fuel offset bytes).map fun is => is.foldl GraphDotData.setBit gdd := by
  induction fuel generalizing gdd offset bytes with
  | zero => rfl
  | succ fuel ih =>
    rw [setBits, Walk.run]
    by_cases hbytes : 0 < bytes
    · rw [if_pos hbytes, if_pos hbytes]
      cases offset with
      | none => rfl
      | some offset =>
        rw [Option.bind_some, Option.bind_some]
        by_cases hinside : offset ≤ gdd.maxOffset
        · rw [if_pos hinside, if_pos (by exact hinside)]
          have hfind : (gdd.walk time).find offset = gdd.bitIndex offset time := rfl
          rw [hfind]
          cases gdd.bitIndex offset time with
          | none => rfl
          | some i =>
            rw [Option.bind_some, Option.bind_some, ih, Option.map_map]
            rfl
        · rw [if_neg hinside, if_neg (by exact hinside)]
          rfl
    · rw [if_neg hbytes, if_neg hbytes]
      rfl

theorem setGddBit_of_not_shown {gdd : GraphDotData} {offset : UInt64} {bytes time : ℚ}
    (h : ¬ gdd.Shows offset bytes time) (fuel : ℕ) :
    ∃ gdd', setGddBit (fuel + 1) gdd offset bytes time = some gdd' ∧ gdd'.toDotFrame = gdd.toDotFrame ∧
      gdd'.bits = gdd.bits := by
  unfold setGddBit
  dsimp only
  by_cases hoffset : gdd.maxOffset < offset ∨ offset < gdd.minOffset
  · rw [if_pos hoffset]
    exact ⟨gdd, rfl, rfl, rfl⟩
  · rw [if_neg hoffset]
    by_cases htime : time / 1000000000 < gdd.minSeconds.toInt ∨ gdd.maxSeconds.toNat < time / 1000000000
    · rw [if_pos htime]
      exact ⟨gdd, rfl, rfl, rfl⟩
    · have hbytes : ¬ 0 < bytes := by
        intro hbytes
        rw [not_or, not_lt, not_lt] at hoffset htime
        exact h ⟨hbytes, hoffset.2, hoffset.1, htime⟩
      rw [if_neg htime, setBits, if_neg hbytes]
      exact ⟨_, rfl, rfl, rfl⟩

theorem setGddBit_of_shown {gdd : GraphDotData} {offset : UInt64} {bytes time : ℚ}
    (h : gdd.Shows offset bytes time) (fuel : ℕ) :
    setGddBit fuel gdd offset bytes time =
      ((gdd.walk (time / 1000000000)).run fuel (some offset) bytes).map fun is =>
        is.foldl GraphDotData.setBit { gdd with totalIos := gdd.totalIos + 1 } := by
  obtain ⟨-, hmin, hmax, hfirst, hlast⟩ := h
  unfold setGddBit
  dsimp only
  rw [if_neg (not_or.mpr ⟨not_lt.mpr hmax, not_lt.mpr hmin⟩),
    if_neg (not_or.mpr ⟨not_lt.mpr hfirst, not_lt.mpr hlast⟩), setBits_eq]

/-- What an IO does not change. -/
theorem toDotFrame_setGddBit {fuel : ℕ} {gdd gdd' : GraphDotData} {offset : UInt64} {bytes time : ℚ}
    (h : setGddBit fuel gdd offset bytes time = some gdd') : gdd'.toDotFrame = gdd.toDotFrame := by
  by_cases hshows : gdd.Shows offset bytes time
  · rw [setGddBit_of_shown hshows] at h
    obtain ⟨is, -, rfl⟩ := Option.map_eq_some_iff.mp h
    exact GraphDotData.toDotFrame_foldl _ is
  · cases fuel with
    | zero =>
      unfold setGddBit at h
      dsimp only at h
      split_ifs at h
      · exact congrArg GraphDotData.toDotFrame (Option.some.inj h).symm
      · exact congrArg GraphDotData.toDotFrame (Option.some.inj h).symm
      · nomatch h
    | succ fuel =>
      obtain ⟨other, hother, hframe, -⟩ := setGddBit_of_not_shown hshows fuel
      obtain rfl := Option.some.inj (hother.symm.trans h)
      exact hframe

theorem toDotFrame_dotsOf {fresh gdd : GraphDotData} (h : DotsOf fresh gdd) :
    gdd.toDotFrame = fresh.toDotFrame := by
  induction h with
  | fresh => rfl
  | io _ hset ih => rw [toDotFrame_setGddBit hset, ih]

/-- An IO that the graph shows is dotted just if its walk ends, and finds bits that there are. -/
theorem drawn_iff {gdd : GraphDotData} {offset : UInt64} {bytes time : ℚ}
    (h : gdd.Shows offset bytes time) :
    (∃ fuel gdd' drawn, setGddBit fuel gdd offset bytes time = some gdd' ∧
      gdd'.bits = gdd.bits ++ drawn ∧ ∀ i ∈ drawn, 0 ≤ i ∧ i < gdd.cells) ↔
    ∃ fuel is, (gdd.walk (time / 1000000000)).run fuel (some offset) bytes = some is ∧
      ∀ i ∈ is, 0 ≤ i.toInt ∧ i.toInt < gdd.cells := by
  refine exists_congr fun fuel => ?_
  rw [setGddBit_of_shown h]
  constructor
  · rintro ⟨gdd', drawn, hset, hbits, hall⟩
    obtain ⟨is, hrun, rfl⟩ := Option.map_eq_some_iff.mp hset
    rw [GraphDotData.bits_foldl] at hbits
    obtain rfl := List.append_cancel_left hbits
    exact ⟨is, hrun, List.forall_mem_map.mp hall⟩
  · rintro ⟨is, hrun, hall⟩
    refine ⟨_, is.map Int32.toInt, Option.map_eq_some_iff.mpr ⟨is, hrun, rfl⟩, ?_, ?_⟩
    · exact GraphDotData.bits_foldl _ is
    · exact List.forall_mem_map.mpr hall

/-! ## Rows and columns -/

/-- What a graph has that `alloc_dot_data` made, of one row and one column at least. -/
structure DotFrame.Proper (gdd : DotFrame) : Prop where
  rows : 1 ≤ gdd.rows.toInt
  cols : 1 ≤ gdd.cols.toInt
  offsets : gdd.minOffset.toNat ≤ gdd.maxOffset.toNat
  seconds : gdd.minSeconds.toUInt32.toNat < gdd.maxSeconds.toNat

theorem DotFrame.span_le (gdd : DotFrame) : gdd.span ≤ 2 ^ 64 := by
  have hmax := gdd.maxOffset.toNat_lt
  rw [DotFrame.span]
  omega

/-- Where the strides leave the graph. -/
theorem DotFrame.strides_spec {gdd : DotFrame} {offset : UInt64} (hstride : gdd.stride ≠ 0)
    (hmax : offset ≤ gdd.maxOffset) (i : ℕ) :
    offset.toNat + i * gdd.stride ≤ gdd.maxOffset.toNat ↔ i < gdd.strides offset := by
  have hle := UInt64.le_iff_toNat_le.mp hmax
  rw [DotFrame.strides, Nat.lt_succ_iff, Nat.le_div_iff_mul_le (Nat.pos_of_ne_zero hstride)]
  omega

section

variable {gdd : DotFrame} (hgdd : gdd.Proper)

include hgdd

theorem DotFrame.Proper.natCast_rows : ((gdd.rows.toInt.toNat : ℕ) : ℚ) = gdd.rows.toInt := by
  have hrows := Int.toNat_of_nonneg (show 0 ≤ gdd.rows.toInt from le_trans (by decide) hgdd.rows)
  exact_mod_cast congrArg (fun z : ℤ => (z : ℚ)) hrows

theorem DotFrame.Proper.rows_pos : 0 < gdd.rows.toInt.toNat := by
  have hrows := hgdd.rows
  omega

/-- The bytes of a row, where they can be counted. -/
theorem DotFrame.Proper.bytesPerRow_eq (h : gdd.span < 2 ^ 64) :
    gdd.bytesPerRow = (gdd.span : ℚ) / (gdd.rows.toInt.toNat : ℕ) := by
  rw [DotFrame.bytesPerRow, hgdd.natCast_rows]
  congr 2
  rw [DotFrame.span] at h
  have hle : gdd.minOffset ≤ gdd.maxOffset := UInt64.le_iff_toNat_le.mpr hgdd.offsets
  rw [UInt64.toNat_add, UInt64.toNat_sub_of_le _ _ hle, UInt64.toNat_one, DotFrame.span]
  exact Nat.mod_eq_of_lt h

/-- Where they cannot they are none. -/
theorem DotFrame.Proper.bytesPerRow_eq_zero (h : ¬ gdd.span < 2 ^ 64) : gdd.bytesPerRow = 0 := by
  have hspan := gdd.span_le
  have hle : gdd.minOffset ≤ gdd.maxOffset := UInt64.le_iff_toNat_le.mpr hgdd.offsets
  have hword : (gdd.maxOffset - gdd.minOffset + 1).toNat = 0 := by
    rw [DotFrame.span] at h hspan
    rw [UInt64.toNat_add, UInt64.toNat_sub_of_le _ _ hle, UInt64.toNat_one]
    omega
  rw [DotFrame.bytesPerRow, hword, Nat.cast_zero, zero_div]

theorem DotFrame.Proper.bytesPerRow_pos (h : gdd.span < 2 ^ 64) : 0 < gdd.bytesPerRow := by
  rw [hgdd.bytesPerRow_eq h]
  apply div_pos
  · exact Nat.cast_pos.mpr (Nat.succ_pos _)
  · exact Nat.cast_pos.mpr hgdd.rows_pos

theorem DotFrame.Proper.nextRow_eq (h : gdd.span < 2 ^ 64) (offset : UInt64) :
    gdd.nextRow offset =
      if offset.toNat + gdd.stride < 2 ^ 64 then some (UInt64.ofNat (offset.toNat + gdd.stride)) else none := by
  have hfloor : ⌊(offset.toNat : ℚ) + gdd.bytesPerRow⌋₊ = offset.toNat + gdd.stride := by
    rw [hgdd.bytesPerRow_eq h, add_comm, Nat.floor_add_natCast (by positivity), Nat.floor_div_eq_div, add_comm]
    rfl
  have hnonneg : 0 ≤ (offset.toNat : ℚ) + gdd.bytesPerRow :=
    add_nonneg (Nat.cast_nonneg _) (hgdd.bytesPerRow_pos h).le
  have hlt : (offset.toNat : ℚ) + gdd.bytesPerRow < 2 ^ 64 ↔ offset.toNat + gdd.stride < 2 ^ 64 := by
    rw [← hfloor, Nat.floor_lt hnonneg]
    norm_num
  rw [DotFrame.nextRow, toU64, hfloor]
  simp only [hlt]

/-- Where the loop is after `j` turns. -/
theorem DotFrame.Proper.place_eq (h : gdd.span < 2 ^ 64) (time : ℚ) (j : ℕ) (offset : UInt64) :
    (gdd.walk time).place j (some offset) =
      if offset.toNat + j * gdd.stride < 2 ^ 64 then some (UInt64.ofNat (offset.toNat + j * gdd.stride))
      else none := by
  induction j generalizing offset with
  | zero =>
    rw [Nat.zero_mul, Nat.add_zero, if_pos offset.toNat_lt, UInt64.ofNat_toNat]
    rfl
  | succ j ih =>
    have hnext : (gdd.walk time).next offset = gdd.nextRow offset := rfl
    rw [Walk.place, Option.bind_some, hnext, hgdd.nextRow_eq h, Nat.succ_mul]
    split_ifs with hfits hmore hmore
    · rw [ih, UInt64.toNat_ofNat_of_lt' hfits, Nat.add_assoc, Nat.add_comm gdd.stride, if_pos hmore]
    · rw [ih, UInt64.toNat_ofNat_of_lt' hfits, Nat.add_assoc, Nat.add_comm gdd.stride, if_neg hmore]
    · omega
    · exact Walk.place_none _ j

theorem DotFrame.Proper.rowAt_lt {n : ℕ} (hmax : n ≤ gdd.maxOffset.toNat) :
    gdd.rowAt n < gdd.rows.toInt.toNat := by
  apply Nat.div_lt_of_lt_mul
  apply Nat.mul_lt_mul_of_pos_right _ hgdd.rows_pos
  rw [DotFrame.span]
  omega

theorem DotFrame.Proper.secs_pos : 0 < (gdd.maxSeconds - gdd.minSeconds.toUInt32).toNat := by
  have hle := UInt32.le_iff_toNat_le.mpr hgdd.seconds.le
  have hlt := hgdd.seconds
  rw [UInt32.toNat_sub_of_le _ _ hle]
  omega

/-- `row_int`. -/
theorem DotFrame.Proper.rowInt_eq (h : gdd.span < 2 ^ 64) {offset : UInt64} (hmin : gdd.minOffset ≤ offset)
    (hmax : offset ≤ gdd.maxOffset) :
    ∃ rowInt, floorDiv (offset - gdd.minOffset).toNat gdd.bytesPerRow = some rowInt ∧
      rowInt.toInt = gdd.rowAt offset.toNat := by
  have hrow := hgdd.rowAt_lt (UInt64.le_iff_toNat_le.mp hmax)
  have hrows := gdd.rows.toInt_lt
  have hfloor : ⌊((offset - gdd.minOffset).toNat : ℚ) / gdd.bytesPerRow⌋ = gdd.rowAt offset.toNat := by
    rw [hgdd.bytesPerRow_eq h, UInt64.toNat_sub_of_le _ _ hmin, div_div_eq_mul_div, ← Nat.cast_mul]
    exact Rat.floor_natCast_div_natCast _ _
  rw [floorDiv, if_neg (hgdd.bytesPerRow_pos h).ne', hfloor, if_pos (by omega)]
  exact ⟨_, rfl, Int32.toInt_ofInt_of_le (by omega) (by omega)⟩

/-- `col_int`. -/
theorem DotFrame.Proper.colInt_eq {time : ℚ} {colInt : Int32} (hfirst : gdd.minSeconds.toInt ≤ time) :
    floorDiv (time - gdd.minSeconds.toInt) gdd.secsPerCol = some colInt ↔
      colInt.toInt = ⌊gdd.cols.toInt *
        ((time - gdd.minSeconds.toInt) / (gdd.maxSeconds - gdd.minSeconds.toUInt32).toNat)⌋ := by
  have hsecs : (0 : ℚ) < (gdd.maxSeconds - gdd.minSeconds.toUInt32).toNat := Nat.cast_pos.mpr hgdd.secs_pos
  have hcols : (0 : ℚ) < gdd.cols.toInt := Int.cast_pos.mpr hgdd.cols
  have hwidth : 0 < gdd.secsPerCol := div_pos hsecs hcols
  have hquot : (time - gdd.minSeconds.toInt) / gdd.secsPerCol = gdd.cols.toInt *
      ((time - gdd.minSeconds.toInt) / (gdd.maxSeconds - gdd.minSeconds.toUInt32).toNat) := by
    rw [DotFrame.secsPerCol]
    field_simp
  rw [floorDiv, if_neg hwidth.ne', hquot]
  have hnonneg : 0 ≤ ⌊gdd.cols.toInt *
      ((time - gdd.minSeconds.toInt) / (gdd.maxSeconds - gdd.minSeconds.toUInt32).toNat)⌋ := by
    apply Int.floor_nonneg.mpr
    exact mul_nonneg hcols.le (div_nonneg (sub_nonneg.mpr hfirst) hsecs.le)
  generalize ⌊gdd.cols.toInt *
    ((time - gdd.minSeconds.toInt) / (gdd.maxSeconds - gdd.minSeconds.toUInt32).toNat)⌋ = col at hnonneg ⊢
  have hlt := colInt.toInt_lt
  split_ifs with hfits
  · have hword := Int32.toInt_ofInt_of_le hfits.1 hfits.2
    rw [Option.some_inj]
    constructor
    · rintro rfl
      exact hword
    · intro hcol
      exact Int32.toInt.inj (hword.trans hcol.symm)
  · constructor
    · exact nofun
    · intro hcol
      omega

/-- A bit is among those that are allocated just if its column is not too far out for its row. -/
theorem DotFrame.Proper.bitIndex_iff (hroom : gdd.cells + 7 < 2 ^ 31) (h : gdd.span < 2 ^ 64)
    {offset : UInt64} (hmin : gdd.minOffset ≤ offset) (hmax : offset ≤ gdd.maxOffset) {time : ℚ}
    (hfirst : gdd.minSeconds.toInt ≤ time) :
    (∃ i, gdd.bitIndex offset time = some i ∧ 0 ≤ i.toInt ∧ i.toInt < gdd.cells) ↔
      gdd.ColumnFits offset.toNat time := by
  obtain ⟨rowInt, hrowInt, hrow⟩ := hgdd.rowInt_eq h hmin hmax
  have hrowLt := hgdd.rowAt_lt (UInt64.le_iff_toNat_le.mp hmax)
  have hcols := hgdd.cols
  have hcolsPos : (0 : ℚ) < gdd.cols.toInt := Int.cast_pos.mpr hgdd.cols
  have hsecs : (0 : ℚ) < (gdd.maxSeconds - gdd.minSeconds.toUInt32).toNat := Nat.cast_pos.mpr hgdd.secs_pos
  have hcolIff : ∀ colInt, floorDiv (time - gdd.minSeconds.toInt) gdd.secsPerCol = some colInt ↔ _ :=
    fun colInt => hgdd.colInt_eq hfirst
  have hnonneg := div_nonneg (sub_nonneg.mpr hfirst) hsecs.le
  rw [DotFrame.ColumnFits]
  generalize (time - gdd.minSeconds.toInt) / (gdd.maxSeconds - gdd.minSeconds.toUInt32).toNat = y at *
  have hcolNonneg : 0 ≤ ⌊gdd.cols.toInt * y⌋ := Int.floor_nonneg.mpr (mul_nonneg hcolsPos.le hnonneg)
  have hbelow : gdd.rowAt offset.toNat * gdd.cols.toInt + ⌊gdd.cols.toInt * y⌋ < gdd.cells ↔
      gdd.rowAt offset.toNat + y < (gdd.rows.toInt : ℚ) + 1 := by
    rw [← lt_sub_iff_add_lt', ← lt_sub_iff_add_lt', DotFrame.cells, ← sub_mul, mul_comm (_ - _), Int.floor_lt]
    push_cast
    exact mul_lt_mul_iff_right₀ hcolsPos
  -- the row begins before the last one does
  have hstart : (gdd.rowAt offset.toNat : ℤ) * gdd.cols.toInt ≤ gdd.cells := by
    rw [DotFrame.cells]
    exact mul_le_mul_of_nonneg_right (by omega) (by omega)
  have hstartNonneg : 0 ≤ (gdd.rowAt offset.toNat : ℤ) * gdd.cols.toInt :=
    mul_nonneg (Int.natCast_nonneg _) (by omega)
  have hmul : (rowInt * gdd.cols).toInt = gdd.rowAt offset.toNat * gdd.cols.toInt := by
    rw [← hrow] at hstart hstartNonneg ⊢
    apply Word.toInt32_mul <;> omega
  rw [← hbelow, DotFrame.bitIndex]
  constructor
  · rintro ⟨i, hi, hpos, hlt⟩
    obtain ⟨colInt, hcol, hi⟩ := Option.bind_eq_some_iff.mp hi
    rw [hrowInt] at hi
    obtain rfl := Option.some.inj hi
    rw [hcolIff] at hcol
    have hcolLt := colInt.toInt_lt
    -- a sum that does not fit would be below 0
    by_cases hfits : (rowInt * gdd.cols).toInt + colInt.toInt < 2 ^ 31
    · rw [Word.toInt32_add (by omega) hfits, hmul, hcol] at hlt
      exact hlt
    · exact absurd (Word.toInt32_add_neg (not_lt.mp hfits)) (not_lt.mpr hpos)
  · intro hlt
    have hword := Int32.toInt_ofInt_of_le (n := ⌊gdd.cols.toInt * y⌋) (by omega) (by omega)
    rw [(hcolIff _).mpr hword, Option.bind_some, hrowInt, Option.map_some]
    have hsum : (rowInt * gdd.cols + Int32.ofInt ⌊gdd.cols.toInt * y⌋).toInt =
        gdd.rowAt offset.toNat * gdd.cols.toInt + ⌊gdd.cols.toInt * y⌋ := by
      rw [Word.toInt32_add (by omega) (by omega), hmul, hword]
    exact ⟨_, rfl, by omega, by omega⟩

/-! ## The walk of an IO -/

variable {offset : UInt64} {bytes time : ℚ}

theorem DotFrame.Proper.inside_iff (h : gdd.span < 2 ^ 64) (i : ℕ) :
    (∃ q, (gdd.walk time).place i (some offset) = some q ∧ (gdd.walk time).inside q) ↔
      offset.toNat + i * gdd.stride ≤ gdd.maxOffset.toNat := by
  have hmax := gdd.maxOffset.toNat_lt
  rw [hgdd.place_eq h]
  constructor
  · rintro ⟨q, hq, hinside⟩
    split_ifs at hq with hfits
    obtain rfl := Option.some.inj hq
    have hle := UInt64.le_iff_toNat_le.mp hinside
    rwa [UInt64.toNat_ofNat_of_lt' hfits] at hle
  · intro hle
    have hfits : offset.toNat + i * gdd.stride < 2 ^ 64 := hle.trans_lt hmax
    rw [if_pos hfits]
    refine ⟨_, rfl, UInt64.le_iff_toNat_le.mpr ?_⟩
    rwa [UInt64.toNat_ofNat_of_lt' hfits]

/-- A turn of the loop: the offset has a value, and within the graph its bit is one of those allocated. -/
theorem DotFrame.Proper.turn_iff (hroom : gdd.cells + 7 < 2 ^ 31) (h : gdd.span < 2 ^ 64)
    (hmin : gdd.minOffset ≤ offset) (hfirst : gdd.minSeconds.toInt ≤ time) (j : ℕ) :
    (∃ q, (gdd.walk time).place j (some offset) = some q ∧ ((gdd.walk time).inside q →
      ∃ i, (gdd.walk time).find q = some i ∧ 0 ≤ i.toInt ∧ i.toInt < gdd.cells)) ↔
    offset.toNat + j * gdd.stride < 2 ^ 64 ∧ (offset.toNat + j * gdd.stride ≤ gdd.maxOffset.toNat →
      gdd.ColumnFits (offset.toNat + j * gdd.stride) time) := by
  rw [hgdd.place_eq h]
  by_cases hfits : offset.toNat + j * gdd.stride < 2 ^ 64
  · have hword := UInt64.toNat_ofNat_of_lt' hfits
    have hle := UInt64.le_iff_toNat_le.mp hmin
    have hmin' : gdd.minOffset ≤ UInt64.ofNat (offset.toNat + j * gdd.stride) := by
      rw [UInt64.le_iff_toNat_le, hword]
      omega
    have hinside : (gdd.walk time).inside (UInt64.ofNat (offset.toNat + j * gdd.stride)) ↔
        offset.toNat + j * gdd.stride ≤ gdd.maxOffset.toNat := by
      have hle : UInt64.ofNat (offset.toNat + j * gdd.stride) ≤ gdd.maxOffset ↔ _ := UInt64.le_iff_toNat_le
      rwa [hword] at hle
    rw [if_pos hfits, and_iff_right hfits]
    simp only [Option.some_inj, exists_eq_left']
    rw [hinside]
    refine imp_congr_right fun hmax => ?_
    have hbit := hgdd.bitIndex_iff hroom h hmin' (hinside.mpr hmax) hfirst
    rwa [hword] at hbit
  · rw [if_neg hfits]
    constructor
    · rintro ⟨q, hq, -⟩
      nomatch hq
    · exact fun hturn => absurd hturn.1 hfits

/-- The bytes of `j` rows are less than those of the IO. -/
theorem DotFrame.Proper.paid_iff (h : gdd.span < 2 ^ 64) (j : ℕ) :
    j • gdd.bytesPerRow < bytes ↔ j * gdd.span < bytes * gdd.rows.toInt := by
  have hrows : (0 : ℚ) < (gdd.rows.toInt.toNat : ℕ) := Nat.cast_pos.mpr hgdd.rows_pos
  rw [hgdd.bytesPerRow_eq h, nsmul_eq_mul, mul_div_assoc', div_lt_iff₀ hrows, hgdd.natCast_rows]

theorem DotFrame.Proper.clear_iff (hroom : gdd.cells + 7 < 2 ^ 31) (h : gdd.span < 2 ^ 64)
    (hmin : gdd.minOffset ≤ offset) (hmax : offset ≤ gdd.maxOffset) (hfirst : gdd.minSeconds.toInt ≤ time) :
    (gdd.walk time).Clear (fun i => 0 ≤ i.toInt ∧ i.toInt < gdd.cells) (some offset) bytes ↔
      gdd.EndFits offset bytes ∧
      ∀ j : ℕ, j * gdd.span < bytes * gdd.rows.toInt → offset.toNat + j * gdd.stride ≤ gdd.maxOffset.toNat →
        gdd.ColumnFits (offset.toNat + j * gdd.stride) time := by
  have hcost : (gdd.walk time).cost = gdd.bytesPerRow := rfl
  unfold Walk.Clear
  simp only [hcost, hgdd.paid_iff h, hgdd.inside_iff h, hgdd.turn_iff hroom h hmin hfirst]
  constructor
  · intro hclear
    refine ⟨fun hstride => ?_, fun j hpaid hinside => ?_⟩
    · by_cases hpaid : gdd.strides offset * gdd.span < bytes * gdd.rows.toInt
      · exact .inl (hclear _ hpaid fun i hi => (DotFrame.strides_spec hstride hmax i).mpr hi).1
      · exact .inr (not_lt.mp hpaid)
    · refine (hclear j hpaid fun i hi => ?_).2 hinside
      exact (Nat.add_le_add_left (Nat.mul_le_mul_right _ hi.le) _).trans hinside
  · rintro ⟨hends, hcolumns⟩ j hpaid hbefore
    refine ⟨?_, hcolumns j hpaid⟩
    have hmaxLt := gdd.maxOffset.toNat_lt
    by_cases hinside : offset.toNat + j * gdd.stride ≤ gdd.maxOffset.toNat
    · omega
    · -- the turn is the first that is behind the graph
      have hstride : gdd.stride ≠ 0 := by
        intro hzero
        rw [hzero, Nat.mul_zero] at hinside
        exact hinside (UInt64.le_iff_toNat_le.mp hmax)
      have hj : j = gdd.strides offset := by
        rw [DotFrame.strides_spec hstride hmax] at hinside
        by_contra hne
        have hlt : gdd.strides offset < j := lt_of_le_of_ne (not_lt.mp hinside) (Ne.symm hne)
        exact absurd ((DotFrame.strides_spec hstride hmax _).mp (hbefore _ hlt)) (lt_irrefl _)
      rw [hj] at hpaid ⊢
      exact (hends hstride).resolve_right (not_le.mpr hpaid)

/-- A time that the graph has is in one of its columns, or at the end of the last one. -/
theorem DotFrame.Proper.columns_of_nonneg (hsigned : 0 ≤ gdd.minSeconds.toInt)
    (hlast : time ≤ gdd.maxSeconds.toNat) {n : ℕ} (hn : n ≤ gdd.maxOffset.toNat) :
    gdd.ColumnFits n time := by
  have hrow : (gdd.rowAt n : ℚ) + 1 ≤ gdd.rows.toInt := by
    rw [← hgdd.natCast_rows]
    exact_mod_cast hgdd.rowAt_lt hn
  have hsecs := hgdd.secs_pos
  have hle := UInt32.le_iff_toNat_le.mpr hgdd.seconds.le
  have hfirst : (gdd.minSeconds.toUInt32.toNat : ℤ) = gdd.minSeconds.toInt := by
    have hword : (0 : Int32) ≤ gdd.minSeconds := by
      rw [Int32.le_iff_toInt_le]
      exact hsigned
    rw [Int32.toNat_toUInt32_of_le hword]
    exact Int.toNat_of_nonneg hsigned
  have hwidth : ((gdd.maxSeconds - gdd.minSeconds.toUInt32).toNat : ℚ) =
      gdd.maxSeconds.toNat - gdd.minSeconds.toInt := by
    rw [UInt32.toNat_sub_of_le _ _ hle, Nat.cast_sub hgdd.seconds.le, ← hfirst, Int.cast_natCast]
  have hcol : (time - gdd.minSeconds.toInt) / (gdd.maxSeconds - gdd.minSeconds.toUInt32).toNat ≤ 1 := by
    rw [div_le_one (Nat.cast_pos.mpr hsecs), hwidth]
    exact sub_le_sub_right hlast _
  rw [DotFrame.ColumnFits]
  linarith

end

/-- Without bytes in a row there is no row of an offset. -/
theorem not_run_of_not_finite {gdd : DotFrame} (hgdd : gdd.Proper) (h : ¬ gdd.span < 2 ^ 64) {offset : UInt64}
    {bytes time : ℚ} (hshows : gdd.Shows offset bytes time) {R : Int32 → Prop} :
    ¬ ∃ fuel is, (gdd.walk (time / 1000000000)).run fuel (some offset) bytes = some is ∧ ∀ i ∈ is, R i := by
  rintro ⟨fuel, is, hrun, -⟩
  cases fuel with
  | zero => cases hrun
  | succ fuel =>
    have hfind : (gdd.walk (time / 1000000000)).find offset = none := by
      show gdd.bitIndex offset (time / 1000000000) = none
      rw [DotFrame.bitIndex, hgdd.bytesPerRow_eq_zero h]
      cases floorDiv (time / 1000000000 - gdd.minSeconds.toInt) gdd.secsPerCol with
      | none => rfl
      | some colInt => rfl
    have hinside : (gdd.walk (time / 1000000000)).inside offset := hshows.2.2.1
    rw [Walk.run, if_pos hshows.1, Option.bind_some, if_pos hinside, hfind] at hrun
    cases hrun

/-- An IO that the graph shows, where the bytes of a row can be counted. -/
theorem drawn_iff_of_finite {gdd : GraphDotData} (hgdd : gdd.Proper) (hroom : gdd.cells + 7 < 2 ^ 31)
    (h : gdd.span < 2 ^ 64) {offset : UInt64} {bytes time : ℚ} (hshows : gdd.Shows offset bytes time) :
    (∃ fuel gdd' drawn, setGddBit fuel gdd offset bytes time = some gdd' ∧
      gdd'.bits = gdd.bits ++ drawn ∧ ∀ i ∈ drawn, 0 ≤ i ∧ i < gdd.cells) ↔
    gdd.EndFits offset bytes ∧
    ∀ j : ℕ, j * gdd.span < bytes * gdd.rows.toInt → offset.toNat + j * gdd.stride ≤ gdd.maxOffset.toNat →
      gdd.ColumnFits (offset.toNat + j * gdd.stride) (time / 1000000000) := by
  rw [drawn_iff hshows]
  obtain ⟨-, hmin, hmax, hfirst, -⟩ := hshows
  rw [Walk.exists_run_iff (hgdd.bytesPerRow_pos h), hgdd.clear_iff hroom h hmin hmax hfirst]

/-- **An IO is dotted** just if it can be drawn. -/
theorem dotted_iff {graphHeight ioGraphScale graphWidth : Int32} {minSeconds maxSeconds stopSeconds : UInt32}
    {minOffset maxOffset : UInt64} {fresh gdd : GraphDotData}
    (h : allocDotData graphHeight ioGraphScale graphWidth minSeconds maxSeconds minOffset maxOffset
      stopSeconds = some fresh) (hrows : 1 ≤ fresh.rows.toInt) (hcols : 1 ≤ fresh.cols.toInt)
    (hoffsets : minOffset ≤ maxOffset) (hseconds : minSeconds < maxSeconds) (hgdd : DotsOf fresh gdd)
    (offset : UInt64) (bytes time : ℚ) :
    Dotted gdd offset bytes time ↔ Drawable gdd.toDotFrame offset bytes time := by
  have hframe := toDotFrame_dotsOf hgdd
  have hproper : gdd.Proper := by
    rw [hframe]
    unfold allocDotData at h
    dsimp only at h
    split_ifs at h
    obtain rfl := Option.some.inj h
    exact ⟨hrows, hcols, UInt64.le_iff_toNat_le.mp hoffsets, UInt32.lt_iff_toNat_lt.mp hseconds⟩
  have hroomIff : gdd.cells ≤ 8 * gdd.room ↔ gdd.cells + 7 < 2 ^ 31 := by
    rw [hframe]
    exact room_iff h hrows hcols
  constructor
  · rintro ⟨hroom, hdrawn⟩
    rw [hroomIff] at hroom
    have hfinite : gdd.Shows offset bytes time → gdd.span < 2 ^ 64 := by
      intro hshows
      by_contra hspan
      exact not_run_of_not_finite hproper hspan hshows ((drawn_iff hshows).mp hdrawn)
    refine ⟨hroom, hfinite, fun hshows => ?_, fun hshows => .inr ?_⟩
    · exact ((drawn_iff_of_finite hproper hroom (hfinite hshows) hshows).mp hdrawn).1
    · exact ((drawn_iff_of_finite hproper hroom (hfinite hshows) hshows).mp hdrawn).2
  · rintro ⟨hroom, hfinite, hends, hcolumns⟩
    refine ⟨hroomIff.mpr hroom, ?_⟩
    by_cases hshows : gdd.Shows offset bytes time
    · refine (drawn_iff_of_finite hproper hroom (hfinite hshows) hshows).mpr ⟨hends hshows, ?_⟩
      rcases hcolumns hshows with hsigned | hcolumns
      · intro _ _ hinside
        exact hproper.columns_of_nonneg hsigned hshows.2.2.2.2 hinside
      · exact hcolumns
    · obtain ⟨gdd', hset, -, hbits⟩ := setGddBit_of_not_shown hshows 0
      exact ⟨1, gdd', [], hset, by rw [hbits, List.append_nil], nofun⟩

/-- A graph of the standard size. -/
def standardGraph (maxOffset : UInt64) : GraphDotData where
  minOffset := 0
  maxOffset := maxOffset
  rows := 2000
  cols := 700
  minSeconds := 0
  maxSeconds := 10
  stopSeconds := 10
  room := 175088

theorem dotted_iff_standardGraph : allocDotData 250 8 700 0 10 0 4096 10 = some (standardGraph 4096) ∧
    (Dotted (standardGraph 4096) 0 512 0 ↔ Drawable (standardGraph 4096).toDotFrame 0 512 0) := by
  have h : allocDotData 250 8 700 0 10 0 4096 10 = some (standardGraph 4096) := rfl
  exact ⟨h, dotted_iff h (by decide) (by decide) (by decide) (by decide) .fresh 0 512 0⟩

/-- A graph of all that 64 bits count has no bytes in a row, and one that is 8192 wide and 65536 high has the
bits of one row. -/
theorem not_dotted :
    (allocDotData 250 8 700 0 10 0 0xffffffffffffffff 10 = some (standardGraph 0xffffffffffffffff) ∧
      (standardGraph 0xffffffffffffffff).bytesPerRow = 0 ∧
      ¬ Dotted (standardGraph 0xffffffffffffffff) 0 512 0) ∧
    ∃ fresh, allocDotData 65536 8 8192 0 10 0 4096 10 = some fresh ∧
      fresh.cells = 524289 * 8192 ∧ 8 * fresh.room = 8192 ∧ ¬ Dotted fresh 0 512 0 := by
  constructor
  · have hproper : (standardGraph 0xffffffffffffffff).Proper :=
      ⟨by decide, by decide, by decide, by decide⟩
    have hspan : ¬ (standardGraph 0xffffffffffffffff).span < 2 ^ 64 := by decide
    have hshows : (standardGraph 0xffffffffffffffff).Shows 0 512 0 :=
      ⟨by decide, by decide, by decide, by decide +kernel, by decide +kernel⟩
    refine ⟨rfl, hproper.bytesPerRow_eq_zero hspan, fun hdotted => ?_⟩
    exact not_run_of_not_finite hproper hspan hshows ((drawn_iff hshows).mp hdotted.drawn)
  · refine ⟨_, rfl, rfl, rfl, fun hdotted => ?_⟩
    exact absurd hdotted.room (by decide)

end Blktrace.Iowatcher
