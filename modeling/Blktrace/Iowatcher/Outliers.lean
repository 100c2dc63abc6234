import Blktrace.Lib.Buckets
import Blktrace.Lib.Word
import Blktrace.Iowatcher.DevMap

/-!
# `iowatcher/blkparse.c`: the part of the axis that is plotted

`filter_outliers` cuts the axis into tenths, counts the ends of the queued IOs in each of them, and in one
more behind them for what the truncated width leaves over. What is plotted goes from the first to the last
bucket that has a twentieth of the fullest.
-/

namespace Blktrace.Iowatcher

/-! ## The functions -/

/-- An IO in `find_extreme_offsets`. The banks of fio are left out. -/
def extremeOffsets (devices : List DevInfo) (s : UInt64 × UInt64) (io : BlkIoTrace) :
    Option (UInt64 × UInt64) :=
  if io.hasTc blkTcNotify then some s
  else
    (mapIo devices io).map fun found =>
      let min := if found < s.1 then found else s.1
      let found := found + io.bytes.toUInt64
      (min, if s.2 < found then found else s.2)

/-- `find_extreme_offsets`: the devices as they are mapped, `*min_ret` and `*max_ret`. -/
def findExtremeOffsets (recs : List BlkIoTrace) : Option (List DevInfo × UInt64 × UInt64) :=
  (mapDevices recs).bind fun devices =>
    (recs.foldlM (extremeOffsets devices) (0xffffffffffffffff, 0)).map fun s => (devices, s)

/-- The arrays of `filter_outliers`, and the indices that they were used with. -/
structure PerBucket where
  hits : ℤ → ℕ := fun _ => 0
  maxPerBucket : ℤ → UInt64 := fun _ => 0
  minPerBucket : ℤ → UInt64 := fun _ => 0xffffffffffffffff
  slots : List ℤ := []

/-- `(int)(off / bytes_per_bucket)`. -/
def slotOf (bytesPerBucket off : UInt64) : ℤ := (off / bytesPerBucket).toUInt32.toInt32.toInt

/-- The first end of an IO. -/
def PerBucket.hitFirst (bytesPerBucket off : UInt64) (b : PerBucket) : PerBucket :=
  let slot := slotOf bytesPerBucket off
  { b with
    hits := Function.update b.hits slot (b.hits slot + 1)
    minPerBucket :=
      if off < b.minPerBucket slot then Function.update b.minPerBucket slot off else b.minPerBucket
    slots := b.slots ++ [slot] }

/-- The other end. -/
def PerBucket.hitLast (bytesPerBucket off : UInt64) (b : PerBucket) : PerBucket :=
  let slot := slotOf bytesPerBucket off
  { b with
    hits := Function.update b.hits slot (b.hits slot + 1)
    maxPerBucket :=
      if b.maxPerBucket slot < off then Function.update b.maxPerBucket slot off else b.maxPerBucket
    slots := b.slots ++ [slot] }

/-- A queued IO. -/
def isQueue (io : BlkIoTrace) : Bool :=
  !io.hasTc blkTcNotify && BlkTa.ofAction io.action == some .queue

/-- A turn of the first loop, without its `check_io_types`. A division by 0 ends the program. -/
def filterRecord (devices : List DevInfo) (minOffset bytesPerBucket : UInt64) (b : PerBucket)
    (io : BlkIoTrace) : Option PerBucket :=
  if isQueue io then
    if bytesPerBucket = 0 then none
    else
      (mapIo devices io).map fun found =>
        let off := found - minOffset
        (b.hitFirst bytesPerBucket off).hitLast bytesPerBucket (off + io.bytes.toUInt64)
  else some b

namespace PerBucket

/-- `fat_count`. -/
def fatCount (b : PerBucket) : ℕ :=
  (List.range 11).foldl (fun fat (slot : ℕ) => if fat < b.hits slot then b.hits slot else fat) 0

/-- `d >= (double)fat_count * .05`, which is exact for an `int`. -/
def isFat (b : PerBucket) (slot : ℕ) : Bool := b.fatCount ≤ 20 * b.hits slot

/-- `*yzoom_max`. -/
def yzoomMax (minOffset maxOffset : UInt64) (b : PerBucket) : UInt64 :=
  match (List.range 11).reverse.find? b.isFat with
  | some slot => b.maxPerBucket slot + minOffset
  | none => maxOffset

/-- `*yzoom_min`. -/
def yzoomMin (minOffset : UInt64) (b : PerBucket) : UInt64 :=
  match (List.range 10).find? b.isFat with
  | some slot => b.minPerBucket slot + minOffset
  | none => minOffset

end PerBucket

/-- `bytes_per_bucket`. -/
def bytesPerBucket (minOffset maxOffset : UInt64) : UInt64 := (maxOffset - minOffset + 1) / 10

/-- The first loop of `filter_outliers`. Its counts are `int`s, which a trace cannot exhaust that has less
than 2^30 records. -/
def fillBuckets (devices : List DevInfo) (recs : List BlkIoTrace) (minOffset maxOffset : UInt64) :
    Option PerBucket :=
  recs.foldlM (filterRecord devices minOffset (bytesPerBucket minOffset maxOffset)) {}

/-- `filter_outliers`: the arrays, and what it returns. -/
def filterOutliers (devices : List DevInfo) (recs : List BlkIoTrace) (minOffset maxOffset : UInt64) :
    Option (PerBucket × UInt64 × UInt64) :=
  (fillBuckets devices recs minOffset maxOffset).map fun b =>
    (b, b.yzoomMin minOffset, b.yzoomMax minOffset maxOffset)

/-! ## What is claimed -/

/-- **The outliers are filtered**: a bucket has a width, no index is outside of the arrays, and the range
is a part of the axis. -/
structure Filtered (devices : List DevInfo) (recs : List BlkIoTrace) (minOffset maxOffset : UInt64) :
    Prop where
  width : bytesPerBucket minOffset maxOffset ≠ 0
  range : ∃ b yzoomMin yzoomMax,
    filterOutliers devices recs minOffset maxOffset = some (b, yzoomMin, yzoomMax) ∧
    (∀ slot ∈ b.slots, 0 ≤ slot ∧ slot ≤ 10) ∧
    minOffset ≤ yzoomMin ∧ yzoomMin ≤ yzoomMax ∧ yzoomMax ≤ maxOffset

/-- The queued IOs. -/
def queuedIos (recs : List BlkIoTrace) : List BlkIoTrace := recs.filter isQueue

/-- Where an IO is on the axis. -/
def placeOf (devices : List DevInfo) (io : BlkIoTrace) : ℕ := ((mapIo devices io).getD 0).toNat

/-- Where it ends. -/
def behind (devices : List DevInfo) (io : BlkIoTrace) : ℕ := placeOf devices io + io.bytes.toNat

section

variable (devices : List DevInfo) (recs : List BlkIoTrace) (minOffset maxOffset : UInt64)

/-- A tenth of the axis. -/
def tenth : ℕ := (maxOffset.toNat - minOffset.toNat + 1) / 10

def firstIn (io : BlkIoTrace) : ℕ := (placeOf devices io - minOffset.toNat) / tenth minOffset maxOffset

def lastIn (io : BlkIoTrace) : ℕ := (behind devices io - minOffset.toNat) / tenth minOffset maxOffset

/-- How many ends of queued IOs are in a tenth. -/
def endsIn (k : ℕ) : ℕ :=
  Buckets.hits (firstIn devices minOffset maxOffset) (lastIn devices minOffset maxOffset) (queuedIos recs) k

/-- It has a twentieth of what any has. -/
def Fat (k : ℕ) : Prop :=
  ∀ j < 11, endsIn devices recs minOffset maxOffset j ≤ 20 * endsIn devices recs minOffset maxOffset k

/-- There is a queued IO; the axis is ten bytes long at least, and not all of what 64 bits count; no queued
IO ends eleven tenths behind the beginning or more; the first tenth that is fat, the one behind the tenth
apart, has the beginning of an IO; and the last one has the end of an IO, or else the very beginning of the
axis is one of a queued IO, in a tenth that is fat. -/
structure Plottable : Prop where
  queued : queuedIos recs ≠ []
  wide : minOffset.toNat + 9 ≤ maxOffset.toNat
  finite : maxOffset.toNat - minOffset.toNat + 1 < 2 ^ 64
  reach : ∀ io ∈ queuedIos recs, behind devices io < minOffset.toNat + 11 * tenth minOffset maxOffset
  bottom : ∀ k < 10, Fat devices recs minOffset maxOffset k →
    (∀ j < k, ¬ Fat devices recs minOffset maxOffset j) →
      ∃ io ∈ queuedIos recs, firstIn devices minOffset maxOffset io = k
  top : (∀ k < 11, Fat devices recs minOffset maxOffset k →
      (∀ j < 11, k < j → ¬ Fat devices recs minOffset maxOffset j) →
        ∃ io ∈ queuedIos recs, lastIn devices minOffset maxOffset io = k) ∨
    Fat devices recs minOffset maxOffset 0 ∧ ∃ io ∈ queuedIos recs, placeOf devices io = minOffset.toNat

end

/-! ## The extremes -/

variable {devices : List DevInfo} {recs : List BlkIoTrace} {minOffset maxOffset : UInt64}

theorem extremes_le {s s' : UInt64 × UInt64} (h : recs.foldlM (extremeOffsets devices) s = some s') :
    s'.1 ≤ s.1 ∧ s.2 ≤ s'.2 ∧ ∀ io ∈ iosOf recs, ∃ found, mapIo devices io = some found ∧
      s'.1 ≤ found ∧ found + io.bytes.toUInt64 ≤ s'.2 := by
  induction recs generalizing s with
  | nil =>
    obtain rfl := Option.some.inj h
    exact ⟨UInt64.le_refl _, UInt64.le_refl _, nofun⟩
  | cons io recs ih =>
    rw [List.foldlM_cons] at h
    obtain ⟨mid, hmid, hrest⟩ := Option.bind_eq_some_iff.mp h
    obtain ⟨hmin, hmax, hall⟩ := ih hrest
    unfold extremeOffsets at hmid
    rw [iosOf, List.filter_cons]
    by_cases hnotify : io.hasTc blkTcNotify = true
    · rw [if_pos hnotify] at hmid
      obtain rfl := Option.some.inj hmid
      rw [if_neg (by simp [hnotify])]
      exact ⟨hmin, hmax, hall⟩
    · rw [if_neg hnotify] at hmid
      obtain ⟨found, hfound, rfl⟩ := Option.map_eq_some_iff.mp hmid
      rw [if_pos (by simpa using hnotify), List.forall_mem_cons]
      have hminStep : (if found < s.1 then found else s.1) ≤ s.1 ∧
          (if found < s.1 then found else s.1) ≤ found := by
        split_ifs with hlt
        · exact ⟨UInt64.le_of_lt hlt, UInt64.le_refl _⟩
        · exact ⟨UInt64.le_refl _, UInt64.not_lt.mp hlt⟩
      have hmaxStep : s.2 ≤ (if s.2 < found + io.bytes.toUInt64 then found + io.bytes.toUInt64 else s.2) ∧
          found + io.bytes.toUInt64 ≤
            (if s.2 < found + io.bytes.toUInt64 then found + io.bytes.toUInt64 else s.2) := by
        split_ifs with hlt
        · exact ⟨UInt64.le_of_lt hlt, UInt64.le_refl _⟩
        · exact ⟨UInt64.le_refl _, UInt64.not_lt.mp hlt⟩
      dsimp only at hmin hmax
      refine ⟨UInt64.le_trans hmin hminStep.1, UInt64.le_trans hmaxStep.1 hmax,
        ⟨found, hfound, UInt64.le_trans hmin hminStep.2, UInt64.le_trans hmaxStep.2 hmax⟩, hall⟩

/-! ## The arrays -/

/-- Where an IO begins, behind the smallest offset. -/
def offOf (devices : List DevInfo) (minOffset : UInt64) (io : BlkIoTrace) : UInt64 :=
  (mapIo devices io).getD 0 - minOffset

/-- Both ends of what is in a list. -/
def fill {α : Type*} (width : UInt64) (first last : α → UInt64) (spans : List α) : PerBucket :=
  spans.foldl (fun b a => (b.hitFirst width (first a)).hitLast width (last a)) {}

theorem mem_iosOf_of_queued {io : BlkIoTrace} (h : io ∈ queuedIos recs) : io ∈ iosOf recs := by
  obtain ⟨hmem, hqueue⟩ := List.mem_filter.mp h
  rw [isQueue, Bool.and_eq_true] at hqueue
  exact List.mem_filter.mpr ⟨hmem, hqueue.1⟩

theorem foldlM_filterRecord {width : UInt64} (hwidth : width ≠ 0)
    (hmap : ∀ io ∈ queuedIos recs, (mapIo devices io).isSome) (b : PerBucket) :
    recs.foldlM (filterRecord devices minOffset width) b =
      some ((queuedIos recs).foldl (fun b io => (b.hitFirst width (offOf devices minOffset io)).hitLast width
        (offOf devices minOffset io + io.bytes.toUInt64)) b) := by
  induction recs generalizing b with
  | nil => rfl
  | cons io recs ih =>
    rw [queuedIos, List.filter_cons] at hmap ⊢
    rw [List.foldlM_cons, filterRecord]
    by_cases hqueue : isQueue io = true
    · rw [if_pos hqueue] at hmap ⊢
      obtain ⟨hio, hrest⟩ := List.forall_mem_cons.mp hmap
      obtain ⟨found, hfound⟩ := Option.isSome_iff_exists.mp hio
      rw [if_pos hqueue, if_neg hwidth, hfound, List.foldl_cons, offOf, hfound]
      exact ih hrest _
    · rw [if_neg hqueue] at hmap ⊢
      rw [if_neg hqueue]
      exact ih hmap b

theorem fillBuckets_eq (hwidth : bytesPerBucket minOffset maxOffset ≠ 0)
    (hmap : ∀ io ∈ queuedIos recs, (mapIo devices io).isSome) :
    fillBuckets devices recs minOffset maxOffset =
      some (fill (bytesPerBucket minOffset maxOffset) (offOf devices minOffset)
        (fun io => offOf devices minOffset io + io.bytes.toUInt64) (queuedIos recs)) :=
  foldlM_filterRecord hwidth hmap {}

theorem slotOf_eq {width off : UInt64} (h : off.toNat / width.toNat < 2 ^ 31) :
    slotOf width off = (off.toNat / width.toNat : ℕ) := by
  have hnat : (off / width).toUInt32.toNat = off.toNat / width.toNat := by
    rw [UInt64.toNat_toUInt32, UInt64.toNat_div]
    exact Nat.mod_eq_of_lt (h.trans (by decide))
  have hint := Word.toInt_toInt32_eq (off / width).toUInt32
  rw [hnat, if_neg (not_le.mpr h), sub_zero] at hint
  exact hint

section

variable {width off : UInt64} {i : ℕ} (b : PerBucket)

theorem hits_hitFirst (h : slotOf width off = i) (k : ℕ) :
    (b.hitFirst width off).hits k = b.hits k + if i = k then 1 else 0 := by
  unfold PerBucket.hitFirst
  dsimp only
  rw [h]
  by_cases hk : i = k
  · rw [hk, Function.update_self, if_pos rfl]
  · rw [Function.update_of_ne (by simpa using Ne.symm hk), if_neg hk, Nat.add_zero]

theorem hits_hitLast (h : slotOf width off = i) (k : ℕ) :
    (b.hitLast width off).hits k = b.hits k + if i = k then 1 else 0 := hits_hitFirst b h k

theorem minPerBucket_hitFirst (h : slotOf width off = i) (k : ℕ) :
    (b.hitFirst width off).minPerBucket k =
      if i = k then min (b.minPerBucket k) off else b.minPerBucket k := by
  unfold PerBucket.hitFirst
  dsimp only
  rw [h]
  by_cases hk : i = k
  · rw [hk, if_pos rfl]
    split_ifs with hlt
    · rw [Function.update_self, min_eq_right hlt.le]
    · rw [min_eq_left (not_lt.mp hlt)]
  · rw [if_neg hk]
    split_ifs
    · rw [Function.update_of_ne (by simpa using Ne.symm hk)]
    · rfl

theorem maxPerBucket_hitLast (h : slotOf width off = i) (k : ℕ) :
    (b.hitLast width off).maxPerBucket k =
      if i = k then max (b.maxPerBucket k) off else b.maxPerBucket k := by
  unfold PerBucket.hitLast
  dsimp only
  rw [h]
  by_cases hk : i = k
  · rw [hk, if_pos rfl]
    split_ifs with hlt
    · rw [Function.update_self, max_eq_right hlt.le]
    · rw [max_eq_left (not_lt.mp hlt)]
  · rw [if_neg hk]
    split_ifs
    · rw [Function.update_of_ne (by simpa using Ne.symm hk)]
    · rfl

end

/-- What the arrays say of the spans, bucket by bucket. -/
structure Filled {α : Type*} (width : UInt64) (first last : α → UInt64) (spans : List α) (b : PerBucket) :
    Prop where
  hits : ∀ k : ℕ, b.hits k = Buckets.hits (fun a => (first a).toNat / width.toNat)
    (fun a => (last a).toNat / width.toNat) spans k
  least : ∀ k : ℕ, (∀ a ∈ spans, (first a).toNat / width.toNat = k → b.minPerBucket k ≤ first a) ∧
    (b.minPerBucket k = 0xffffffffffffffff ∨
      ∃ a ∈ spans, (first a).toNat / width.toNat = k ∧ b.minPerBucket k = first a)
  greatest : ∀ k : ℕ, (∀ a ∈ spans, (last a).toNat / width.toNat = k → last a ≤ b.maxPerBucket k) ∧
    (b.maxPerBucket k = 0 ∨ ∃ a ∈ spans, (last a).toNat / width.toNat = k ∧ b.maxPerBucket k = last a)
  slots : ∀ slot, slot ∈ b.slots ↔ ∃ a ∈ spans,
    slot = ((first a).toNat / width.toNat : ℕ) ∨ slot = ((last a).toNat / width.toNat : ℕ)

/-- One span more. -/
theorem Filled.concat {α : Type*} {width : UInt64} {first last : α → UInt64} {spans : List α} {b : PerBucket}
    (hb : Filled width first last spans b) {a : α}
    (hfirst : slotOf width (first a) = ((first a).toNat / width.toNat : ℕ))
    (hlast : slotOf width (last a) = ((last a).toNat / width.toNat : ℕ)) :
    Filled width first last (spans ++ [a]) ((b.hitFirst width (first a)).hitLast width (last a)) := by
  refine ⟨?_, ?_, ?_, ?_⟩
  · intro k
    rw [hits_hitLast _ hlast, hits_hitFirst _ hfirst, hb.hits, Buckets.hits_concat, Nat.add_assoc]
  · intro k
    obtain ⟨hle, hmem⟩ := hb.least k
    have hmin := minPerBucket_hitFirst b hfirst k
    rw [show ((b.hitFirst width (first a)).hitLast width (last a)).minPerBucket =
      (b.hitFirst width (first a)).minPerBucket from rfl, hmin]
    simp only [List.mem_append, List.mem_singleton, or_imp, forall_and, forall_eq, or_and_right,
      exists_or, exists_eq_left]
    by_cases hk : (first a).toNat / width.toNat = k
    · rw [if_pos hk]
      refine ⟨⟨fun a' ha' hk' => (min_le_left _ _).trans (hle a' ha' hk'), fun _ => min_le_right _ _⟩, ?_⟩
      rcases min_choice (b.minPerBucket k) (first a) with hchoice | hchoice <;> rw [hchoice]
      · exact hmem.imp_right .inl
      · exact .inr (.inr ⟨hk, rfl⟩)
    · rw [if_neg hk]
      exact ⟨⟨hle, fun hk' => absurd hk' hk⟩, hmem.imp_right .inl⟩
  · intro k
    obtain ⟨hle, hmem⟩ := hb.greatest k
    have hmax := maxPerBucket_hitLast (b.hitFirst width (first a)) hlast k
    rw [show (b.hitFirst width (first a)).maxPerBucket = b.maxPerBucket from rfl] at hmax
    rw [hmax]
    simp only [List.mem_append, List.mem_singleton, or_imp, forall_and, forall_eq, or_and_right,
      exists_or, exists_eq_left]
    by_cases hk : (last a).toNat / width.toNat = k
    · rw [if_pos hk]
      refine ⟨⟨fun a' ha' hk' => (hle a' ha' hk').trans (le_max_left _ _), fun _ => le_max_right _ _⟩, ?_⟩
      rcases max_choice (b.maxPerBucket k) (last a) with hchoice | hchoice <;> rw [hchoice]
      · exact hmem.imp_right .inl
      · exact .inr (.inr ⟨hk, rfl⟩)
    · rw [if_neg hk]
      exact ⟨⟨hle, fun hk' => absurd hk' hk⟩, hmem.imp_right .inl⟩
  · intro slot
    have hslots : ((b.hitFirst width (first a)).hitLast width (last a)).slots =
        b.slots ++ [slotOf width (first a)] ++ [slotOf width (last a)] := rfl
    rw [hslots, hfirst, hlast, List.append_assoc, List.mem_append, hb.slots]
    simp [or_and_right, exists_or]

theorem filled_fill {α : Type*} {width : UInt64} {first last : α → UInt64} {spans : List α}
    (h : ∀ a ∈ spans, (first a).toNat / width.toNat < 2 ^ 31 ∧ (last a).toNat / width.toNat < 2 ^ 31) :
    Filled width first last spans (fill width first last spans) := by
  induction spans using List.reverseRecOn with
  | nil => exact ⟨fun _ => rfl, fun _ => ⟨nofun, .inl rfl⟩, fun _ => ⟨nofun, .inl rfl⟩, by simp [fill]⟩
  | append_singleton spans a ih =>
    have hspans := ih fun a' ha' => h a' (List.mem_append_left _ ha')
    obtain ⟨hfirst, hlast⟩ := h a (by simp)
    rw [fill, List.foldl_concat]
    exact hspans.concat (slotOf_eq hfirst) (slotOf_eq hlast)

/-! ## The range -/

theorem foldl_fat_le {l : List ℕ} {f : ℕ → ℕ} {fat c : ℕ} :
    l.foldl (fun fat slot => if fat < f slot then f slot else fat) fat ≤ c ↔
      fat ≤ c ∧ ∀ slot ∈ l, f slot ≤ c := by
  induction l generalizing fat with
  | nil => simp
  | cons slot l ih =>
    rw [List.foldl_cons, ih, List.forall_mem_cons, ← and_assoc]
    refine and_congr_left fun _ => ?_
    split_ifs <;> omega

theorem isFat_iff {b : PerBucket} {k : ℕ} :
    b.isFat k = true ↔ ∀ j : ℕ, j < 11 → b.hits j ≤ 20 * b.hits k := by
  rw [PerBucket.isFat, decide_eq_true_iff, PerBucket.fatCount, foldl_fat_le (f := fun k : ℕ => b.hits k)]
  simp

/-- The fullest bucket is fat. -/
theorem exists_isFat (b : PerBucket) :
    ∃ k < 11, b.isFat k = true ∧ ∀ j : ℕ, j < 11 → b.hits j ≤ b.hits k := by
  obtain ⟨k, hk, hmax⟩ :=
    Finset.exists_max_image (Finset.range 11) (fun k : ℕ => b.hits k) ⟨0, by simp⟩
  rw [Finset.mem_range] at hk
  have hall : ∀ j : ℕ, j < 11 → b.hits j ≤ b.hits k := fun j hj => hmax j (Finset.mem_range.mpr hj)
  refine ⟨k, hk, isFat_iff.mpr fun j hj => ?_, hall⟩
  exact (hall j hj).trans (Nat.le_mul_of_pos_left _ (by decide))

theorem yzoomMin_spec (minOffset : UInt64) (b : PerBucket) :
    (∃ k < 10, b.isFat k = true ∧ (∀ j < k, b.isFat j = false) ∧
      b.yzoomMin minOffset = b.minPerBucket k + minOffset) ∨
    (∀ k < 10, b.isFat k = false) ∧ b.yzoomMin minOffset = minOffset := by
  unfold PerBucket.yzoomMin
  cases hfind : (List.range 10).find? b.isFat with
  | some k =>
    obtain ⟨hfat, hk, hbefore⟩ := List.find?_range_eq_some.mp hfind
    refine .inl ⟨k, List.mem_range.mp hk, hfat, fun j hj => ?_, rfl⟩
    simpa using hbefore j hj
  | none =>
    refine .inr ⟨fun k hk => ?_, rfl⟩
    simpa using List.find?_eq_none.mp hfind k (List.mem_range.mpr hk)

theorem yzoomMax_spec (minOffset maxOffset : UInt64) (b : PerBucket) :
    ∃ k < 11, b.isFat k = true ∧ (∀ j < 11, k < j → b.isFat j = false) ∧
      b.yzoomMax minOffset maxOffset = b.maxPerBucket k + minOffset := by
  unfold PerBucket.yzoomMax
  cases hfind : (List.range 11).reverse.find? b.isFat with
  | some k =>
    obtain ⟨hfat, as, bs, hsplit, hbefore⟩ := List.find?_eq_some_iff_append.mp hfind
    have hk : k < 11 := by
      rw [← List.mem_range, ← List.mem_reverse, hsplit]
      simp
    refine ⟨k, hk, hfat, fun j hj hkj => ?_, rfl⟩
    have hsorted : (List.range 11).reverse.Pairwise (· > ·) :=
      List.pairwise_reverse.mpr List.pairwise_lt_range
    have hmem : j ∈ as ++ k :: bs := by
      rw [← hsplit, List.mem_reverse, List.mem_range]
      exact hj
    rw [hsplit, List.pairwise_append, List.pairwise_cons] at hsorted
    rcases List.mem_append.mp hmem with has | hbs
    · simpa using hbefore j has
    · rcases List.mem_cons.mp hbs with rfl | hbs
      · exact absurd hkj (lt_irrefl _)
      · exact absurd hkj (hsorted.2.1.1 j hbs).asymm
  | none =>
    obtain ⟨k, hk, hfat, -⟩ := exists_isFat b
    exact absurd hfat (List.find?_eq_none.mp hfind k (by simpa using hk))

/-! ## In numbers -/

/-- An IO is on the axis, and the offsets are the differences. -/
theorem place_spec (h : findExtremeOffsets recs = some (devices, minOffset, maxOffset))
    {io : BlkIoTrace} (hio : io ∈ queuedIos recs) (hend : behind devices io < 2 ^ 64) :
    (mapIo devices io).isSome ∧ minOffset.toNat ≤ placeOf devices io ∧
      behind devices io ≤ maxOffset.toNat ∧
      (offOf devices minOffset io).toNat = placeOf devices io - minOffset.toNat ∧
      (offOf devices minOffset io + io.bytes.toUInt64).toNat = behind devices io - minOffset.toNat := by
  obtain ⟨devices', -, hfold⟩ := Option.bind_eq_some_iff.mp h
  obtain ⟨s, hs, hpair⟩ := Option.map_eq_some_iff.mp hfold
  obtain ⟨rfl, rfl⟩ := Prod.mk.inj hpair
  obtain ⟨-, -, hall⟩ := extremes_le hs
  obtain ⟨found, hfound, hmin, hmax⟩ := hall io (mem_iosOf_of_queued hio)
  have hplace : placeOf devices' io = found.toNat := by
    rw [placeOf, hfound, Option.getD_some]
  have hbehind : (found + io.bytes.toUInt64).toNat = behind devices' io := by
    rw [behind, hplace] at hend ⊢
    rw [UInt64.toNat_add, UInt32.toNat_toUInt64]
    exact Nat.mod_eq_of_lt hend
  have hoff : (offOf devices' minOffset io).toNat = placeOf devices' io - minOffset.toNat := by
    rw [offOf, hfound, Option.getD_some, UInt64.toNat_sub_of_le _ _ hmin, hplace]
  have hminNat : minOffset.toNat ≤ placeOf devices' io := hplace ▸ UInt64.le_iff_toNat_le.mp hmin
  refine ⟨by rw [hfound]; rfl, hminNat, hbehind ▸ UInt64.le_iff_toNat_le.mp hmax, hoff, ?_⟩
  rw [UInt64.toNat_add, hoff, UInt32.toNat_toUInt64]
  unfold behind at hend ⊢
  rw [Nat.mod_eq_of_lt (by omega)]
  omega

theorem bytesPerBucket_toNat (hle : minOffset.toNat ≤ maxOffset.toNat)
    (hfinite : maxOffset.toNat - minOffset.toNat + 1 < 2 ^ 64) :
    (bytesPerBucket minOffset maxOffset).toNat = tenth minOffset maxOffset := by
  rw [bytesPerBucket, UInt64.toNat_div, UInt64.toNat_add,
    UInt64.toNat_sub_of_le _ _ (UInt64.le_iff_toNat_le.mpr hle), tenth]
  rw [show (1 : UInt64).toNat = 1 from rfl, Nat.mod_eq_of_lt hfinite]
  rfl

/-- A bucket has a width just if the axis is long enough and not too long. -/
theorem bytesPerBucket_ne_zero (hle : minOffset.toNat ≤ maxOffset.toNat) :
    bytesPerBucket minOffset maxOffset ≠ 0 ↔
      minOffset.toNat + 9 ≤ maxOffset.toNat ∧ maxOffset.toNat - minOffset.toNat + 1 < 2 ^ 64 := by
  have hmax := maxOffset.toNat_lt
  by_cases hfinite : maxOffset.toNat - minOffset.toNat + 1 < 2 ^ 64
  · rw [and_iff_left hfinite, ← UInt64.toNat_inj.ne, bytesPerBucket_toNat hle hfinite, tenth]
    show _ / 10 ≠ 0 ↔ _
    omega
  · refine iff_of_false (not_not.mpr ?_) fun h => hfinite h.2
    apply UInt64.toNat_inj.mp
    rw [bytesPerBucket, UInt64.toNat_div, UInt64.toNat_add,
      UInt64.toNat_sub_of_le _ _ (UInt64.le_iff_toNat_le.mpr hle)]
    have hall : maxOffset.toNat - minOffset.toNat + 1 = 2 ^ 64 := by omega
    rw [show (1 : UInt64).toNat = 1 from rfl, hall]
    rfl

/-- What the arrays say of the queued IOs. -/
structure Tallied (devices : List DevInfo) (recs : List BlkIoTrace) (minOffset maxOffset : UInt64)
    (b : PerBucket) : Prop where
  hits : ∀ k : ℕ, b.hits k = endsIn devices recs minOffset maxOffset k
  least : ∀ k : ℕ,
    (∀ io ∈ queuedIos recs, firstIn devices minOffset maxOffset io = k →
      (b.minPerBucket k).toNat ≤ placeOf devices io - minOffset.toNat) ∧
    (b.minPerBucket k = 0xffffffffffffffff ∨
      ∃ io ∈ queuedIos recs, firstIn devices minOffset maxOffset io = k ∧
        (b.minPerBucket k).toNat = placeOf devices io - minOffset.toNat)
  greatest : ∀ k : ℕ,
    (∀ io ∈ queuedIos recs, lastIn devices minOffset maxOffset io = k →
      behind devices io - minOffset.toNat ≤ (b.maxPerBucket k).toNat) ∧
    (b.maxPerBucket k = 0 ∨
      ∃ io ∈ queuedIos recs, lastIn devices minOffset maxOffset io = k ∧
        (b.maxPerBucket k).toNat = behind devices io - minOffset.toNat)
  slots : ∀ slot, slot ∈ b.slots ↔ ∃ io ∈ queuedIos recs,
    slot = (firstIn devices minOffset maxOffset io : ℕ) ∨ slot = (lastIn devices minOffset maxOffset io : ℕ)

theorem hits_congr {α : Type*} {first last first' last' : α → ℕ} {spans : List α}
    (h : ∀ a ∈ spans, first a = first' a ∧ last a = last' a) (k : ℕ) :
    Buckets.hits first last spans k = Buckets.hits first' last' spans k := by
  unfold Buckets.hits
  congr 1
  · exact List.countP_congr fun a ha => by rw [(h a ha).1]
  · exact List.countP_congr fun a ha => by rw [(h a ha).2]

/-- The indices, which are small enough for an `int`. -/
theorem quot_spec (h : findExtremeOffsets recs = some (devices, minOffset, maxOffset))
    (hle : minOffset.toNat ≤ maxOffset.toNat) (hwidth : bytesPerBucket minOffset maxOffset ≠ 0)
    {io : BlkIoTrace} (hio : io ∈ queuedIos recs) (hend : behind devices io < 2 ^ 64) :
    ((offOf devices minOffset io).toNat / (bytesPerBucket minOffset maxOffset).toNat =
        firstIn devices minOffset maxOffset io ∧
      (offOf devices minOffset io + io.bytes.toUInt64).toNat / (bytesPerBucket minOffset maxOffset).toNat =
        lastIn devices minOffset maxOffset io) ∧
      firstIn devices minOffset maxOffset io < 2 ^ 31 ∧ lastIn devices minOffset maxOffset io < 2 ^ 31 := by
  obtain ⟨hwide, hfinite⟩ := (bytesPerBucket_ne_zero hle).mp hwidth
  obtain ⟨-, -, hbehind, hfirst, hlast⟩ := place_spec h hio hend
  have htenth : 10 * tenth minOffset maxOffset ≤ maxOffset.toNat - minOffset.toNat + 1 ∧
      maxOffset.toNat - minOffset.toNat + 1 < 10 * tenth minOffset maxOffset + 10 ∧
      0 < tenth minOffset maxOffset := by
    unfold tenth
    omega
  have hmore : placeOf devices io ≤ behind devices io := Nat.le_add_right _ _
  rw [bytesPerBucket_toNat hle hfinite, hfirst, hlast]
  refine ⟨⟨rfl, rfl⟩, ?_, ?_⟩
  · apply (Nat.div_lt_iff_lt_mul htenth.2.2).mpr
    omega
  · apply (Nat.div_lt_iff_lt_mul htenth.2.2).mpr
    omega

theorem fillBuckets_tallied (h : findExtremeOffsets recs = some (devices, minOffset, maxOffset))
    (hends : ∀ io ∈ queuedIos recs, behind devices io < 2 ^ 64)
    (hle : minOffset.toNat ≤ maxOffset.toNat) (hwidth : bytesPerBucket minOffset maxOffset ≠ 0) :
    ∃ b, fillBuckets devices recs minOffset maxOffset = some b ∧
      Tallied devices recs minOffset maxOffset b := by
  have hplace := fun io (hio : io ∈ queuedIos recs) => place_spec h hio (hends io hio)
  have hquot := fun io (hio : io ∈ queuedIos recs) => quot_spec h hle hwidth hio (hends io hio)
  have hdiv := fun io (hio : io ∈ queuedIos recs) => (hquot io hio).1
  refine ⟨_, fillBuckets_eq hwidth fun io hio => (hplace io hio).1, ?_⟩
  have hfilled : Filled (bytesPerBucket minOffset maxOffset) (offOf devices minOffset)
      (fun io => offOf devices minOffset io + io.bytes.toUInt64) (queuedIos recs) _ :=
    filled_fill fun io hio => by
      rw [(hdiv io hio).1, (hdiv io hio).2]
      exact (hquot io hio).2
  obtain ⟨hhits, hleast, hgreatest, hslots⟩ := hfilled
  refine ⟨fun k => (hhits k).trans (hits_congr hdiv k), fun k => ?_, fun k => ?_, fun slot => ?_⟩
  · obtain ⟨hall, hmem⟩ := hleast k
    constructor
    · intro io hio hk
      rw [← (hplace io hio).2.2.2.1]
      exact UInt64.le_iff_toNat_le.mp (hall io hio ((hdiv io hio).1.trans hk))
    · refine hmem.imp_right ?_
      rintro ⟨io, hio, hk, hmin⟩
      exact ⟨io, hio, (hdiv io hio).1.symm.trans hk, by rw [hmin, (hplace io hio).2.2.2.1]⟩
  · obtain ⟨hall, hmem⟩ := hgreatest k
    constructor
    · intro io hio hk
      rw [← (hplace io hio).2.2.2.2]
      exact UInt64.le_iff_toNat_le.mp (hall io hio ((hdiv io hio).2.trans hk))
    · refine hmem.imp_right ?_
      rintro ⟨io, hio, hk, hmax⟩
      exact ⟨io, hio, (hdiv io hio).2.symm.trans hk, by rw [hmax, (hplace io hio).2.2.2.2]⟩
  · refine (hslots slot).trans (exists_congr fun io => and_congr_right fun hio => ?_)
    rw [(hdiv io hio).1, (hdiv io hio).2]

theorem Tallied.isFat_iff {b : PerBucket} (hb : Tallied devices recs minOffset maxOffset b) (k : ℕ) :
    b.isFat k = true ↔ Fat devices recs minOffset maxOffset k := by
  rw [Iowatcher.isFat_iff]
  simp only [hb.hits]
  rfl

theorem Tallied.isFat_eq_false {b : PerBucket} (hb : Tallied devices recs minOffset maxOffset b) (k : ℕ) :
    b.isFat k = false ↔ ¬ Fat devices recs minOffset maxOffset k := by
  rw [← hb.isFat_iff, Bool.not_eq_true]

/-- No index is outside of the arrays just if no IO reaches too far. -/
theorem Tallied.slots_iff {b : PerBucket} (hb : Tallied devices recs minOffset maxOffset b)
    (hpos : 0 < tenth minOffset maxOffset)
    (hplace : ∀ io ∈ queuedIos recs, minOffset.toNat ≤ placeOf devices io) :
    (∀ slot ∈ b.slots, 0 ≤ slot ∧ slot ≤ 10) ↔
      ∀ io ∈ queuedIos recs, behind devices io < minOffset.toNat + 11 * tenth minOffset maxOffset := by
  have hlast : ∀ io ∈ queuedIos recs, lastIn devices minOffset maxOffset io ≤ 10 ↔
      behind devices io < minOffset.toNat + 11 * tenth minOffset maxOffset := by
    intro io hio
    have hle := hplace io hio
    have hmore : placeOf devices io ≤ behind devices io := Nat.le_add_right _ _
    rw [← Nat.lt_succ_iff, lastIn, Nat.div_lt_iff_lt_mul hpos]
    omega
  constructor
  · intro hslots io hio
    have hin := (hslots _ ((hb.slots _).mpr ⟨io, hio, .inr rfl⟩)).2
    exact (hlast io hio).mp (by exact_mod_cast hin)
  · intro hreach slot hslot
    obtain ⟨io, hio, rfl | rfl⟩ := (hb.slots slot).mp hslot
    · have hle : firstIn devices minOffset maxOffset io ≤ lastIn devices minOffset maxOffset io :=
        Nat.div_le_div_right (Nat.sub_le_sub_right (Nat.le_add_right _ _) _)
      have hin := (hlast io hio).mpr (hreach io hio)
      omega
    · have hin := (hlast io hio).mpr (hreach io hio)
      omega

/-! ## The range, in numbers -/

/-- Arrays that are filled, for queued IOs that are on the axis. -/
structure Measured (devices : List DevInfo) (recs : List BlkIoTrace) (minOffset maxOffset : UInt64)
    (b : PerBucket) : Prop extends Tallied devices recs minOffset maxOffset b where
  filled : fillBuckets devices recs minOffset maxOffset = some b
  queued : queuedIos recs ≠ []
  place : ∀ io ∈ queuedIos recs,
    minOffset.toNat ≤ placeOf devices io ∧ behind devices io ≤ maxOffset.toNat
  wide : minOffset.toNat + 9 ≤ maxOffset.toNat
  finite : maxOffset.toNat - minOffset.toNat + 1 < 2 ^ 64

section

variable {b : PerBucket} (hb : Measured devices recs minOffset maxOffset b)

include hb

theorem Measured.tenth_pos : 0 < tenth minOffset maxOffset := by
  have hwide := hb.wide
  unfold tenth
  omega

/-- A bucket in which an IO begins has the first place of one. -/
theorem Measured.least_spec {k : ℕ}
    (h : ∃ io ∈ queuedIos recs, firstIn devices minOffset maxOffset io = k) :
    ∃ io ∈ queuedIos recs, firstIn devices minOffset maxOffset io = k ∧
      (b.minPerBucket k).toNat = placeOf devices io - minOffset.toNat ∧
      (b.minPerBucket k + minOffset).toNat = placeOf devices io := by
  obtain ⟨hall, hnone | ⟨io, hio, hk, hmin⟩⟩ := hb.least k
  · obtain ⟨io, hio, hk⟩ := h
    have hle := hall io hio hk
    obtain ⟨hlo, hhi⟩ := hb.place io hio
    have hmore : placeOf devices io ≤ behind devices io := Nat.le_add_right _ _
    have hfinite := hb.finite
    rw [hnone, show (0xffffffffffffffff : UInt64).toNat = 2 ^ 64 - 1 from rfl] at hle
    omega
  · obtain ⟨hlo, hhi⟩ := hb.place io hio
    have hmore : placeOf devices io ≤ behind devices io := Nat.le_add_right _ _
    have hlt := maxOffset.toNat_lt
    refine ⟨io, hio, hk, hmin, ?_⟩
    rw [UInt64.toNat_add, hmin, Nat.sub_add_cancel hlo]
    exact Nat.mod_eq_of_lt (by omega)

/-- What is kept for a bucket in which none begins is no part of a range. -/
theorem Measured.starts_of_le {k : ℕ} (hlo : minOffset ≤ b.minPerBucket k + minOffset)
    (hhi : b.minPerBucket k + minOffset ≤ maxOffset) :
    ∃ io ∈ queuedIos recs, firstIn devices minOffset maxOffset io = k := by
  obtain ⟨-, hnone | ⟨io, hio, hk, -⟩⟩ := hb.least k
  · have hfinite := hb.finite
    have hwide := hb.wide
    have hmin := minOffset.toNat_lt
    have hmax := maxOffset.toNat_lt
    rw [hnone, UInt64.le_iff_toNat_le, UInt64.toNat_add] at hlo hhi
    rw [show (0xffffffffffffffff : UInt64).toNat = 2 ^ 64 - 1 from rfl] at hlo hhi
    omega
  · exact ⟨io, hio, hk⟩

theorem Measured.greatest_spec (k : ℕ) :
    (b.maxPerBucket k + minOffset).toNat = (b.maxPerBucket k).toNat + minOffset.toNat ∧
      (b.maxPerBucket k).toNat + minOffset.toNat ≤ maxOffset.toNat := by
  have hlt := maxOffset.toNat_lt
  have hle : (b.maxPerBucket k).toNat + minOffset.toNat ≤ maxOffset.toNat := by
    obtain ⟨-, hnone | ⟨io, hio, -, hmax⟩⟩ := hb.greatest k
    · have hwide := hb.wide
      rw [hnone, show (0 : UInt64).toNat = 0 from rfl]
      omega
    · obtain ⟨hlo, hhi⟩ := hb.place io hio
      have hmore : placeOf devices io ≤ behind devices io := Nat.le_add_right _ _
      omega
  refine ⟨?_, hle⟩
  rw [UInt64.toNat_add]
  exact Nat.mod_eq_of_lt (by omega)

/-- All ends are in the arrays. -/
theorem Measured.in_arrays
    (hreach : ∀ io ∈ queuedIos recs, behind devices io < minOffset.toNat + 11 * tenth minOffset maxOffset) :
    ∀ io ∈ queuedIos recs, firstIn devices minOffset maxOffset io < 11 ∧
      lastIn devices minOffset maxOffset io < 11 := by
  intro io hio
  have hmore : placeOf devices io ≤ behind devices io := Nat.le_add_right _ _
  have hlt := hreach io hio
  have hpos := hb.tenth_pos
  constructor
  · apply (Nat.div_lt_iff_lt_mul hpos).mpr
    omega
  · apply (Nat.div_lt_iff_lt_mul hpos).mpr
    omega

/-- A bucket that is fat has an end of an IO. -/
theorem Measured.ends_pos
    (hreach : ∀ io ∈ queuedIos recs, behind devices io < minOffset.toNat + 11 * tenth minOffset maxOffset)
    {k : ℕ} (hfat : Fat devices recs minOffset maxOffset k) :
    0 < endsIn devices recs minOffset maxOffset k := by
  obtain ⟨io, hio⟩ := List.exists_mem_of_ne_nil _ hb.queued
  have hle := hfat _ (hb.in_arrays hreach io hio).1
  have hpos : 0 < endsIn devices recs minOffset maxOffset (firstIn devices minOffset maxOffset io) := by
    apply Nat.add_pos_left
    exact List.countP_pos_iff.mpr ⟨io, hio, by simp⟩
  omega

/-- The first tenth that is fat gives the bottom of the range. -/
theorem Measured.bottom_spec :
    (∃ k < 10, Fat devices recs minOffset maxOffset k ∧ (∀ j < k, ¬ Fat devices recs minOffset maxOffset j) ∧
      b.yzoomMin minOffset = b.minPerBucket k + minOffset) ∨
    (∀ k < 10, ¬ Fat devices recs minOffset maxOffset k) ∧ b.yzoomMin minOffset = minOffset := by
  have hspec := yzoomMin_spec minOffset b
  simp only [hb.isFat_iff, hb.isFat_eq_false] at hspec
  exact hspec

/-- The last one gives the top. -/
theorem Measured.top_spec :
    ∃ k < 11, Fat devices recs minOffset maxOffset k ∧
      (∀ j < 11, k < j → ¬ Fat devices recs minOffset maxOffset j) ∧
      b.yzoomMax minOffset maxOffset = b.maxPerBucket k + minOffset := by
  have hspec := yzoomMax_spec minOffset maxOffset b
  simp only [hb.isFat_iff, hb.isFat_eq_false] at hspec
  exact hspec

/-- **The only fat bucket** has an IO as a whole. -/
theorem Measured.exists_whole
    (hreach : ∀ io ∈ queuedIos recs, behind devices io < minOffset.toNat + 11 * tenth minOffset maxOffset)
    {k : ℕ} (hk : k < 11) (hfat : Fat devices recs minOffset maxOffset k)
    (honly : ∀ j < 11, j ≠ k → ¬ Fat devices recs minOffset maxOffset j) :
    ∃ io ∈ queuedIos recs, firstIn devices minOffset maxOffset io = k ∧
      lastIn devices minOffset maxOffset io = k := by
  obtain ⟨most, hmost, hmostFat, hall⟩ := exists_isFat b
  -- the fullest bucket is fat, so it is this one
  obtain rfl : most = k := by
    by_contra hne
    exact honly most hmost hne ((hb.isFat_iff most).mp hmostFat)
  simp only [hb.hits] at hall
  refine Buckets.exists_whole hk (hb.in_arrays hreach) (Buckets.sum_erase_lt (c := 20) hk (by decide)
    (hb.ends_pos hreach hfat) fun j hj hne => ?_)
  obtain ⟨i, hi, hlt⟩ : ∃ i < 11, 20 * endsIn devices recs minOffset maxOffset j <
      endsIn devices recs minOffset maxOffset i := by
    by_contra hnone
    exact honly j hj hne fun i hi => not_lt.mp fun hlt => hnone ⟨i, hi, hlt⟩
  exact hlt.trans_le (hall i hi)

/-- The range of a trace that can be plotted. -/
theorem Measured.range_of_plottable (h : Plottable devices recs minOffset maxOffset) :
    minOffset ≤ b.yzoomMin minOffset ∧ b.yzoomMin minOffset ≤ b.yzoomMax minOffset maxOffset ∧
      b.yzoomMax minOffset maxOffset ≤ maxOffset := by
  obtain ⟨top, htop, htopFat, habove, hmax⟩ := hb.top_spec
  obtain ⟨hsum, hin⟩ := hb.greatest_spec top
  have hlast : b.yzoomMax minOffset maxOffset ≤ maxOffset := by
    rw [UInt64.le_iff_toNat_le, hmax, hsum]
    exact hin
  rcases hb.bottom_spec with ⟨low, hlow, hlowFat, hbelow, hmin⟩ | ⟨-, hmin⟩
  · obtain ⟨io, hio, hfirst, hoff, hplace⟩ := hb.least_spec (h.bottom low hlow hlowFat hbelow)
    have hlo := (hb.place io hio).1
    refine ⟨?_, ?_, hlast⟩
    · rw [UInt64.le_iff_toNat_le, hmin, hplace]
      exact hlo
    rw [UInt64.le_iff_toNat_le, hmin, hmax, hsum, hplace]
    suffices hle : placeOf devices io - minOffset.toNat ≤ (b.maxPerBucket top).toNat by omega
    rcases h.top with hends | ⟨hzero, first, hfirstIn, hbegin⟩
    · obtain ⟨last, hlastIn, hlastTop⟩ := hends top htop htopFat habove
      have hge := (hb.greatest top).1 last hlastIn hlastTop
      have hle : low ≤ top := by
        by_contra hlt
        exact habove low (by omega) (by omega) hlowFat
      rcases Nat.lt_or_eq_of_le hle with hlt | rfl
      · -- the places of a bucket are before those of a later one
        have hbefore : placeOf devices io - minOffset.toNat < behind devices last - minOffset.toNat :=
          Nat.lt_of_div_lt_div (hfirst.trans_lt (hlt.trans_eq hlastTop.symm))
        omega
      · have honly : ∀ j < 11, j ≠ low → ¬ Fat devices recs minOffset maxOffset j := by
          intro j hj hne
          rcases Nat.lt_or_gt_of_ne hne with hlt | hlt
          · exact hbelow j hlt
          · exact habove j hj hlt
        obtain ⟨whole, hwhole, hwholeFirst, hwholeLast⟩ := hb.exists_whole h.reach htop hlowFat honly
        have hstart := (hb.least low).1 whole hwhole hwholeFirst
        have hend := (hb.greatest low).1 whole hwhole hwholeLast
        have hmore : placeOf devices whole ≤ behind devices whole := Nat.le_add_right _ _
        omega
    · obtain rfl : low = 0 := by
        by_contra hne
        exact hbelow 0 (Nat.pos_of_ne_zero hne) hzero
      have hfirstZero : firstIn devices minOffset maxOffset first = 0 := by
        rw [firstIn, hbegin, Nat.sub_self, Nat.zero_div]
      have hstart := (hb.least 0).1 first hfirstIn hfirstZero
      omega
  · refine ⟨hmin.ge, ?_, hlast⟩
    rw [UInt64.le_iff_toNat_le, hmin, hmax, hsum]
    exact Nat.le_add_left _ _

section

variable (hlo : minOffset ≤ b.yzoomMin minOffset)
  (hmid : b.yzoomMin minOffset ≤ b.yzoomMax minOffset maxOffset)

include hlo

/-- Where the range is a part of the axis, an IO begins in its first tenth. -/
theorem Measured.bottom_of_range (hhi : b.yzoomMin minOffset ≤ maxOffset) {k : ℕ} (hk : k < 10)
    (hfat : Fat devices recs minOffset maxOffset k)
    (hbefore : ∀ j < k, ¬ Fat devices recs minOffset maxOffset j) :
    b.yzoomMin minOffset = b.minPerBucket k + minOffset ∧
      ∃ io ∈ queuedIos recs, firstIn devices minOffset maxOffset io = k := by
  rcases hb.bottom_spec with ⟨low, hlow, hlowFat, hbelow, hmin⟩ | ⟨hnone, -⟩
  · obtain rfl : low = k := by
      rcases Nat.lt_trichotomy low k with hlt | heq | hlt
      · exact absurd hlowFat (hbefore low hlt)
      · exact heq
      · exact absurd hfat (hbelow k hlt)
    exact ⟨hmin, hb.starts_of_le (hmin ▸ hlo) (hmin ▸ hhi)⟩
  · exact absurd hfat (hnone k hk)

include hmid

/-- Where nothing ends in the last bucket of the range, the range is empty and begins where the axis does. -/
theorem Measured.zero_of_range
    (hreach : ∀ io ∈ queuedIos recs, behind devices io < minOffset.toNat + 11 * tenth minOffset maxOffset)
    (hhi : b.yzoomMax minOffset maxOffset ≤ maxOffset) {top : ℕ} (htop : top < 11)
    (htopFat : Fat devices recs minOffset maxOffset top)
    (hmax : b.yzoomMax minOffset maxOffset = b.maxPerBucket top + minOffset)
    (hends : ¬ ∃ io ∈ queuedIos recs, lastIn devices minOffset maxOffset io = top) :
    Fat devices recs minOffset maxOffset 0 ∧ ∃ io ∈ queuedIos recs, placeOf devices io = minOffset.toNat := by
  obtain ⟨-, hnone | ⟨io, hio, hk, -⟩⟩ := hb.greatest top
  · rw [hnone, UInt64.zero_add] at hmax
    have hmin : b.yzoomMin minOffset = minOffset := UInt64.le_antisymm (hmid.trans hmax.le) hlo
    rcases hb.bottom_spec with ⟨low, hlow, hfat, hbefore, hlowMin⟩ | ⟨hnoneBelow, -⟩
    · have hstarts := (hb.bottom_of_range hlo (hmid.trans hhi) hlow hfat hbefore).2
      obtain ⟨io, hio, hfirst, -, hplace⟩ := hb.least_spec hstarts
      have hbegin : placeOf devices io = minOffset.toNat := by
        rw [← hplace, ← hlowMin, hmin]
      obtain rfl : 0 = low := by
        rw [← hfirst, firstIn, hbegin, Nat.sub_self, Nat.zero_div]
      exact ⟨hfat, io, hio, hbegin⟩
    · -- only the bucket behind the tenths is fat, and what begins there ends there
      have hten : top = 10 := by
        by_contra hne
        exact hnoneBelow top (by omega) htopFat
      have hpos := hb.ends_pos hreach htopFat
      have hnoLast : (queuedIos recs).countP
          (fun io => lastIn devices minOffset maxOffset io = top) = 0 := by
        rw [List.countP_eq_zero]
        intro io hio
        rw [decide_eq_true_iff]
        exact fun hlast => hends ⟨io, hio, hlast⟩
      rw [endsIn, Buckets.hits, hnoLast, Nat.add_zero, List.countP_pos_iff] at hpos
      obtain ⟨io, hio, hfirst⟩ := hpos
      rw [decide_eq_true_iff] at hfirst
      have hle : firstIn devices minOffset maxOffset io ≤ lastIn devices minOffset maxOffset io :=
        Nat.div_le_div_right (Nat.sub_le_sub_right (Nat.le_add_right _ _) _)
      have hlt := (hb.in_arrays hreach io hio).2
      exact absurd ⟨io, hio, by omega⟩ hends
  · exact absurd ⟨io, hio, hk⟩ hends

/-- A trace whose range is a part of the axis. -/
theorem Measured.plottable_of_range
    (hreach : ∀ io ∈ queuedIos recs, behind devices io < minOffset.toNat + 11 * tenth minOffset maxOffset)
    (hhi : b.yzoomMax minOffset maxOffset ≤ maxOffset) : Plottable devices recs minOffset maxOffset := by
  refine ⟨hb.queued, hb.wide, hb.finite, hreach, fun k hk hfat hbefore => ?_, ?_⟩
  · exact (hb.bottom_of_range hlo (hmid.trans hhi) hk hfat hbefore).2
  obtain ⟨top, htop, htopFat, habove, hmax⟩ := hb.top_spec
  by_cases hends : ∃ io ∈ queuedIos recs, lastIn devices minOffset maxOffset io = top
  · refine .inl fun k hk hfat hafter => ?_
    obtain rfl : top = k := by
      rcases Nat.lt_trichotomy top k with hlt | heq | hlt
      · exact absurd hfat (habove k hk hlt)
      · exact heq
      · exact absurd htopFat (hafter top htop hlt)
    exact hends
  · exact .inr (hb.zero_of_range hlo hmid hreach hhi htop htopFat hmax hends)

end

end

/-- Without a queued IO the first tenth is as fat as any, and begins nowhere. -/
theorem not_filtered_of_nil (hnil : queuedIos recs = []) :
    ¬ Filtered devices recs minOffset maxOffset := by
  rintro ⟨hwidth, b, yzoomMin, yzoomMax, hrun, -, hlo, hmid, hhi⟩
  have hfill : fillBuckets devices recs minOffset maxOffset = some {} := by
    rw [fillBuckets_eq hwidth (by rw [hnil]; exact nofun), hnil]
    rfl
  rw [filterOutliers, hfill] at hrun
  obtain ⟨rfl, hranges⟩ := Prod.mk.inj (Option.some.inj hrun)
  obtain ⟨rfl, rfl⟩ := Prod.mk.inj hranges
  have hfat : ∀ k : ℕ, PerBucket.isFat {} k = true := by
    intro k
    rw [isFat_iff]
    exact fun _ _ => Nat.zero_le _
  have hmin : PerBucket.yzoomMin minOffset {} = 0xffffffffffffffff + minOffset := by
    rcases yzoomMin_spec minOffset {} with ⟨k, -, -, -, hmin⟩ | ⟨hnone, -⟩
    · exact hmin
    · exact absurd (hfat 0) (by rw [hnone 0 (by decide)]; exact Bool.false_ne_true)
  have hmax : PerBucket.yzoomMax minOffset maxOffset {} = minOffset := by
    obtain ⟨k, -, -, -, hmax⟩ := yzoomMax_spec minOffset maxOffset {}
    rw [hmax]
    exact UInt64.zero_add minOffset
  rw [hmin, UInt64.le_iff_toNat_le, UInt64.toNat_add] at hlo
  rw [hmin, hmax, UInt64.le_iff_toNat_le, UInt64.toNat_add] at hmid
  rw [show (0xffffffffffffffff : UInt64).toNat = 2 ^ 64 - 1 from rfl] at hlo hmid
  have hlt := minOffset.toNat_lt
  omega

/-- **The outliers are filtered** just if the trace can be plotted. -/
theorem filtered_iff (h : findExtremeOffsets recs = some (devices, minOffset, maxOffset))
    (hends : ∀ io ∈ queuedIos recs, behind devices io < 2 ^ 64) :
    Filtered devices recs minOffset maxOffset ↔ Plottable devices recs minOffset maxOffset := by
  by_cases hnil : queuedIos recs = []
  · exact iff_of_false (not_filtered_of_nil hnil) fun hplot => hplot.queued hnil
  have hplace : ∀ io ∈ queuedIos recs,
      minOffset.toNat ≤ placeOf devices io ∧ behind devices io ≤ maxOffset.toNat := by
    intro io hio
    obtain ⟨-, hlo, hhi, -⟩ := place_spec h hio (hends io hio)
    exact ⟨hlo, hhi⟩
  have hle : minOffset.toNat ≤ maxOffset.toNat := by
    obtain ⟨io, hio⟩ := List.exists_mem_of_ne_nil _ hnil
    obtain ⟨hlo, hhi⟩ := hplace io hio
    exact (hlo.trans (Nat.le_add_right _ _)).trans hhi
  have hmeasured : bytesPerBucket minOffset maxOffset ≠ 0 →
      ∃ b, Measured devices recs minOffset maxOffset b := by
    intro hwidth
    obtain ⟨hwide, hfinite⟩ := (bytesPerBucket_ne_zero hle).mp hwidth
    obtain ⟨b, hfill, htallied⟩ := fillBuckets_tallied h hends hle hwidth
    exact ⟨b, htallied, hfill, hnil, hplace, hwide, hfinite⟩
  constructor
  · rintro ⟨hwidth, b, yzoomMin, yzoomMax, hrun, hslots, hlo, hmid, hhi⟩
    obtain ⟨b', hb⟩ := hmeasured hwidth
    rw [filterOutliers, hb.filled] at hrun
    obtain ⟨rfl, hranges⟩ := Prod.mk.inj (Option.some.inj hrun)
    obtain ⟨rfl, rfl⟩ := Prod.mk.inj hranges
    have hreach := (hb.slots_iff hb.tenth_pos fun io hio => (hplace io hio).1).mp hslots
    exact hb.plottable_of_range hlo hmid hreach hhi
  · intro hplot
    have hwidth := (bytesPerBucket_ne_zero hle).mpr ⟨hplot.wide, hplot.finite⟩
    obtain ⟨b, hb⟩ := hmeasured hwidth
    refine ⟨hwidth, b, _, _, by rw [filterOutliers, hb.filled]; rfl, ?_, hb.range_of_plottable hplot⟩
    exact (hb.slots_iff hb.tenth_pos fun io hio => (hplace io hio).1).mpr hplot.reach

theorem filtered_iff_oneIo : ∃ devices minOffset maxOffset,
    findExtremeOffsets [ioRecord 0 0 []] = some (devices, minOffset, maxOffset) ∧
    (Filtered devices [ioRecord 0 0 []] minOffset maxOffset ↔
      Plottable devices [ioRecord 0 0 []] minOffset maxOffset) :=
  ⟨_, _, _, rfl, filtered_iff rfl (by decide)⟩

/-- An IO of no bytes, such as a flush. -/
def flushIo : BlkIoTrace := { ioRecord 0 0 [] with bytes := 0 }

/-- An IO that is only seen to complete. -/
def completedIo : BlkIoTrace := { ioRecord 0 0 [] with action := 0x00810008 }

/-- Without a length there is a division by 0, and without a queued IO the range begins before the axis. -/
theorem not_filtered :
    (∃ devices minOffset maxOffset,
      findExtremeOffsets [flushIo] = some (devices, minOffset, maxOffset) ∧
      filterOutliers devices [flushIo] minOffset maxOffset = none ∧
      ¬ Filtered devices [flushIo] minOffset maxOffset) ∧
    ∃ devices minOffset maxOffset,
      findExtremeOffsets [completedIo] = some (devices, minOffset, maxOffset) ∧
      ¬ Filtered devices [completedIo] minOffset maxOffset := by
  constructor
  · refine ⟨_, _, _, rfl, rfl, ?_⟩
    rintro ⟨hwidth, -⟩
    exact hwidth rfl
  · exact ⟨_, _, _, rfl, not_filtered_of_nil (by decide)⟩

end Blktrace.Iowatcher
