import Blktrace.Blkiomon.Exact

/-!
# `blkiomon_stat_merge`

Statistics of several intervals are put together field by field. What comes out are the statistics
of all the pairs, so that it does not matter how the pairs were spread over the intervals, nor in which
order the intervals are merged.
-/

namespace Blktrace.Blkiomon

/-! ## The functions -/

def minmaxMerge (dst src : Minmax) : Minmax where
  sum := dst.sum + src.sum
  sos := dst.sos + src.sos
  min := if src.min < dst.min then src.min else dst.min
  max := if src.max > dst.max then src.max else dst.max
  num := dst.num + src.num

def histlog2Merge {h : Histlog2} (dst src : Fin h.num → UInt32) : Fin h.num → UInt32 :=
  fun i => dst i + src i

/-- `blkiomon_stat_merge`: the time and the device of `dst` stay. -/
def blkiomonStatMerge (dst src : BlkiomonStat) : BlkiomonStat :=
  { dst with
    sizeHist := histlog2Merge dst.sizeHist src.sizeHist
    d2cHist := histlog2Merge dst.d2cHist src.d2cHist
    sizeR := minmaxMerge dst.sizeR src.sizeR
    sizeW := minmaxMerge dst.sizeW src.sizeW
    d2cR := minmaxMerge dst.d2cR src.d2cR
    d2cW := minmaxMerge dst.d2cW src.d2cW
    thrputR := minmaxMerge dst.thrputR src.thrputR
    thrputW := minmaxMerge dst.thrputW src.thrputW
    bidir := dst.bidir + src.bidir }

/-- All fields but the time and the device. -/
def BlkiomonStat.figures (p : BlkiomonStat) : BlkiomonStat := { p with time := 0, device := 0 }

/-! ## Minimum, maximum, sums -/

section Minmax

variable (a b c : Minmax)

theorem minmaxMerge_min : (minmaxMerge a b).min = min a.min b.min := by
  show (if b.min < a.min then b.min else a.min) = _
  rw [min_comm, min_def_lt]

theorem minmaxMerge_max : (minmaxMerge a b).max = max a.max b.max := by
  show (if b.max > a.max then b.max else a.max) = _
  rw [max_def_lt]

@[simp] theorem minmaxMerge_init : minmaxMerge a minmaxInit = a := by
  have hmin : (minmaxMerge a minmaxInit).min = a.min := by
    rw [minmaxMerge_min]
    exact min_eq_left (UInt64.le_iff_toNat_le.mpr (Nat.le_of_lt_succ a.min.toNat_lt))
  have hmax : (minmaxMerge a minmaxInit).max = a.max := by
    rw [minmaxMerge_max]
    exact max_eq_left (UInt64.le_iff_toNat_le.mpr (Nat.zero_le _))
  cases a
  simp_all [minmaxMerge, minmaxInit]

theorem minmaxMerge_comm : minmaxMerge a b = minmaxMerge b a := by
  have hmin : (minmaxMerge a b).min = (minmaxMerge b a).min := by
    rw [minmaxMerge_min, minmaxMerge_min, min_comm]
  have hmax : (minmaxMerge a b).max = (minmaxMerge b a).max := by
    rw [minmaxMerge_max, minmaxMerge_max, max_comm]
  simp_all [minmaxMerge, add_comm]

theorem minmaxMerge_assoc : minmaxMerge (minmaxMerge a b) c = minmaxMerge a (minmaxMerge b c) := by
  have hmin : (minmaxMerge (minmaxMerge a b) c).min = (minmaxMerge a (minmaxMerge b c)).min := by
    simp only [minmaxMerge_min, min_assoc]
  have hmax : (minmaxMerge (minmaxMerge a b) c).max = (minmaxMerge a (minmaxMerge b c)).max := by
    simp only [minmaxMerge_max, max_assoc]
  simp_all [minmaxMerge, add_assoc]

/-- What one value comes to. -/
def minmaxOf (value : UInt64) : Minmax where
  min := value
  max := value
  sum := value
  sos := value * value
  num := 1

/-- To account a value is to merge it. -/
theorem minmaxAccount_eq (value : UInt64) : minmaxAccount a value = minmaxMerge a (minmaxOf value) :=
  rfl

theorem minmaxMerge_account (value : UInt64) :
    minmaxMerge a (minmaxAccount b value) = minmaxAccount (minmaxMerge a b) value := by
  rw [minmaxAccount_eq, minmaxAccount_eq, minmaxMerge_assoc]

end Minmax

/-! ## Histograms -/

section Histlog2

variable {h : Histlog2} (a b c : Fin h.num → UInt32)

@[simp] theorem histlog2Merge_zero : histlog2Merge a (fun _ => 0) = a := by
  funext i
  simp [histlog2Merge]

theorem histlog2Merge_comm : histlog2Merge a b = histlog2Merge b a := by
  funext i
  simp [histlog2Merge, add_comm]

theorem histlog2Merge_assoc :
    histlog2Merge (histlog2Merge a b) c = histlog2Merge a (histlog2Merge b c) := by
  funext i
  simp [histlog2Merge, add_assoc]

theorem histlog2Merge_account (val : UInt32) :
    histlog2Merge a (histlog2Account b val) = histlog2Account (histlog2Merge a b) val := by
  funext i
  simp only [histlog2Merge, histlog2Account_apply]
  split_ifs <;> simp [add_assoc]

end Histlog2

/-! ## The statistics of a device -/

section Stat

variable (p q r : BlkiomonStat)

@[simp] theorem blkiomonStatMerge_init : blkiomonStatMerge p blkiomonStatInit = p := by
  cases p
  simp [blkiomonStatMerge, blkiomonStatInit]

theorem blkiomonStatMerge_assoc :
    blkiomonStatMerge (blkiomonStatMerge p q) r = blkiomonStatMerge p (blkiomonStatMerge q r) := by
  simp [blkiomonStatMerge, minmaxMerge_assoc, histlog2Merge_assoc, add_assoc]

theorem figures_merge_comm :
    (blkiomonStatMerge p q).figures = (blkiomonStatMerge q p).figures := by
  simp only [BlkiomonStat.figures, blkiomonStatMerge, BlkiomonStat.mk.injEq, true_and]
  refine ⟨histlog2Merge_comm _ _, histlog2Merge_comm _ _, minmaxMerge_comm _ _, minmaxMerge_comm _ _,
    minmaxMerge_comm _ _, minmaxMerge_comm _ _, minmaxMerge_comm _ _, minmaxMerge_comm _ _, ?_⟩
  exact add_comm _ _

/-- The times and the devices of what is merged do not matter. -/
theorem figures_merge : (blkiomonStatMerge p.figures q.figures).figures = (blkiomonStatMerge p q).figures :=
  rfl

/-- A pair may be accounted before the merge or after it. -/
theorem blkiomonStatMerge_account (d c : BlkIoTrace) :
    blkiomonStatMerge p (accountStat d c q) = accountStat d c (blkiomonStatMerge p q) := by
  unfold accountStat accountUpdates
  split_ifs <;>
    simp [blkiomonStatMerge, minmaxMerge_account, histlog2Merge_account, add_assoc]

end Stat

/-! ## The statistics of pairs -/

variable (device device' : UInt32) (xs ys : List Pair)

/-- **Two intervals**: their statistics, merged, are those of all the pairs. -/
theorem blkiomonStatMerge_statOf :
    blkiomonStatMerge (statOf device xs) (statOf device' ys) = statOf device (xs ++ ys) := by
  induction ys using List.reverseRecOn with
  | nil =>
    rw [List.append_nil]
    exact blkiomonStatMerge_init _
  | append_singleton ys pair ih =>
    rw [statOf_concat, blkiomonStatMerge_account, ih, ← List.append_assoc, statOf_concat]

theorem statOf_figures : (statOf device xs).figures = (statOf device' xs).figures :=
  calc (statOf device xs).figures
      = (blkiomonStatMerge (statOf device []) (statOf device' xs)).figures := by
        rw [blkiomonStatMerge_statOf, List.nil_append]
    _ = (blkiomonStatMerge (statOf device' []) (statOf device' xs)).figures := rfl
    _ = (statOf device' xs).figures := by rw [blkiomonStatMerge_statOf, List.nil_append]

/-- **Any number of intervals.** -/
theorem foldl_merge_statOf (intervals : List (List Pair)) :
    (intervals.map (statOf device')).foldl blkiomonStatMerge (statOf device xs) =
      statOf device (xs ++ intervals.flatten) := by
  induction intervals generalizing xs with
  | nil => simp
  | cons pairs intervals ih =>
    rw [List.map_cons, List.foldl_cons, blkiomonStatMerge_statOf, ih, List.flatten_cons,
      List.append_assoc]

/-- **`blkiomon_stat_merge` is a homomorphism** into a commutative monoid, of which
`blkiomon_stat_init` is the neutral element. -/
theorem statMerge_homomorphism :
    (∀ (device device' device'' : UInt32) (time time' : UInt64) (xs ys : List Pair),
      (blkiomonStatMerge { statOf device xs with time } { statOf device' ys with time := time' }).figures =
        (statOf device'' (xs ++ ys)).figures) ∧
    (∀ p, blkiomonStatMerge p blkiomonStatInit = p ∧
      (blkiomonStatMerge blkiomonStatInit p).figures = p.figures) ∧
    (∀ p q, (blkiomonStatMerge p q).figures = (blkiomonStatMerge q p).figures) ∧
    ∀ p q r, blkiomonStatMerge (blkiomonStatMerge p q) r =
      blkiomonStatMerge p (blkiomonStatMerge q r) := by
  refine ⟨fun device device' device'' time time' xs ys => ?_, fun p => ?_, figures_merge_comm,
    blkiomonStatMerge_assoc⟩
  · have hmerge := blkiomonStatMerge_statOf device device' xs ys
    rw [← figures_merge]
    show (blkiomonStatMerge (statOf device xs).figures (statOf device' ys).figures).figures = _
    rw [figures_merge, hmerge, statOf_figures device device'']
  · refine ⟨blkiomonStatMerge_init p, ?_⟩
    rw [figures_merge_comm, blkiomonStatMerge_init]

end Blktrace.Blkiomon
