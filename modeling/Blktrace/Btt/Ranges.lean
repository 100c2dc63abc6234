import Blktrace.Btt.TimeWindow

/-!
# `btt`: the ranges of activity

The queues and the completions of a region are kept as ranges of time. A new time extends the last range, or
begins a new one where it is `range_delta` or more behind it. `range_delta` is what `-d` says, which may be
nothing or less: then every time is a range of its own, and a time that is given twice is two ranges.
-/

namespace Blktrace.Btt

/-! ## The code -/

/-- `struct range_info`. -/
structure RangeInfo where
  start : UInt64
  stop : UInt64
deriving DecidableEq, Repr

/-- `struct region_info`. -/
structure RegionInfo where
  qranges : List RangeInfo := []
  cranges : List RangeInfo := []
deriving DecidableEq, Repr

/-- `update_range`. -/
def updateRange (rangeDelta : ℚ) (ranges : List RangeInfo) (time : UInt64) : List RangeInfo :=
  match ranges.getLast? with
  | none => [⟨time, time⟩]
  | some rip =>
    if time < rip.stop then ranges
    else if exactTime.bitTime (time - rip.stop) < rangeDelta then ranges.dropLast ++ [{ rip with stop := time }]
    else ranges ++ [⟨time, time⟩]

/-- `update_qregion`. -/
def updateQregion (rangeDelta : ℚ) (reg : RegionInfo) (time : UInt64) : RegionInfo :=
  { reg with qranges := updateRange rangeDelta reg.qranges time }

/-- `update_cregion`. -/
def updateCregion (rangeDelta : ℚ) (reg : RegionInfo) (time : UInt64) : RegionInfo :=
  { reg with cranges := updateRange rangeDelta reg.cranges time }

/-- The ranges of a sequence of times. -/
def rangesOf (rangeDelta : ℚ) (times : List UInt64) : List RangeInfo := times.foldl (updateRange rangeDelta) []

/-- What a region is told: a queue or a completion, and when. -/
def regionOf (rangeDelta : ℚ) (events : List (Bool × UInt64)) : RegionInfo :=
  events.foldl (fun reg e =>
    if e.1 then updateQregion rangeDelta reg e.2 else updateCregion rangeDelta reg e.2) {}

/-! ## What the ranges are -/

/-- A time in a range. -/
def RangeInfo.Has (r : RangeInfo) (t : UInt64) : Prop := r.start ≤ t ∧ t ≤ r.stop

/-- No time is in two of the ranges. -/
def DisjointRanges (ranges : List RangeInfo) : Prop := ranges.Pairwise fun a b => ∀ t, ¬ (a.Has t ∧ b.Has t)

/-- **The ranges of the times**, up to their being disjoint. -/
structure Ranged (rangeDelta : ℚ) (times : List UInt64) (ranges : List RangeInfo) : Prop where
  bounds : ∀ r ∈ ranges, r.start ≤ r.stop
  ordered : ranges.Pairwise fun a b => a.stop ≤ b.start
  separated : ranges.IsChain fun a b => rangeDelta ≤ exactTime.bitTime b.start - exactTime.bitTime a.stop
  covers : ∀ t ∈ times, ∃ r ∈ ranges, r.Has t
  ends : ∀ r ∈ ranges, r.start ∈ times ∧ r.stop ∈ times

/-- Queues and completions do not meet. -/
theorem regionOf_eq (rangeDelta : ℚ) (events : List (Bool × UInt64)) :
    regionOf rangeDelta events =
      { qranges := rangesOf rangeDelta ((events.filter fun e => e.1).map Prod.snd)
        cranges := rangesOf rangeDelta ((events.filter fun e => !e.1).map Prod.snd) } := by
  induction events using List.reverseRecOn with
  | nil => rfl
  | append_singleton events e ih =>
    obtain ⟨q, time⟩ := e
    have hstep : regionOf rangeDelta (events ++ [(q, time)]) =
        if q then updateQregion rangeDelta (regionOf rangeDelta events) time
        else updateCregion rangeDelta (regionOf rangeDelta events) time := by
      rw [regionOf, List.foldl_append]
      rfl
    rw [hstep, ih]
    cases q with
    | true => simp [updateQregion, rangesOf, List.filter_append]
    | false => simp [updateCregion, rangesOf, List.filter_append]

/-! ## One time more -/

variable {rangeDelta : ℚ} {times : List UInt64} {ranges : List RangeInfo} {time : UInt64}

theorem bitTime_sub {s t : UInt64} (h : s ≤ t) :
    exactTime.bitTime (t - s) = exactTime.bitTime t - exactTime.bitTime s := by
  change ((t - s).toNat / 1000000000 : ℚ) = t.toNat / 1000000000 - s.toNat / 1000000000
  rw [UInt64.toNat_sub_of_le _ _ h, Nat.cast_sub (UInt64.le_iff_toNat_le.mp h), sub_div]

theorem bitTime_lt {s t : UInt64} (h : exactTime.bitTime s < exactTime.bitTime t) : s < t :=
  lt_of_not_ge fun hle => absurd (exactTime.mono hle) (not_le.mpr h)

/-- What the ranges end with. -/
def LastIs (times : List UInt64) (ranges : List RangeInfo) : Prop :=
  ranges.getLast?.map RangeInfo.stop = times.getLast?

/-- A range behind all others. -/
theorem Ranged.append (h : Ranged rangeDelta times ranges) (hstop : ∀ r ∈ ranges, r.stop ≤ time)
    (hfar : ∀ r ∈ ranges.getLast?, rangeDelta ≤ exactTime.bitTime time - exactTime.bitTime r.stop) :
    Ranged rangeDelta (times ++ [time]) (ranges ++ [⟨time, time⟩]) where
  bounds := List.forall_mem_append.mpr ⟨h.bounds, List.forall_mem_singleton.mpr (le_refl time)⟩
  ordered := List.pairwise_append.mpr
    ⟨h.ordered, List.pairwise_singleton _ _, fun a ha _ hb => List.mem_singleton.mp hb ▸ hstop a ha⟩
  separated := by
    refine List.isChain_append.mpr ⟨h.separated, List.isChain_singleton _, fun a ha b hb => ?_⟩
    obtain rfl := Option.some.inj hb
    exact hfar a ha
  covers := by
    intro t ht
    rcases List.mem_append.mp ht with ht | ht
    · obtain ⟨r, hr, hin⟩ := h.covers t ht
      exact ⟨r, List.mem_append_left _ hr, hin⟩
    · obtain rfl := List.mem_singleton.mp ht
      exact ⟨⟨t, t⟩, List.mem_append_right _ List.mem_cons_self, le_refl t, le_refl t⟩
  ends := by
    refine List.forall_mem_append.mpr ⟨fun r hr => ?_, List.forall_mem_singleton.mpr ?_⟩
    · exact ⟨List.mem_append_left _ (h.ends r hr).1, List.mem_append_left _ (h.ends r hr).2⟩
    · exact ⟨List.mem_append_right _ List.mem_cons_self, List.mem_append_right _ List.mem_cons_self⟩

/-- The last range goes on. -/
theorem Ranged.extend {rip : RangeInfo} (h : Ranged rangeDelta times (ranges ++ [rip]))
    (hle : rip.stop ≤ time) :
    Ranged rangeDelta (times ++ [time]) (ranges ++ [{ rip with stop := time }]) := by
  obtain ⟨hbounds, hordered, hseparated, hcovers, hends⟩ := h
  obtain ⟨hbounds, hrip⟩ := List.forall_mem_append.mp hbounds
  obtain ⟨hordered, -, hlast⟩ := List.pairwise_append.mp hordered
  obtain ⟨hseparated, -, hgap⟩ := List.isChain_append.mp hseparated
  obtain ⟨hends, hripends⟩ := List.forall_mem_append.mp hends
  refine ⟨?_, ?_, ?_, ?_, ?_⟩
  · exact List.forall_mem_append.mpr
      ⟨hbounds, List.forall_mem_singleton.mpr ((hrip rip List.mem_cons_self).trans hle)⟩
  · refine List.pairwise_append.mpr ⟨hordered, List.pairwise_singleton _ _, fun a ha b hb => ?_⟩
    obtain rfl := List.mem_singleton.mp hb
    exact hlast a ha rip List.mem_cons_self
  · refine List.isChain_append.mpr ⟨hseparated, List.isChain_singleton _, fun a ha b hb => ?_⟩
    obtain rfl := Option.some.inj hb
    exact hgap a ha rip rfl
  · intro t ht
    rcases List.mem_append.mp ht with ht | ht
    · obtain ⟨r, hr, hin⟩ := hcovers t ht
      rcases List.mem_append.mp hr with hr | hr
      · exact ⟨r, List.mem_append_left _ hr, hin⟩
      · obtain rfl := List.mem_singleton.mp hr
        exact ⟨_, List.mem_append_right _ List.mem_cons_self, hin.1, hin.2.trans hle⟩
    · obtain rfl := List.mem_singleton.mp ht
      exact ⟨_, List.mem_append_right _ List.mem_cons_self, (hrip rip List.mem_cons_self).trans hle, le_refl t⟩
  · refine List.forall_mem_append.mpr ⟨fun r hr => ?_, List.forall_mem_singleton.mpr ⟨?_, ?_⟩⟩
    · exact ⟨List.mem_append_left _ (hends r hr).1, List.mem_append_left _ (hends r hr).2⟩
    · exact List.mem_append_left _ (hripends rip List.mem_cons_self).1
    · exact List.mem_append_right _ List.mem_cons_self

/-- **A call of `update_range`** with a time that is not before the last one. -/
theorem Ranged.updateRange (h : Ranged rangeDelta times ranges) (hlast : LastIs times ranges)
    (hle : ∀ t ∈ times, t ≤ time) :
    Ranged rangeDelta (times ++ [time]) (updateRange rangeDelta ranges time) ∧
      LastIs (times ++ [time]) (Btt.updateRange rangeDelta ranges time) := by
  have hend : ∀ r ∈ ranges, r.stop ≤ time := fun r hr => hle r.stop (h.ends r hr).2
  unfold Btt.updateRange
  cases hrip : ranges.getLast? with
  | none =>
    obtain rfl := List.getLast?_eq_none_iff.mp hrip
    exact ⟨h.append nofun nofun, by simp [LastIs]⟩
  | some rip =>
    obtain ⟨init, rfl⟩ := List.getLast?_eq_some_iff.mp hrip
    have hstop : rip.stop ≤ time := hend rip (List.mem_append_right _ List.mem_cons_self)
    dsimp only
    rw [if_neg (not_lt.mpr hstop), List.dropLast_concat]
    split_ifs with hnear
    · exact ⟨h.extend hstop, by simp [LastIs]⟩
    · refine ⟨h.append hend fun r hr => ?_, by simp [LastIs]⟩
      obtain rfl := Option.some.inj (hrip.symm.trans hr)
      rw [← bitTime_sub hstop]
      exact not_lt.mp hnear

theorem rangesOf_concat (rangeDelta : ℚ) (times : List UInt64) (time : UInt64) :
    rangesOf rangeDelta (times ++ [time]) = updateRange rangeDelta (rangesOf rangeDelta times) time := by
  rw [rangesOf, List.foldl_append]
  rfl

/-- **A run of calls** whose times do not go back. -/
theorem rangesOf_ranged (hsorted : times.Pairwise fun s t => s ≤ t) :
    Ranged rangeDelta times (rangesOf rangeDelta times) ∧ LastIs times (rangesOf rangeDelta times) := by
  induction times using List.reverseRecOn with
  | nil => exact ⟨⟨nofun, .nil, .nil, nofun, nofun⟩, rfl⟩
  | append_singleton times time ih =>
    obtain ⟨hinit, -, hle⟩ := List.pairwise_append.mp hsorted
    obtain ⟨hranged, hlast⟩ := ih hinit
    rw [rangesOf_concat]
    exact hranged.updateRange hlast fun t ht => hle t ht time List.mem_cons_self

/-! ## DisjointRanges ranges -/

/-- Ranges in order are disjoint where each ends before the next begins. -/
theorem Ranged.disjointRanges_iff (h : Ranged rangeDelta times ranges) :
    DisjointRanges ranges ↔ ranges.Pairwise fun a b => a.stop < b.start := by
  constructor
  · intro hdisjoint
    refine (h.ordered.and hdisjoint).imp_of_mem fun {a b} ha hb hab => ?_
    refine lt_of_le_of_ne hab.1 fun heq => hab.2 a.stop ⟨⟨h.bounds a ha, le_refl _⟩, ?_⟩
    exact ⟨heq.ge, heq.le.trans (h.bounds b hb)⟩
  · intro hapart
    refine hapart.imp fun {a b} hlt t hboth => ?_
    exact absurd (hboth.2.1.trans hboth.1.2) (not_le.mpr hlt)

/-- Ranges that are apart from the next one are apart from all behind it. -/
theorem pairwise_of_isChain (hbounds : ∀ r ∈ ranges, r.start ≤ r.stop)
    (h : ranges.IsChain fun a b => a.stop < b.start) : ranges.Pairwise fun a b => a.stop < b.start := by
  induction ranges with
  | nil => exact .nil
  | cons a rest ih =>
    have hrest := ih (List.forall_mem_cons.mp hbounds).2 h.tail
    refine List.pairwise_cons.mpr ⟨fun c hc => ?_, hrest⟩
    cases rest with
    | nil => nomatch hc
    | cons b rest =>
      have hab : a.stop < b.start := (List.isChain_cons_cons.mp h).1
      rcases List.mem_cons.mp hc with rfl | hc
      · exact hab
      · have hb : b.start ≤ b.stop := hbounds b (List.mem_cons_of_mem _ List.mem_cons_self)
        exact (hab.trans_le hb).trans ((List.pairwise_cons.mp hrest).1 c hc)

/-- A positive `range_delta` keeps them apart. -/
theorem Ranged.apart (h : Ranged rangeDelta times ranges) (hpos : 0 < rangeDelta) :
    ranges.Pairwise fun a b => a.stop < b.start := by
  refine pairwise_of_isChain h.bounds (h.separated.imp fun a b hgap => bitTime_lt ?_)
  linarith

/-- Without one, every time is a range of its own. -/
theorem rangesOf_of_nonpos (hdelta : rangeDelta ≤ 0) (hsorted : times.Pairwise fun s t => s ≤ t) :
    rangesOf rangeDelta times = times.map fun t => ⟨t, t⟩ := by
  induction times using List.reverseRecOn with
  | nil => rfl
  | append_singleton times time ih =>
    obtain ⟨hinit, -, hle⟩ := List.pairwise_append.mp hsorted
    rw [rangesOf_concat, ih hinit, updateRange, List.getLast?_map, List.map_append]
    cases hlast : times.getLast? with
    | none =>
      obtain rfl := List.getLast?_eq_none_iff.mp hlast
      rfl
    | some t =>
      have ht : t ≤ time := hle t (List.mem_of_getLast? hlast) time List.mem_cons_self
      have hfar : rangeDelta ≤ exactTime.bitTime (time - t) :=
        hdelta.trans (div_nonneg (Nat.cast_nonneg _) (by norm_num))
      rw [Option.map_some]
      dsimp only
      rw [if_neg (not_lt.mpr ht), if_neg (not_lt.mpr hfar)]
      rfl

/-- **The ranges of activity.** They are in order, apart by `range_delta`, begin and end with times that were
given and have all of these. They are disjoint just if `range_delta` is positive or no time is given twice. -/
theorem rangesOf_spec (rangeDelta : ℚ) {times : List UInt64} (hsorted : times.Pairwise fun s t => s ≤ t) :
    Ranged rangeDelta times (rangesOf rangeDelta times) ∧
      (DisjointRanges (rangesOf rangeDelta times) ↔ 0 < rangeDelta ∨ times.Pairwise fun s t => s < t) := by
  have hranged := (@rangesOf_ranged rangeDelta times hsorted).1
  refine ⟨hranged, ?_⟩
  rw [hranged.disjointRanges_iff]
  by_cases hpos : 0 < rangeDelta
  · exact iff_of_true (hranged.apart hpos) (.inl hpos)
  · rw [rangesOf_of_nonpos (not_lt.mp hpos) hsorted, List.pairwise_map]
    exact (or_iff_right hpos).symm

theorem rangesOf_spec_three :
    ([0, 50000000, 250000000] : List UInt64).Pairwise (fun s t => s ≤ t) ∧
      Ranged (1 / 10) [0, 50000000, 250000000] (rangesOf (1 / 10) [0, 50000000, 250000000]) ∧
      (DisjointRanges (rangesOf (1 / 10) [0, 50000000, 250000000]) ↔
        (0 : ℚ) < 1 / 10 ∨ ([0, 50000000, 250000000] : List UInt64).Pairwise fun s t => s < t) :=
  have hsorted : ([0, 50000000, 250000000] : List UInt64).Pairwise fun s t => s ≤ t := by decide
  ⟨hsorted, rangesOf_spec (1 / 10) hsorted⟩

/-- With `-d 0` a time that is given twice is in two ranges. -/
theorem not_disjointRanges :
    ([5, 5] : List UInt64).Pairwise (fun s t => s ≤ t) ∧ ¬ DisjointRanges (rangesOf 0 [5, 5]) := by
  have hranges : rangesOf 0 [5, 5] = [⟨5, 5⟩, ⟨5, 5⟩] := by decide +kernel
  refine ⟨by decide, fun h => ?_⟩
  rw [hranges] at h
  exact (List.pairwise_cons.mp h).1 ⟨5, 5⟩ List.mem_cons_self 5 ⟨⟨le_refl _, le_refl _⟩, le_refl _, le_refl _⟩

end Blktrace.Btt
