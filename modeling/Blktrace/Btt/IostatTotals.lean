import Blktrace.Btt.Devs
import Mathlib.Algebra.BigOperators.Group.List.Basic
import Mathlib.Algebra.Order.BigOperators.Group.List
import Mathlib.Tactic.FieldSimp
import Mathlib.Tactic.NormNum

/-!
# `btt`: the lines of `iostat`

`__dump_stats` prints the line of a device, sets its counters back for the next interval, and adds them to the
totals then; so the totals of an interval are all 0.
-/

namespace Blktrace.Btt

/-- `struct stats`, with the times in it. -/
structure IoStat where
  counts : Stats := {}
  lastQuChange : ℚ := 0
  lastDevChange : ℚ := 0
  totQusz : ℚ := 0
  idleTime : ℚ := 0

/-- `stats` and `all_stats` of a device. -/
structure DevStats where
  stats : IoStat := {}
  allStats : IoStat := {}

/-- `struct stats_t`. -/
structure StatsT where
  n : ℚ := 0
  rqmS : Bool → ℚ := fun _ => 0
  iosS : Bool → ℚ := fun _ => 0
  secS : Bool → ℚ := fun _ => 0
  avgrqSz : ℚ := 0
  avgquSz : ℚ := 0
  await : ℚ := 0
  svctm : ℚ := 0
  pUtil : ℚ := 0

/-- A line of numbers. Without a stamp it ends in `TOTAL`. -/
structure StatLine where
  rrqm : ℚ
  wrqm : ℚ
  r : ℚ
  w : ℚ
  rsec : ℚ
  wsec : ℚ
  rkB : ℚ
  wkB : ℚ
  avgrqSz : ℚ
  avgquSz : ℚ
  await : ℚ
  svctm : ℚ
  util : ℚ
  stamp : Option ℚ

/-- The columns that are rates. -/
def rateColumns : List (StatLine → ℚ) :=
  [StatLine.rrqm, StatLine.wrqm, StatLine.r, StatLine.w, StatLine.rsec, StatLine.wsec, StatLine.rkB,
    StatLine.wkB]

/-- `TO_SEC`. -/
def toSec (nanos : UInt64) : ℚ := nanos.toNat / 1000000000

/-- `TO_MSEC`. -/
def toMsec (nanos : UInt64) : ℚ := 1000 * toSec nanos

/-- `update_tot_qusz`, for either `struct stats`. -/
def IoStat.updateTotQusz (sp : IoStat) (now : ℚ) : IoStat :=
  { sp with totQusz := sp.totQusz + (now - sp.lastQuChange) * sp.counts.curQusz, lastQuChange := now }

/-- The same for `idle_time`. -/
def IoStat.updateIdleTime (sp : IoStat) (now : ℚ) (idle : Bool) : IoStat :=
  { sp with
    idleTime := if idle then sp.idleTime + (now - sp.lastDevChange) else sp.idleTime
    lastDevChange := now }

/-- `update_tot_qusz`. -/
def DevStats.updateTotQusz (dip : DevStats) (now : ℚ) : DevStats :=
  ⟨dip.stats.updateTotQusz now, dip.allStats.updateTotQusz now⟩

/-- `update_idle_time`. -/
def DevStats.updateIdleTime (dip : DevStats) (now : ℚ) (force : Bool) : DevStats :=
  let idle := decide (dip.stats.counts.curDev = 0) || force
  ⟨dip.stats.updateIdleTime now idle, dip.allStats.updateIdleTime now idle⟩

/-- What `__dump_stats` looks at: all of the run, or the interval. -/
def DevStats.shown (dip : DevStats) (all : Bool) : IoStat := if all then dip.allStats else dip.stats

/-- The counters are set back for the next interval. -/
def IoStat.reset (sp : IoStat) : IoStat :=
  { sp with
    counts := { sp.counts with
      rqm := fun _ => 0, ios := fun _ => 0, sec := fun _ => 0, wait := 0, svctm := 0 }
    totQusz := 0
    idleTime := 0 }

/-- `dt`: the time that is shown. -/
def shownTime (all : Bool) (lastStart stamp : UInt64) : ℚ := toSec (if all then stamp else stamp - lastStart)

/-- `__dump_stats`: the device afterwards, its line, and the totals. -/
def dumpStats (all : Bool) (lastStart stamp : UInt64) (dip : DevStats) (asp : StatsT) :
    DevStats × StatLine × StatsT :=
  let now := toSec stamp
  let dt := shownTime all lastStart stamp
  let nios : ℚ := ((dip.shown all).counts.ios false + (dip.shown all).counts.ios true).toNat
  let nrqm : ℚ := ((dip.shown all).counts.rqm false + (dip.shown all).counts.rqm true).toNat
  let dip := (dip.updateIdleTime now true).updateTotQusz now
  let sp := dip.shown all
  let avgrqSz := if 0 < nios then (sp.counts.sec false + sp.counts.sec true).toNat / nios else 0
  let svctm := if 0 < nios then toMsec sp.counts.svctm / nios else 0
  let await := if 0 < nios + nrqm then toMsec sp.counts.wait / (nios + nrqm) else 0
  let pUtil := if sp.idleTime ≤ dt then 100 * (1 - sp.idleTime / dt) else 0
  let line : StatLine :=
    { rrqm := (sp.counts.rqm true).toNat / dt
      wrqm := (sp.counts.rqm false).toNat / dt
      r := (sp.counts.ios true).toNat / dt
      w := (sp.counts.ios false).toNat / dt
      rsec := (sp.counts.sec true).toNat / dt
      wsec := (sp.counts.sec false).toNat / dt
      rkB := (sp.counts.sec true / 2).toNat / dt
      wkB := (sp.counts.sec false / 2).toNat / dt
      avgrqSz := avgrqSz
      avgquSz := sp.totQusz / dt
      await := await
      svctm := svctm
      util := pUtil
      stamp := if all then none else some (toSec stamp) }
  -- from here on `sp` points to counters that are 0, unless all of the run is shown
  let dip := if all then dip else { dip with stats := dip.stats.reset }
  let sp := dip.shown all
  (dip, line,
    { n := asp.n + 1
      rqmS := fun i => asp.rqmS i + (sp.counts.rqm i).toNat / dt
      iosS := fun i => asp.iosS i + (sp.counts.ios i).toNat / dt
      secS := fun i => asp.secS i + (sp.counts.sec i).toNat / dt
      avgrqSz := asp.avgrqSz + avgrqSz
      avgquSz := asp.avgquSz + sp.totQusz / dt
      await := asp.await + await
      svctm := asp.svctm + svctm
      pUtil := asp.pUtil + pUtil })

/-- `__dump_stats_t`. -/
def dumpStatsT (all : Bool) (stamp : UInt64) (asp : StatsT) : Option StatLine :=
  if asp.n < 2 then none
  else
    some
      { rrqm := asp.rqmS false
        wrqm := asp.rqmS true
        r := asp.iosS false
        w := asp.iosS true
        rsec := asp.secS false
        wsec := asp.secS true
        rkB := asp.secS false / 2
        wkB := asp.secS true / 2
        avgrqSz := asp.avgrqSz / asp.n
        avgquSz := asp.avgquSz / asp.n
        await := asp.await / asp.n
        svctm := asp.svctm / asp.n
        util := asp.pUtil / asp.n
        stamp := if all then none else some (toSec stamp) }

/-- The loop of `iostat_dump_stats` over the devices that are shown. -/
def dumpLoop (all : Bool) (lastStart stamp : UInt64) :
    List UInt32 → (UInt32 → DevStats) → StatsT → (UInt32 → DevStats) × List StatLine × StatsT
  | [], dips, asp => (dips, [], asp)
  | d :: devices, dips, asp =>
    let one := dumpStats all lastStart stamp (dips d) asp
    let rest := dumpLoop all lastStart stamp devices (Function.update dips d one.1) one.2.2
    (rest.1, one.2.1 :: rest.2.1, rest.2.2)

/-- `iostat_dump_stats`: the devices afterwards, their lines, the totals and the line of these. -/
def iostatDumpStats (all : Bool) (lastStart stamp : UInt64) (devices : List UInt32)
    (dips : UInt32 → DevStats) : (UInt32 → DevStats) × List StatLine × StatsT × Option StatLine :=
  let run := dumpLoop all lastStart stamp devices dips {}
  (run.1, run.2.1, run.2.2, dumpStatsT all stamp run.2.2)

/-! ## What the totals are to be -/

/-- The totals have the counters of all devices, as they are before they are set back. -/
def Accumulates (lastStart stamp : UInt64) (devices : List UInt32) (dips : UInt32 → DevStats)
    (asp : StatsT) : Prop :=
  ∀ i : Bool,
    asp.rqmS i = (devices.map fun d =>
      ((dips d).stats.counts.rqm i).toNat / shownTime false lastStart stamp).sum ∧
    asp.iosS i = (devices.map fun d =>
      ((dips d).stats.counts.ios i).toNat / shownTime false lastStart stamp).sum ∧
    asp.secS i = (devices.map fun d =>
      ((dips d).stats.counts.sec i).toNat / shownTime false lastStart stamp).sum

/-- The line of the totals has the sums of the columns that are rates. -/
def TotalLine (lines : List StatLine) (total : Option StatLine) : Prop :=
  ∃ line, total = some line ∧ ∀ col ∈ rateColumns, col line = (lines.map col).sum

/-- The totals of an interval are right, and so is their line. -/
def TotalsRight (lastStart stamp : UInt64) (devices : List UInt32) (dips : UInt32 → DevStats) : Prop :=
  let dump := iostatDumpStats false lastStart stamp devices dips
  TotalLine dump.2.1 dump.2.2.2 ∧ Accumulates lastStart stamp devices dips dump.2.2.1

/-- Nothing was merged or issued on the devices in the interval. -/
def NothingCounted (devices : List UInt32) (dips : UInt32 → DevStats) : Prop :=
  ∀ d ∈ devices, ∀ i : Bool, (dips d).stats.counts.rqm i = 0 ∧ (dips d).stats.counts.ios i = 0 ∧
    (dips d).stats.counts.sec i = 0

/-! ## The lines of an interval -/

/-- The columns that are rates, each with the counter that the line of a device has there. -/
def rateSources : List ((StatLine → ℚ) × (Stats → UInt64)) :=
  [(StatLine.rrqm, fun c => c.rqm true), (StatLine.wrqm, fun c => c.rqm false),
    (StatLine.r, fun c => c.ios true), (StatLine.w, fun c => c.ios false),
    (StatLine.rsec, fun c => c.sec true), (StatLine.wsec, fun c => c.sec false),
    (StatLine.rkB, fun c => c.sec true / 2), (StatLine.wkB, fun c => c.sec false / 2)]

theorem forall_rateColumns {P : (StatLine → ℚ) → Prop} :
    (∀ col ∈ rateColumns, P col) ↔ ∀ p ∈ rateSources, P p.1 := by
  show (∀ col ∈ rateSources.map Prod.fst, P col) ↔ _
  exact List.forall_mem_map

section

variable {lastStart stamp : UInt64}

theorem rate_dumpStats (dip : DevStats) (asp : StatsT) : ∀ p ∈ rateSources,
    p.1 (dumpStats false lastStart stamp dip asp).2.1 =
      (p.2 dip.stats.counts).toNat / shownTime false lastStart stamp := by
  simp only [rateSources, List.forall_mem_cons]
  exact ⟨rfl, rfl, rfl, rfl, rfl, rfl, rfl, rfl, nofun⟩

/-- The totals get the counters that were set back. -/
theorem totals_dumpStats (dip : DevStats) (asp : StatsT) :
    (dumpStats false lastStart stamp dip asp).2.2.n = asp.n + 1 ∧
      (dumpStats false lastStart stamp dip asp).2.2.rqmS = asp.rqmS ∧
      (dumpStats false lastStart stamp dip asp).2.2.iosS = asp.iosS ∧
      (dumpStats false lastStart stamp dip asp).2.2.secS = asp.secS := by
  have hzero : ∀ x : ℚ, x + ((0 : UInt64).toNat : ℚ) / shownTime false lastStart stamp = x := by
    intro x
    simp
  exact ⟨rfl, funext fun i => hzero _, funext fun i => hzero _, funext fun i => hzero _⟩

theorem totals_dumpLoop (devices : List UInt32) (dips : UInt32 → DevStats) (asp : StatsT) :
    (dumpLoop false lastStart stamp devices dips asp).2.2.n = asp.n + devices.length ∧
      (dumpLoop false lastStart stamp devices dips asp).2.2.rqmS = asp.rqmS ∧
      (dumpLoop false lastStart stamp devices dips asp).2.2.iosS = asp.iosS ∧
      (dumpLoop false lastStart stamp devices dips asp).2.2.secS = asp.secS := by
  induction devices generalizing dips asp with
  | nil => exact ⟨(add_zero _).symm, rfl, rfl, rfl⟩
  | cons d devices ih =>
    obtain ⟨hn, hrqm, hios, hsec⟩ := @totals_dumpStats lastStart stamp (dips d) asp
    obtain ⟨hn', hrqm', hios', hsec'⟩ := ih
      (Function.update dips d (dumpStats false lastStart stamp (dips d) asp).1)
      (dumpStats false lastStart stamp (dips d) asp).2.2
    refine ⟨?_, hrqm'.trans hrqm, hios'.trans hios, hsec'.trans hsec⟩
    refine hn'.trans ?_
    rw [hn, List.length_cons, Nat.cast_succ, add_assoc, add_comm 1]

/-- Each device has its line, with what it had counted before. -/
theorem lines_dumpLoop {devices : List UInt32} (hnodup : devices.Nodup) (dips : UInt32 → DevStats)
    (asp : StatsT) {p : (StatLine → ℚ) × (Stats → UInt64)} (hp : p ∈ rateSources) :
    (dumpLoop false lastStart stamp devices dips asp).2.1.map p.1 =
      devices.map fun d => (p.2 (dips d).stats.counts).toNat / shownTime false lastStart stamp := by
  induction devices generalizing dips asp with
  | nil => rfl
  | cons d devices ih =>
    obtain ⟨hnot, hnodup⟩ := List.nodup_cons.mp hnodup
    rw [dumpLoop, List.map_cons, List.map_cons, rate_dumpStats _ _ p hp, ih hnodup]
    refine congrArg _ (List.map_congr_left fun d' hd' => ?_)
    have hne : d' ≠ d := fun heq => hnot (heq ▸ hd')
    rw [Function.update_of_ne hne]

end

/-! ## The totals -/

/-- Rates add up to 0 only if nothing was counted. -/
theorem sum_rates_eq_zero {dt : ℚ} (hdt : dt ≠ 0) {devices : List UInt32} {g : UInt32 → UInt64} :
    (devices.map fun d => ((g d).toNat : ℚ) / dt).sum = 0 ↔ ∀ d ∈ devices, g d = 0 := by
  have hsum : (devices.map fun d => ((g d).toNat : ℚ) / dt).sum =
      ((devices.map fun d => (g d).toNat).sum : ℕ) / dt := by
    induction devices with
    | nil => simp
    | cons d devices ih =>
      rw [List.map_cons, List.sum_cons, ih, List.map_cons, List.sum_cons, Nat.cast_add, add_div]
  rw [hsum, div_eq_zero_iff, or_iff_left hdt, Nat.cast_eq_zero, List.sum_eq_zero_iff, List.forall_mem_map]
  exact forall₂_congr fun d _ => ⟨fun h => UInt64.toNat_inj.mp h, fun h => h ▸ rfl⟩

theorem shownTime_ne_zero {lastStart stamp : UInt64} (h : stamp ≠ lastStart) :
    shownTime false lastStart stamp ≠ 0 := by
  intro hzero
  have hzero : ((stamp - lastStart).toNat : ℚ) / 1000000000 = 0 := hzero
  rw [div_eq_zero_iff, or_iff_left (by norm_num), Nat.cast_eq_zero] at hzero
  have hsub : stamp - lastStart = 0 := UInt64.toNat_inj.mp hzero
  exact h (sub_eq_zero.mp hsub)

section

variable {lastStart stamp : UInt64} {devices : List UInt32} {dips : UInt32 → DevStats}

/-- The totals are 0. -/
theorem accumulates_iff (hdt : shownTime false lastStart stamp ≠ 0) :
    Accumulates lastStart stamp devices dips (dumpLoop false lastStart stamp devices dips {}).2.2 ↔
      NothingCounted devices dips := by
  obtain ⟨-, hrqm, hios, hsec⟩ := @totals_dumpLoop lastStart stamp devices dips {}
  unfold Accumulates
  rw [hrqm, hios, hsec]
  constructor
  · intro hadded d hd i
    obtain ⟨h₁, h₂, h₃⟩ := hadded i
    exact ⟨(sum_rates_eq_zero hdt).mp h₁.symm d hd, (sum_rates_eq_zero hdt).mp h₂.symm d hd,
      (sum_rates_eq_zero hdt).mp h₃.symm d hd⟩
  · intro hnothing i
    exact ⟨((sum_rates_eq_zero hdt).mpr fun d hd => (hnothing d hd i).1).symm,
      ((sum_rates_eq_zero hdt).mpr fun d hd => (hnothing d hd i).2.1).symm,
      ((sum_rates_eq_zero hdt).mpr fun d hd => (hnothing d hd i).2.2).symm⟩

/-- Every rate in the line of the totals is 0. -/
theorem exists_totalLine (hseveral : 2 ≤ devices.length) :
    ∃ line, dumpStatsT false stamp (dumpLoop false lastStart stamp devices dips {}).2.2 = some line ∧
      ∀ p ∈ rateSources, p.1 line = 0 := by
  obtain ⟨hn, hrqm, hios, hsec⟩ := @totals_dumpLoop lastStart stamp devices dips {}
  have hprinted : ¬ (dumpLoop false lastStart stamp devices dips {}).2.2.n < 2 := by
    rw [hn]
    show ¬ (0 + (devices.length : ℚ) < 2)
    rw [zero_add, not_lt]
    exact_mod_cast hseveral
  rw [dumpStatsT, if_neg hprinted, hrqm, hios, hsec]
  refine ⟨_, rfl, ?_⟩
  simp [rateSources]

theorem totalLine_iff (hdt : shownTime false lastStart stamp ≠ 0) (hnodup : devices.Nodup)
    (hseveral : 2 ≤ devices.length) :
    TotalLine (dumpLoop false lastStart stamp devices dips {}).2.1
        (dumpStatsT false stamp (dumpLoop false lastStart stamp devices dips {}).2.2) ↔
      NothingCounted devices dips := by
  obtain ⟨line, hline, hzero⟩ := @exists_totalLine lastStart stamp devices dips hseveral
  have hcolumns : TotalLine (dumpLoop false lastStart stamp devices dips {}).2.1 (some line) ↔
      ∀ p ∈ rateSources, ∀ d ∈ devices, p.2 (dips d).stats.counts = 0 := by
    have hsome : TotalLine (dumpLoop false lastStart stamp devices dips {}).2.1 (some line) ↔
        ∀ col ∈ rateColumns, col line = ((dumpLoop false lastStart stamp devices dips {}).2.1.map col).sum := by
      constructor
      · rintro ⟨line', hsame, hsums⟩
        obtain rfl := Option.some.inj hsame
        exact hsums
      · intro hsums
        exact ⟨line, rfl, hsums⟩
    rw [hsome, forall_rateColumns]
    refine forall₂_congr fun p hp => ?_
    rw [hzero p hp, lines_dumpLoop hnodup dips {} hp, eq_comm]
    exact sum_rates_eq_zero hdt
  rw [hline, hcolumns]
  simp only [rateSources, List.forall_mem_cons]
  constructor
  · rintro ⟨hrrqm, hwrqm, hr, hw, hrsec, hwsec, -⟩ d hd i
    cases i with
    | true => exact ⟨hrrqm d hd, hr d hd, hrsec d hd⟩
    | false => exact ⟨hwrqm d hd, hw d hd, hwsec d hd⟩
  · intro hnothing
    refine ⟨?_, ?_, ?_, ?_, ?_, ?_, ?_, ?_, nofun⟩ <;> intro d hd
    · exact (hnothing d hd true).1
    · exact (hnothing d hd false).1
    · exact (hnothing d hd true).2.1
    · exact (hnothing d hd false).2.1
    · exact (hnothing d hd true).2.2
    · exact (hnothing d hd false).2.2
    · rw [(hnothing d hd true).2.2]
      rfl
    · rw [(hnothing d hd false).2.2]
      rfl

end

/-- **The totals of an interval** are right just if there is nothing to add up. -/
theorem totalsRight_iff (lastStart stamp : UInt64) (devices : List UInt32) (dips : UInt32 → DevStats)
    (hinterval : stamp ≠ lastStart) (hnodup : devices.Nodup) (hseveral : 2 ≤ devices.length) :
    TotalsRight lastStart stamp devices dips ↔ NothingCounted devices dips := by
  have hdt := shownTime_ne_zero hinterval
  have hboth := and_congr (@totalLine_iff lastStart stamp devices dips hdt hnodup hseveral)
    (@accumulates_iff lastStart stamp devices dips hdt)
  exact hboth.trans (and_self_iff)

/-- Two devices; a read of a sector was issued on the first. -/
def oneRead : UInt32 → DevStats :=
  Function.update (fun _ => {}) 1 { stats := { counts :=
    { ios := Function.update (fun _ => 0) true 1, sec := Function.update (fun _ => 0) true 1 } } }

theorem totalsRight_iff_oneRead : TotalsRight 0 1000000000 [1, 2] oneRead ↔ NothingCounted [1, 2] oneRead :=
  totalsRight_iff 0 1000000000 [1, 2] oneRead (by decide) (by decide) (by decide)

/-- The line of the totals has no reads. -/
theorem not_totalsRight : ¬ TotalsRight 0 1000000000 [1, 2] oneRead := by
  intro h
  obtain ⟨-, hadded⟩ := h
  have hnothing := (accumulates_iff (shownTime_ne_zero (by decide))).mp hadded 1 (by decide) true
  exact absurd hnothing.2.1 (by decide)

end Blktrace.Btt
