import Blktrace.Blkparse.Totals

/-!
# What is printed of a device

`show_device_and_cpu_stats` after any records of a device: the lines of its CPUs, the line of their totals,
and the throughput.
-/

namespace Blktrace.Blkparse

/-! ## The code -/

/-- What the report reads of `struct per_cpu_info`. -/
structure CpuReport where
  nelems : ℕ := 0
  ioStats : IoStats := .zero

/-- What it reads of `struct per_dev_info`. `cpus` has `ncpus` entries. -/
structure DevReport where
  cpus : List CpuReport := []
  events : ℕ := 0
  firstReportedTime : UInt64 := 0
  lastReportedTime : UInt64 := 0

/-- What a reader does for a device: it looks up a CPU, it comes to the record that ends a run of file
mode, or it shows a record, which is dumped as the mask and the stopwatch have it. -/
inductive Seen
  | look (cpu : ℕ)
  | past (cpu : ℕ)
  | shown (cpu : ℕ) (bit : BlkIoTrace) (dumped : Bool)

/-- `get_cpu_info`, and `resize_cpu_info`. -/
def getCpuInfo (cpus : List CpuReport) (cpu : ℕ) : List CpuReport :=
  cpus ++ List.replicate (cpu + 1 - cpus.length) ({} : CpuReport)

/-- `pci->nelems++`. -/
def CpuReport.counted (pci : CpuReport) : CpuReport := { pci with nelems := pci.nelems + 1 }

/-- The statistics of `dump_trace`. -/
def CpuReport.account (bit : BlkIoTrace) (pci : CpuReport) : CpuReport :=
  { pci with ioStats := pci.ioStats.account bit }

/-- `dump_trace`. -/
def DevReport.dumpTrace (pdi : DevReport) (cpu : ℕ) (bit : BlkIoTrace) : DevReport :=
  { pdi with
    cpus := pdi.cpus.modify cpu (.account bit)
    firstReportedTime := if pdi.events = 0 then bit.time else pdi.firstReportedTime
    events := pdi.events + 1 }

/-- The body of `show_entries_rb`, and `handle`. -/
def DevReport.see (pdi : DevReport) : Seen → DevReport
  | .look cpu => { pdi with cpus := getCpuInfo pdi.cpus cpu }
  | .past cpu => { pdi with cpus := (getCpuInfo pdi.cpus cpu).modify cpu .counted }
  | .shown cpu bit dumped =>
    let pdi := { pdi with
      cpus := (getCpuInfo pdi.cpus cpu).modify cpu .counted
      lastReportedTime := bit.time }
    if dumped then pdi.dumpTrace cpu bit else pdi

/-- A device at the end of a run. -/
def devReport (seen : List Seen) : DevReport := seen.foldl .see {}

/-- `total`. -/
def DevReport.total (pdi : DevReport) : IoStats :=
  pdi.cpus.foldl (fun total pci => if pci.nelems = 0 then total else fun c => total c + pci.ioStats c) .zero

/-- The KiB that `dump_io_stats` prints. -/
def Flow.printedKb (f : Flow) (w : Bool) (ios : IoStats) : UInt64 := ios (f.kb w) + ios (f.b w) >>> 10

/-- `msec`. -/
def DevReport.msec (pdi : DevReport) : UInt64 := (pdi.lastReportedTime - pdi.firstReportedTime) / 1000000

/-- `rrate` and `wrate`. -/
def DevReport.rate (pdi : DevReport) (w : Bool) : UInt64 :=
  if pdi.msec = 0 then 0
  else (1000 * pdi.total (Flow.completed.kb w) + pdi.total (Flow.completed.b w)) / pdi.msec

/-! ## The records -/

/-- What is dumped, and on which CPU. -/
def Seen.dumped : Seen → List (ℕ × BlkIoTrace)
  | .look _ | .past _ => []
  | .shown cpu bit dumped => if dumped then [(cpu, bit)] else []

/-- The records that were dumped on a CPU. -/
def onCpu (cpu : ℕ) (ps : List (ℕ × BlkIoTrace)) : List BlkIoTrace :=
  (ps.filter fun p => p.1 = cpu).map Prod.snd

theorem devReport_concat (seen : List Seen) (x : Seen) :
    devReport (seen ++ [x]) = (devReport seen).see x := List.foldl_concat ..

/-! ## The statistics -/

theorem lt_getCpuInfo (cpus : List CpuReport) (cpu : ℕ) : cpu < (getCpuInfo cpus cpu).length := by
  rw [getCpuInfo, List.length_append, List.length_replicate]
  omega

/-- The entry of a CPU, which is empty where there is none yet. -/
def cpuAt (cpus : List CpuReport) (i : ℕ) : CpuReport := (cpus[i]?).getD {}

theorem cpuAt_getCpuInfo (cpus : List CpuReport) (cpu i : ℕ) :
    cpuAt (getCpuInfo cpus cpu) i = cpuAt cpus i := by
  rw [cpuAt, cpuAt, getCpuInfo, List.getElem?_append]
  split_ifs with hlt
  · rfl
  · rw [List.getElem?_eq_none (not_lt.mp hlt), List.getElem?_replicate]
    split_ifs <;> rfl

theorem cpuAt_modify {cpus : List CpuReport} {cpu : ℕ} (hlt : cpu < cpus.length) (g : CpuReport → CpuReport)
    (i : ℕ) : cpuAt (cpus.modify cpu g) i = if cpu = i then g (cpuAt cpus i) else cpuAt cpus i := by
  rw [cpuAt, cpuAt, List.getElem?_modify]
  split_ifs with hsame
  · subst hsame
    rw [List.getElem?_eq_getElem hlt]
    rfl
  · cases cpus[i]? <;> rfl

/-- The sum of a counter over the CPUs. -/
def cpuSum (c : Counter) : List CpuReport → UInt64
  | [] => 0
  | pci :: rest => pci.ioStats c + cpuSum c rest

theorem cpuSum_getCpuInfo (c : Counter) (cpus : List CpuReport) (cpu : ℕ) :
    cpuSum c (getCpuInfo cpus cpu) = cpuSum c cpus := by
  rw [getCpuInfo]
  generalize cpu + 1 - cpus.length = n
  induction cpus with
  | nil =>
    induction n with
    | zero => rfl
    | succ n ih =>
      show 0 + cpuSum c (List.replicate n {}) = 0
      rw [UInt64.zero_add]
      exact ih
  | cons pci rest ih => rw [List.cons_append, cpuSum, cpuSum, ih]

theorem cpuSum_modify {c : Counter} {g : CpuReport → CpuReport} {n : UInt64}
    (hg : ∀ pci, (g pci).ioStats c = pci.ioStats c + n) {cpus : List CpuReport} {cpu : ℕ}
    (hlt : cpu < cpus.length) : cpuSum c (cpus.modify cpu g) = cpuSum c cpus + n := by
  induction cpus generalizing cpu with
  | nil => exact absurd hlt (Nat.not_lt_zero _)
  | cons pci rest ih =>
    cases cpu with
    | zero =>
      rw [List.modify_zero_cons, cpuSum, cpuSum, hg, UInt64.add_assoc, UInt64.add_assoc,
        UInt64.add_comm n]
    | succ cpu =>
      rw [List.modify_succ_cons, cpuSum, cpuSum, ih (Nat.lt_of_succ_lt_succ hlt), UInt64.add_assoc]

/-- What is known of a CPU after some records. -/
structure CpuReport.Of (pci : CpuReport) (ts : List BlkIoTrace) : Prop where
  ioStats : pci.ioStats = tally ts
  unused : pci.nelems = 0 → ts = []

theorem CpuReport.Of.counted {pci : CpuReport} {ts : List BlkIoTrace} (h : pci.Of ts) : pci.counted.Of ts :=
  ⟨h.ioStats, nofun⟩

theorem CpuReport.Of.account {pci : CpuReport} {ts : List BlkIoTrace} (h : pci.Of ts) (bit : BlkIoTrace) :
    (pci.counted.account bit).Of (ts ++ [bit]) := by
  refine ⟨?_, nofun⟩
  show pci.ioStats.account bit = _
  rw [h.ioStats, tally_concat]

/-- **The entries of the CPUs** are the tallies of their records. -/
theorem devReport_cpus (seen : List Seen) (i : ℕ) :
    (cpuAt (devReport seen).cpus i).Of (onCpu i (seen.flatMap Seen.dumped)) := by
  induction seen using List.reverseRecOn with
  | nil => exact ⟨rfl, fun _ => rfl⟩
  | append_singleton seen x ih =>
    rw [devReport_concat, List.flatMap_append, List.flatMap_singleton]
    generalize devReport seen = pdi at ih ⊢
    have hcounted : ∀ cpu, (cpuAt ((getCpuInfo pdi.cpus cpu).modify cpu .counted) i).Of
        (onCpu i (seen.flatMap Seen.dumped)) := by
      intro cpu
      rw [cpuAt_modify (lt_getCpuInfo _ _), cpuAt_getCpuInfo]
      split_ifs
      · exact ih.counted
      · exact ih
    cases x with
    | look cpu =>
      show (cpuAt (getCpuInfo pdi.cpus cpu) i).Of _
      rw [cpuAt_getCpuInfo, Seen.dumped, List.append_nil]
      exact ih
    | past cpu =>
      rw [Seen.dumped, List.append_nil]
      exact hcounted cpu
    | shown cpu bit dumped =>
      cases dumped with
      | false =>
        rw [Seen.dumped, if_neg Bool.false_ne_true, List.append_nil]
        exact hcounted cpu
      | true =>
        show (cpuAt (((getCpuInfo pdi.cpus cpu).modify cpu .counted).modify cpu (.account bit)) i).Of _
        rw [cpuAt_modify (by rw [List.length_modify]; exact lt_getCpuInfo _ _),
          cpuAt_modify (lt_getCpuInfo _ _), cpuAt_getCpuInfo]
        split_ifs with hsame
        · have h := ih.account bit
          simpa [onCpu, Seen.dumped, hsame] using h
        · simpa [onCpu, Seen.dumped, hsame] using ih

/-- **The CPUs together** are the tally of all records. -/
theorem devReport_cpuSum (seen : List Seen) (c : Counter) :
    cpuSum c (devReport seen).cpus = tally ((seen.flatMap Seen.dumped).map Prod.snd) c := by
  induction seen using List.reverseRecOn with
  | nil => rfl
  | append_singleton seen x ih =>
    rw [devReport_concat, List.flatMap_append, List.flatMap_singleton]
    generalize devReport seen = pdi at ih ⊢
    have hcounted : ∀ cpu, cpuSum c ((getCpuInfo pdi.cpus cpu).modify cpu .counted) = cpuSum c pdi.cpus := by
      intro cpu
      have hadd : ∀ pci : CpuReport, pci.counted.ioStats c = pci.ioStats c + 0 :=
        fun _ => (UInt64.add_zero _).symm
      rw [cpuSum_modify hadd (lt_getCpuInfo _ _), cpuSum_getCpuInfo, UInt64.add_zero]
    cases x with
    | look cpu =>
      show cpuSum c (getCpuInfo pdi.cpus cpu) = _
      rw [cpuSum_getCpuInfo, Seen.dumped, List.append_nil]
      exact ih
    | past cpu =>
      show cpuSum c ((getCpuInfo pdi.cpus cpu).modify cpu .counted) = _
      rw [hcounted, Seen.dumped, List.append_nil]
      exact ih
    | shown cpu bit dumped =>
      cases dumped with
      | false =>
        show cpuSum c ((getCpuInfo pdi.cpus cpu).modify cpu .counted) = _
        rw [hcounted, Seen.dumped, if_neg Bool.false_ne_true, List.append_nil]
        exact ih
      | true =>
        have hadd : ∀ pci : CpuReport, (pci.account bit).ioStats c = pci.ioStats c + delta bit c :=
          fun pci => account_apply pci.ioStats bit c
        show cpuSum c (((getCpuInfo pdi.cpus cpu).modify cpu .counted).modify cpu (.account bit)) = _
        rw [cpuSum_modify hadd (by rw [List.length_modify]; exact lt_getCpuInfo _ _), hcounted, ih,
          Seen.dumped, if_pos rfl, List.map_append, List.map_singleton, tally_apply_concat]

/-- CPUs with no records add nothing, so `total` may leave them out. -/
theorem total_eq {pdi : DevReport} (hunused : ∀ pci ∈ pdi.cpus, pci.nelems = 0 → pci.ioStats = .zero)
    (c : Counter) : pdi.total c = cpuSum c pdi.cpus := by
  have hfold : ∀ (cpus : List CpuReport) (total : IoStats),
      (∀ pci ∈ cpus, pci.nelems = 0 → pci.ioStats = .zero) →
      cpus.foldl (fun total pci => if pci.nelems = 0 then total else fun c => total c + pci.ioStats c) total c =
        total c + cpuSum c cpus := by
    intro cpus
    induction cpus with
    | nil => exact fun total _ => (UInt64.add_zero _).symm
    | cons pci rest ih =>
      intro total h
      rw [List.foldl_cons, ih _ fun p hp => h p (List.mem_cons_of_mem _ hp), cpuSum, ← UInt64.add_assoc]
      split_ifs with hzero
      · rw [h pci List.mem_cons_self hzero]
        show total c + _ = total c + 0 + _
        rw [UInt64.add_zero]
      · rfl
  rw [DevReport.total, hfold _ _ hunused]
  exact UInt64.zero_add _

/-- **The totals** are the tally of all records. -/
theorem devReport_total (seen : List Seen) :
    (devReport seen).total = tally ((seen.flatMap Seen.dumped).map Prod.snd) := by
  funext c
  rw [total_eq, devReport_cpuSum]
  intro pci hpci hzero
  obtain ⟨i, hi⟩ := List.getElem?_of_mem hpci
  have h := devReport_cpus seen i
  rw [cpuAt, hi, Option.getD_some] at h
  rw [h.ioStats, h.unused hzero]
  rfl

/-! ## The KiB dispatched -/

/-- The KiB that are printed of a total are those of its bytes, unless these are negative. -/
def Flow.PrintedRight (f : Flow) (w : Bool) (ios : IoStats) (ts : List BlkIoTrace) : Prop :=
  0 ≤ f.total w ts → ((f.printedKb w ios).toNat : ℤ) = f.total w ts / 1024

/-- What the counter of the rest has wrapped over is none of the KiB, and the bytes are fewer than 2^74. -/
def Flow.NoneBorrowed (f : Flow) (w : Bool) (ts : List BlkIoTrace) : Prop :=
  0 ≤ f.total w ts → f.sum w Flow.bOf ts / 2 ^ 64 % 1024 = 0 ∧ f.total w ts < 2 ^ 74

theorem Flow.lost_dispatched (w : Bool) (ts : List BlkIoTrace) : (Flow.dispatched false).lost w ts = 0 := by
  apply List.sum_eq_zero
  intro x hx
  obtain ⟨t, -, rfl⟩ := List.mem_map.mp hx
  cases accounting t with
  | none => rfl
  | some a => cases a <;> simp [Flow.missed]

theorem printedRight_iff (w : Bool) (ts : List BlkIoTrace) :
    (Flow.dispatched false).PrintedRight w (tally ts) ts ↔ (Flow.dispatched false).NoneBorrowed w ts := by
  obtain ⟨hkb, hb⟩ := (Flow.dispatched false).wraps_tally w ts
  rw [Flow.lost_dispatched, sub_zero] at hkb
  rw [Flow.PrintedRight, Flow.NoneBorrowed, Flow.total_eq, Flow.sum_bytes]
  exact forall_congr' fun h => hkb.units_iff hb h

/-- **The KiB dispatched** of a device: on the lines of its CPUs, and on that of the totals. -/
theorem dispatched_iff (seen : List Seen) (w : Bool) :
    (∀ cpu, (Flow.dispatched false).PrintedRight w (cpuAt (devReport seen).cpus cpu).ioStats
        (onCpu cpu (seen.flatMap Seen.dumped)) ↔
      (Flow.dispatched false).NoneBorrowed w (onCpu cpu (seen.flatMap Seen.dumped))) ∧
    ((Flow.dispatched false).PrintedRight w (devReport seen).total ((seen.flatMap Seen.dumped).map Prod.snd) ↔
      (Flow.dispatched false).NoneBorrowed w ((seen.flatMap Seen.dumped).map Prod.snd)) := by
  constructor
  · intro cpu
    rw [(devReport_cpus seen cpu).ioStats]
    exact printedRight_iff w _
  · rw [devReport_total]
    exact printedRight_iff w _

/-- A KiB is issued and half of it requeued: 2^54 KiB are printed. -/
theorem not_printedRight :
    (0 ≤ (Flow.dispatched false).total false [sizedRecord 7 1024, sizedRecord 6 512]) ∧
    ¬ (Flow.dispatched false).PrintedRight false
      (cpuAt (devReport [.shown 0 (sizedRecord 7 1024) true, .shown 0 (sizedRecord 6 512) true]).cpus 0).ioStats
      (onCpu 0 ([.shown 0 (sizedRecord 7 1024) true, .shown 0 (sizedRecord 6 512) true].flatMap Seen.dumped)) := by
  refine ⟨by decide, fun h => ?_⟩
  have hkb := h (by decide)
  revert hkb
  decide

/-! ## The throughput -/

/-- The time of the first record that is dumped. -/
def firstTime (seen : List Seen) : UInt64 := ((seen.flatMap Seen.dumped).head?.map (·.2.time)).getD 0

def Seen.bit : Seen → Option BlkIoTrace
  | .look _ | .past _ => none
  | .shown _ bit _ => some bit

/-- The time of the last record that is shown. -/
def lastTime (seen : List Seen) : UInt64 := ((seen.filterMap Seen.bit).getLast?.map (·.time)).getD 0

theorem devReport_times (seen : List Seen) : (devReport seen).firstReportedTime = firstTime seen ∧
    (devReport seen).lastReportedTime = lastTime seen ∧
    ((devReport seen).events = 0 ↔ seen.flatMap Seen.dumped = []) := by
  induction seen using List.reverseRecOn with
  | nil => exact ⟨rfl, rfl, iff_of_true rfl rfl⟩
  | append_singleton seen x ih =>
    rw [devReport_concat, firstTime, lastTime, List.flatMap_append, List.flatMap_singleton, List.filterMap_append]
    rw [firstTime, lastTime] at ih
    obtain ⟨hfirst, hlast, hevents⟩ := ih
    generalize devReport seen = pdi at hfirst hlast hevents ⊢
    generalize seen.flatMap Seen.dumped = dumped at hfirst hevents ⊢
    cases x with
    | look cpu =>
      rw [Seen.dumped, List.append_nil]
      exact ⟨hfirst, by simpa [Seen.bit, DevReport.see] using hlast, hevents⟩
    | past cpu =>
      rw [Seen.dumped, List.append_nil]
      exact ⟨hfirst, by simpa [Seen.bit, DevReport.see] using hlast, hevents⟩
    | shown cpu bit shown =>
      cases shown with
      | false =>
        rw [Seen.dumped, if_neg Bool.false_ne_true, List.append_nil]
        exact ⟨hfirst, by simp [Seen.bit, DevReport.see], hevents⟩
      | true =>
        rw [Seen.dumped, if_pos rfl]
        refine ⟨?_, by simp [Seen.bit, DevReport.see, DevReport.dumpTrace],
          by simp [DevReport.see, DevReport.dumpTrace]⟩
        show (if pdi.events = 0 then bit.time else pdi.firstReportedTime) = _
        cases dumped with
        | nil =>
          rw [if_pos (hevents.mpr rfl)]
          rfl
        | cons p rest =>
          rw [if_neg fun hzero => nomatch hevents.mp hzero]
          exact hfirst

/-- The whole milliseconds between the two. -/
def msBetween (seen : List Seen) : ℤ := ((lastTime seen).toNat - (firstTime seen).toNat) / 1000000

/-- The times do not go back, and the rates are those of the bytes completed. -/
structure ThroughputRight (seen : List Seen) : Prop where
  ordered : firstTime seen ≤ lastTime seen
  rate : 0 < msBetween seen → ∀ w, ((devReport seen).rate w).toNat =
    Flow.completed.total w ((seen.flatMap Seen.dumped).map Prod.snd) * 1000 / (1024 * msBetween seen)

/-- What `1000 * cread_kb + cread_b` has too much: the rest is of 1024ths and counts as 1000ths, and a
completion of 2^31 bytes or more is taken for negative. -/
def rateExcess (w : Bool) (ts : List BlkIoTrace) : ℤ :=
  Flow.completed.sum w Flow.bOf ts - Flow.completed.sum w Flow.bOf ts * 1000 / 1024 - 1000 * Flow.completed.lost w ts

/-- With what is too much, and without what the word has wrapped over, the bytes stay in their step of the
milliseconds. -/
def StaysIn (ms : ℤ) (bytes excess : ℤ) : Prop :=
  let a := bytes * 1000 / 1024
  let e := excess - 2 ^ 64 * ((a + excess) / 2 ^ 64)
  0 ≤ a % ms + e ∧ a % ms + e < ms

/-- The numerator of a rate. -/
theorem wraps_rate (w : Bool) (ts : List BlkIoTrace) :
    Word.Wraps (1000 * tally ts (Flow.completed.kb w) + tally ts (Flow.completed.b w))
      (Flow.completed.total w ts * 1000 / 1024 + rateExcess w ts) := by
  obtain ⟨hkb, hb⟩ := Flow.completed.wraps_tally w ts
  rw [rateExcess, Flow.total_eq, Flow.sum_bytes]
  have h := (hkb.const_mul 1000).add hb
  have hthousand : ((1000 : UInt64).toNat : ℤ) = 1000 := rfl
  rw [hthousand] at h
  convert h using 1
  omega

/-- `msec`, where the times do not go back. -/
theorem toNat_msec {seen : List Seen} (h : firstTime seen ≤ lastTime seen) :
    ((devReport seen).msec.toNat : ℤ) = msBetween seen := by
  obtain ⟨hfirst, hlast, -⟩ := devReport_times seen
  have hle := UInt64.le_iff_toNat_le.mp h
  rw [DevReport.msec, hfirst, hlast, UInt64.toNat_div, UInt64.toNat_sub_of_le _ _ h, msBetween]
  push_cast [hle]
  rfl

/-- **The throughput** of a device. -/
theorem throughputRight_iff (seen : List Seen) : ThroughputRight seen ↔
    firstTime seen ≤ lastTime seen ∧ (0 < msBetween seen → ∀ w, StaysIn (msBetween seen)
      (Flow.completed.total w ((seen.flatMap Seen.dumped).map Prod.snd))
      (rateExcess w ((seen.flatMap Seen.dumped).map Prod.snd))) := by
  have hrate : firstTime seen ≤ lastTime seen → 0 < msBetween seen → ∀ w,
      ((((devReport seen).rate w).toNat : ℤ) =
        Flow.completed.total w ((seen.flatMap Seen.dumped).map Prod.snd) * 1000 / (1024 * msBetween seen) ↔
      StaysIn (msBetween seen) (Flow.completed.total w ((seen.flatMap Seen.dumped).map Prod.snd))
        (rateExcess w ((seen.flatMap Seen.dumped).map Prod.snd))) := by
    intro hordered hpos w
    have hms := toNat_msec hordered
    have hzero : (devReport seen).msec ≠ 0 := by
      intro hzero
      rw [hzero] at hms
      exact hpos.ne hms
    have hlt : 0 < (devReport seen).msec.toNat := by exact_mod_cast hms ▸ hpos
    have h := (wraps_rate w ((seen.flatMap Seen.dumped).map Prod.snd)).quotient_iff hlt
    rw [hms, Int.ediv_ediv_of_nonneg (show (0 : ℤ) ≤ 1024 by decide)] at h
    rw [DevReport.rate, if_neg hzero, devReport_total]
    exact h
  constructor
  · rintro ⟨hordered, hright⟩
    exact ⟨hordered, fun hpos w => (hrate hordered hpos w).mp (hright hpos w)⟩
  · rintro ⟨hordered, hstays⟩
    exact ⟨hordered, fun hpos w => (hrate hordered hpos w).mpr (hstays hpos w)⟩

/-- Two completions of half a KiB, a millisecond apart: 1024 KiB/s are printed for 1000. -/
theorem not_throughputRight : ¬ ThroughputRight
    [.shown 0 (sizedRecord 8 512) true, .shown 0 { sizedRecord 8 512 with time := 1000000 } true] := by
  intro h
  have hrate := h.rate (by decide) false
  revert hrate
  decide

end Blktrace.Blkparse
