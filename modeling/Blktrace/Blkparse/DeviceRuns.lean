import Blktrace.Blkparse.DeviceReport
import Blktrace.Blkparse.PipeRun
import Blktrace.Blkparse.Stopwatch

/-!
# The records of a device in a run

What a run of either mode leaves of a device, in the reader and in its log, is what some list of records
leaves: `devReport` is what `show_device_and_cpu_stats` finds.
-/

namespace Blktrace.Blkparse

/-- What is dumped through a slot, with the CPU. -/
def dumpsAt (pdi : ℕ) (events : List Event) : List (UInt32 × BlkIoTrace) :=
  events.filterMap fun
    | .dump pdi' _ cpu bit => if pdi' = pdi then some (cpu, bit) else none
    | .notify _ _ => none

/-- The records `seen` leave a slot as it is. -/
structure Leaves (pdi : ℕ) (nelems : UInt32 → ℕ) (last : UInt64) (events : List Event) (seen : List Seen) :
    Prop where
  nelems : ∀ cpu, (cpuAt (devReport seen).cpus cpu.toNat).nelems = nelems cpu
  last : (devReport seen).lastReportedTime = last
  dumps : (seen.flatMap Seen.dumped).map (fun p => (UInt32.ofNat p.1, p.2)) = dumpsAt pdi events

theorem dumpsAt_append (pdi : ℕ) (events events' : List Event) :
    dumpsAt pdi (events ++ events') = dumpsAt pdi events ++ dumpsAt pdi events' := List.filterMap_append

section Leaves

variable {pdi : ℕ} {nelems : UInt32 → ℕ} {last : UInt64} {events : List Event} {seen : List Seen}

theorem Leaves.nil (pdi : ℕ) : Leaves pdi (fun _ => 0) 0 [] [] := ⟨fun _ => rfl, rfl, rfl⟩

theorem nelems_counted (seen : List Seen) (cpu i : ℕ) :
    (cpuAt ((getCpuInfo (devReport seen).cpus cpu).modify cpu .counted) i).nelems =
      (cpuAt (devReport seen).cpus i).nelems + if cpu = i then 1 else 0 := by
  rw [cpuAt_modify (lt_getCpuInfo _ _), cpuAt_getCpuInfo]
  split_ifs <;> rfl

theorem nelems_see (seen : List Seen) (cpu : ℕ) (bit : BlkIoTrace) (dumped : Bool) (i : ℕ) :
    (cpuAt ((devReport seen).see (.shown cpu bit dumped)).cpus i).nelems =
      (cpuAt (devReport seen).cpus i).nelems + if cpu = i then 1 else 0 := by
  rw [← nelems_counted]
  cases dumped with
  | false => rfl
  | true =>
    show (cpuAt (((getCpuInfo (devReport seen).cpus cpu).modify cpu .counted).modify cpu (.account bit))
      i).nelems = _
    rw [cpuAt_modify (by rw [List.length_modify]; exact lt_getCpuInfo _ _)]
    split_ifs <;> rfl

/-- One more record is shown. -/
theorem Leaves.shown (h : Leaves pdi nelems last events seen) (cpu : ℕ) (dev : UInt32) (bit : BlkIoTrace)
    (dumped : Bool) : Leaves pdi (fun c => nelems c + if cpu = c.toNat then 1 else 0) bit.time
      (if dumped then events ++ [.dump pdi dev (UInt32.ofNat cpu) bit] else events)
      (seen ++ [.shown cpu bit dumped]) := by
  refine ⟨fun c => ?_, ?_, ?_⟩
  · rw [devReport_concat, nelems_see, h.nelems]
  · rw [devReport_concat]
    cases dumped <;> rfl
  · rw [List.flatMap_append, List.flatMap_singleton, List.map_append, h.dumps]
    cases dumped with
    | false => simp [Seen.dumped]
    | true => simp [Seen.dumped, dumpsAt]

/-- A record ends the run. -/
theorem Leaves.past (h : Leaves pdi nelems last events seen) (cpu : ℕ) :
    Leaves pdi (fun c => nelems c + if cpu = c.toNat then 1 else 0) last events (seen ++ [.past cpu]) := by
  refine ⟨fun c => ?_, ?_, ?_⟩
  · rw [devReport_concat, ← h.nelems]
    exact nelems_counted seen cpu c.toNat
  · rw [devReport_concat]
    exact h.last
  · rw [List.flatMap_append, List.flatMap_singleton, List.map_append, h.dumps]
    exact List.append_nil _

/-- What is dumped elsewhere changes nothing. -/
theorem Leaves.other (h : Leaves pdi nelems last events seen) {events' : List Event}
    (hevents : dumpsAt pdi events' = dumpsAt pdi events) : Leaves pdi nelems last events' seen :=
  ⟨h.nelems, h.last, h.dumps.trans hevents.symm⟩

/-- The CPUs are numbered in 32 bits. -/
def SmallCpus (seen : List Seen) : Prop := ∀ p ∈ seen.flatMap Seen.dumped, p.1 < 2 ^ 32

/-- **The statistics of a CPU** are those of the log. -/
theorem Leaves.cpus (h : Leaves pdi nelems last events seen) (hsmall : SmallCpus seen) (o : Opts)
    (malloc : ℕ → IoTrack) (cpu : UInt32) :
    (Dumper.run o malloc {} events).cpus pdi cpu = (cpuAt (devReport seen).cpus cpu.toNat).ioStats := by
  have hlog : Dumper.dumpedOn pdi cpu events = ((dumpsAt pdi events).filter fun p => p.1 = cpu).map Prod.snd := by
    rw [Dumper.dumpedOn, dumpsAt, List.filter_filterMap, List.map_filterMap]
    apply List.filterMap_congr
    intro e _
    cases e with
    | notify b bit => rfl
    | dump i dev c bit =>
      by_cases hi : i = pdi
      · by_cases hc : c = cpu <;> simp [hi, hc]
      · simp [hi]
  rw [Dumper.run_cpus, (devReport_cpus seen cpu.toNat).ioStats, hlog, ← h.dumps, List.filter_map, List.map_map,
    onCpu]
  congr 2
  apply List.filter_congr
  intro p hp
  have hlt := hsmall p hp
  simp only [Function.comp_apply, decide_eq_decide]
  rw [← UInt32.toNat_inj, UInt32.toNat_ofNat_of_lt' hlt]

/-- The totals are those of the log. -/
theorem Leaves.total (h : Leaves pdi nelems last events seen) :
    (devReport seen).total = tally ((dumpsAt pdi events).map Prod.snd) := by
  rw [devReport_total, ← h.dumps, List.map_map]
  rfl

end Leaves

/-! ## Pipe mode -/

section Pipe

variable {o : Opts} {find : Find} {names : ℕ} {input : List (Option BlkIoTrace)}
  {P : List PerDevInfo → List Event → Prop}

/-- A pass, for what is kept of the devices and the log. -/
theorem showLoop_log {force : Bool}
    (hlook : ∀ devices events cache dev, DevsOk devices → CacheOk devices cache → P devices events →
      P (lookDev devices cache dev).1 events)
    (hshow : ∀ devices events i pdi' t rest force, DevsOk devices → slotOf devices t.bit.device = some i →
      Passes find (devAt devices i) pdi' (t :: rest) t.bit force → P devices events →
      P (devices.set i (pdi'.show o t.bit))
        (if o.masks t.bit then events ++ [.dump i pdi'.dev t.bit.cpu t.bit] else events))
    {ts : List Trace} {cache : Option Nat} {s : PipeState} (hd : DevsOk s.devices)
    (hc : CacheOk s.devices cache) (h : P s.devices s.events) :
    DevsOk (showLoop o find force ts cache s).1.devices ∧
      P (showLoop o find force ts cache s).1.devices (showLoop o find force ts cache s).1.events := by
  induction ts generalizing cache s with
  | nil => exact ⟨hd, h⟩
  | cons t rest ih =>
    have hlooked := lookDev_looked hd.slotsOk hc t.bit.device
    have hd₁ := hd.look hc t.bit.device
    have h₁ := hlook s.devices s.events cache t.bit.device hd hc h
    rcases showLoop_cons o find force t rest cache s with
      ⟨devices, hdevices, -, heq⟩ | ⟨devices, i, pdi', hlk, hpass, heq⟩
    · rw [heq]
      rcases hdevices with rfl | rfl
      · exact ⟨hd, h⟩
      · exact ⟨hd₁, h₁⟩
    · rw [hlk] at hlooked hd₁ h₁
      obtain ⟨hpdev, hplain⟩ := hpass.dev (devAt_plain hd₁.plain i)
      obtain ⟨hsdev, hsplain, -⟩ := show_spec o pdi' t.bit
      rw [heq]
      exact @ih (some i) (s.shown o devices i pdi' t.bit) (hd₁.set (hsdev.trans hpdev) (hsplain hplain))
        (hlooked.cacheOk.set (hsdev.trans hpdev))
        (hshow devices s.events i pdi' t rest force hd₁ hlooked.found hpass h₁)

/-- **The rule of a run** for what is kept of the devices and the log. -/
theorem doPipe_log (hinit : P (List.replicate names {}) [])
    (hnotify : ∀ devices events b bit, P devices events → P devices (events ++ [.notify b bit]))
    (hlook : ∀ devices events cache dev, DevsOk devices → CacheOk devices cache → P devices events →
      P (lookDev devices cache dev).1 events)
    (hshow : ∀ devices events i pdi' t rest force, DevsOk devices → slotOf devices t.bit.device = some i →
      Passes find (devAt devices i) pdi' (t :: rest) t.bit force → P devices events →
      P (devices.set i (pdi'.show o t.bit))
        (if o.masks t.bit then events ++ [.dump i pdi'.dev t.bit.cpu t.bit] else events)) :
    P (doPipe o find names input).devices (doPipe o find names input).events := by
  have hread : ∀ rest s, DevsOk s.devices ∧ P s.devices s.events →
      DevsOk (readEvents o rest 0 none s).1.devices ∧
        P (readEvents o rest 0 none s).1.devices (readEvents o rest 0 none s).1.events := by
    intro rest s ⟨hd, h⟩
    exact readEvents_induction (P := fun s => P s.devices s.events) (fun _ _ h => h)
      (fun s b bit h => hnotify _ _ b bit h)
      (fun s cache b raw _ hd hc _ _ h => hlook _ _ _ _ hd hc h) hd (CacheOk.none _) h
  have hsort : ∀ s, DevsOk s.devices ∧ P s.devices s.events →
      DevsOk (sortEntries o s).1.devices ∧ P (sortEntries o s).1.devices (sortEntries o s).1.events := by
    intro s ⟨hd, h⟩
    have hevents : (sortEntries o s).1.events = s.events := by
      have hframe := congrArg PipeState.events (sortEntries_frame o s).1
      exact hframe
    obtain ⟨hd', h', -⟩ := @sortEntries_devices (fun _ => True) (fun devices _ => P devices s.events)
      (fun devices cache _ dev _ hd hc h => hlook devices s.events cache dev hd hc h) o s [] hd
      (fun _ _ => trivial) (fun _ _ => trivial) h
    rw [hevents]
    exact ⟨hd', h'⟩
  have hpass : ∀ force s, DevsOk s.devices ∧ P s.devices s.events →
      DevsOk (showEntriesRb o find force s).devices ∧
        P (showEntriesRb o find force s).devices (showEntriesRb o find force s).events := by
    intro force s ⟨hd, h⟩
    exact showLoop_log hlook hshow hd (CacheOk.none _) h
  have hloop : DevsOk (pipeLoop o find (input.length + 1) input (.init names)).devices ∧
      P (pipeLoop o find (input.length + 1) input (.init names)).devices
        (pipeLoop o find (input.length + 1) input (.init names)).events := by
    refine pipeLoop_induction (P := fun _ s => DevsOk s.devices ∧ P s.devices s.events)
      (Q := fun s => DevsOk s.devices ∧ P s.devices s.events) ?_ ?_ (Nat.lt_succ_self _)
      ⟨DevsOk.init names, hinit⟩
    · intro rest s s' rest' h heq
      have h' := hread rest s h
      rwa [heq] at h'
    · intro rest s s' events rest' s₁ youngest h heq _ hsorted
      have h' := hread rest s h
      rw [heq] at h'
      have h₁ := hsort { s' with readSequence := s'.readSequence + 1 } h'
      rw [hsorted] at h₁
      exact ⟨fun _ => h₁, fun _ => hpass false s₁ h₁⟩
  rw [doPipe]
  split
  · exact hloop.2
  · exact (hpass true _ hloop).2

/-- A slot keeps its counts and its last time when a device is looked up. -/
theorem getDevInfo_at (devices : List PerDevInfo) (dev : UInt32) (j : ℕ) :
    (devAt (getDevInfo devices dev).1 j).cpus = (devAt devices j).cpus ∧
      (devAt (getDevInfo devices dev).1 j).lastReportedTime = (devAt devices j).lastReportedTime := by
  induction devices generalizing j with
  | nil => cases j <;> exact ⟨rfl, rfl⟩
  | cons pdi rest ih =>
    by_cases h0 : pdi.dev = 0
    · rw [getDevInfo_unused h0]
      cases j <;> exact ⟨rfl, rfl⟩
    · by_cases hd : pdi.dev = dev
      · subst hd
        rw [getDevInfo_hit h0]
        exact ⟨rfl, rfl⟩
      · rw [getDevInfo_miss h0 hd]
        cases j with
        | zero => exact ⟨rfl, rfl⟩
        | succ j => exact ih j

theorem lookDev_at (devices : List PerDevInfo) (cache : Option ℕ) (dev : UInt32) (j : ℕ) :
    (devAt (lookDev devices cache dev).1 j).cpus = (devAt devices j).cpus ∧
      (devAt (lookDev devices cache dev).1 j).lastReportedTime = (devAt devices j).lastReportedTime := by
  unfold lookDev
  split
  · exact getDevInfo_at devices dev j
  · split
    · exact getDevInfo_at devices dev j
    · exact ⟨rfl, rfl⟩

theorem Passes.nelems {pdi pdi' : PerDevInfo} {ts : List Trace} {bit : BlkIoTrace} {force : Bool}
    (hp : pdi.Plain) (h : Passes find pdi pdi' ts bit force) (cpu : UInt32) :
    (pdi'.cpus cpu).nelems = (pdi.cpus cpu).nelems := by
  rcases h with ⟨-, rfl⟩ | ⟨-, h⟩
  · rfl
  · rw [checkSequence_plain hp] at h
    split_ifs at h with _ hforce
    · cases h
      rfl
    · cases h
      by_cases hcpu : cpu = bit.cpu
      · subst hcpu
        simp only [PerDevInfo.setCpu, Function.update_self, skipTo]
        split
        · rfl
        · split <;> rfl
      · simp only [PerDevInfo.setCpu, Function.update_of_ne hcpu]

theorem nelems_show (o : Opts) (pdi : PerDevInfo) (bit : BlkIoTrace) (cpu : UInt32) :
    ((pdi.show o bit).cpus cpu).nelems = (pdi.cpus cpu).nelems + if bit.cpu = cpu then 1 else 0 := by
  by_cases hcpu : cpu = bit.cpu
  · subst hcpu
    cases h : bit.isMessage <;>
      simp [PerDevInfo.show, traceRbInsertLast, PerDevInfo.setCpu, PerDevInfo.checkTime, h]
  · simp [PerDevInfo.show, traceRbInsertLast, PerDevInfo.setCpu, PerDevInfo.checkTime, hcpu, Ne.symm hcpu]

/-- **A slot of pipe mode** is as some records leave it. -/
theorem doPipe_leaves (o : Opts) (find : Find) (names : ℕ) (input : List (Option BlkIoTrace)) (pdi : ℕ) :
    ∃ seen, SmallCpus seen ∧
      Leaves pdi (fun cpu => ((devAt (doPipe o find names input).devices pdi).cpus cpu).nelems)
        (devAt (doPipe o find names input).devices pdi).lastReportedTime (doPipe o find names input).events seen := by
  refine doPipe_log (P := fun devices events => ∃ seen, SmallCpus seen ∧ Leaves pdi
    (fun cpu => ((devAt devices pdi).cpus cpu).nelems) (devAt devices pdi).lastReportedTime events seen)
    ⟨[], List.forall_mem_nil _, ?_⟩ ?_ ?_ ?_
  · have hnew : devAt (List.replicate names {}) pdi = {} := by
      simp [devAt, List.getElem?_replicate]
      split_ifs <;> rfl
    rw [hnew]
    exact Leaves.nil pdi
  · rintro devices events b bit ⟨seen, hsmall, h⟩
    refine ⟨seen, hsmall, h.other ?_⟩
    rw [dumpsAt_append]
    exact List.append_nil _
  · rintro devices events cache dev - - ⟨seen, hsmall, h⟩
    obtain ⟨hcpus, hlast⟩ := lookDev_at devices cache dev pdi
    rw [hcpus, hlast]
    exact ⟨seen, hsmall, h⟩
  · rintro devices events i pdi' t rest force hd hslot hpass ⟨seen, hsmall, h⟩
    by_cases hi : i = pdi
    · subst hi
      have hsmall' : SmallCpus (seen ++ [.shown t.bit.cpu.toNat t.bit (o.masks t.bit)]) := by
        intro p hp
        rw [List.flatMap_append, List.flatMap_singleton, List.mem_append, Seen.dumped] at hp
        rcases hp with hp | hp
        · exact hsmall p hp
        · split_ifs at hp
          · obtain rfl := List.mem_singleton.mp hp
            exact t.bit.cpu.toNat_lt
          · cases hp
      refine ⟨_, hsmall', ?_⟩
      have hnelems := hpass.nelems (devAt_plain hd.plain i)
      have hnew := h.shown t.bit.cpu.toNat pdi'.dev t.bit (o.masks t.bit)
      simp only [UInt32.toNat_inj, UInt32.ofNat_toNat, ← hnelems, ← nelems_show o pdi' t.bit] at hnew
      rw [devAt_set_self (slotOf_spec hslot).1]
      exact hnew
    · rw [devAt_set_of_ne (Ne.symm hi)]
      refine ⟨seen, hsmall, h.other ?_⟩
      split_ifs
      · rw [dumpsAt_append]
        simp [dumpsAt, hi]
      · rfl

end Pipe

/-! ## File mode -/

theorem dumpsAt_eq_nil {events : List Event} (h : dumps events = []) (pdi : ℕ) : dumpsAt pdi events = [] := by
  rw [dumps, List.filterMap_eq_nil_iff] at h
  rw [dumpsAt, List.filterMap_eq_nil_iff]
  intro e he
  cases e with
  | notify b bit => rfl
  | dump i dev cpu bit => exact absurd (h _ he) (Option.some_ne_none _)

/-- A slot of file mode, with what some records leave of it. -/
def FileState.Left (s : FileState) (pdi : ℕ) : Prop :=
  ∃ seen, Leaves pdi (fun cpu => s.nelems (pdi, cpu.toNat)) (s.lastReportedTime pdi) s.events seen

theorem FileState.Left.congr {s s' : FileState} {pdi : ℕ} (h : s.Left pdi) (hnelems : s'.nelems = s.nelems)
    (hlast : s'.lastReportedTime = s.lastReportedTime)
    (hevents : dumpsAt pdi s'.events = dumpsAt pdi s.events) : s'.Left pdi := by
  obtain ⟨seen, h⟩ := h
  refine ⟨seen, ?_⟩
  rw [hnelems, hlast]
  exact h.other hevents

theorem FileState.Left.msPrime {s : FileState} {pdi : ℕ} (h : s.Left pdi) (o : Opts) (msp : StreamId) :
    (Blkparse.msPrime o s msp).1.Left pdi := by
  rw [Blkparse.msPrime]
  split
  · exact h
  · refine h.congr rfl rfl ?_
    rw [dumpsAt_append, dumpsAt_eq_nil (dumps_notified _ _ _ _ _), List.append_nil]

theorem FileState.Left.msDeq {s : FileState} {pdi : ℕ} (h : s.Left pdi) (o : Opts) (msp : StreamId)
    (next : List StreamId) : (Blkparse.msDeq o s msp next).Left pdi := by
  rw [Blkparse.msDeq]
  dsimp only
  split
  · have h' : ∀ streams, FileState.Left { s with streams } pdi := fun _ => h
    have hprimed := (h' (Function.update s.streams msp
      ⟨(s.streams msp).first.tail, (s.streams msp).fd⟩)).msPrime o msp
    split
    · exact hprimed
    · exact hprimed
  · exact h

theorem FileState.Left.setup (o : Opts) (fs : List (StreamId × List BlkIoTrace)) (pdi : ℕ) :
    (fs.foldl (setupFile o) {}).Left pdi := by
  induction fs using List.reverseRecOn with
  | nil => exact ⟨[], Leaves.nil pdi⟩
  | append_singleton fs f ih =>
    rw [List.foldl_concat, setupFile]
    split
    · exact ih
    · rw [msAlloc]
      have h' : ∀ streams, FileState.Left { fs.foldl (setupFile o) {} with streams } pdi := fun _ => ih
      have hprimed := (h' (Function.update (fs.foldl (setupFile o) {}).streams f.1 ⟨[], some f.2⟩)).msPrime o f.1
      dsimp only
      split
      · exact hprimed
      · exact hprimed

/-- A count goes up for the stream that is handled. -/
theorem nelems_handle (nelems : StreamId → ℕ) (msp : StreamId) (pdi : ℕ) :
    (fun cpu : UInt32 => Function.update nelems msp (nelems msp + 1) (pdi, cpu.toNat)) =
      fun cpu => nelems (pdi, cpu.toNat) + if msp = (pdi, cpu.toNat) then 1 else 0 := by
  funext cpu
  rw [Function.update_apply]
  by_cases heq : msp = (pdi, cpu.toNat)
  · rw [if_pos heq.symm, if_pos heq, heq]
  · rw [if_neg (Ne.symm heq), if_neg heq]
    rfl

/-- A call of `handle` shows a record, or ends the run with it. -/
theorem FileState.Left.handle {s : FileState} {pdi : ℕ} (h : s.Left pdi) (o : Opts) (msp : StreamId)
    (next : List StreamId) : (Blkparse.handle o s msp next).1.Left pdi := by
  rw [Blkparse.handle]
  cases hfirst : (s.streams msp).first with
  | nil => exact h
  | cons t queue =>
    obtain ⟨seen, hseen⟩ := h
    dsimp only
    have hcounts := nelems_handle s.nelems msp pdi
    by_cases hpdi : msp.1 = pdi
    case neg =>
      have hkeep : (fun cpu : UInt32 => Function.update s.nelems msp (s.nelems msp + 1) (pdi, cpu.toNat)) =
          fun cpu => s.nelems (pdi, cpu.toNat) := by
        rw [hcounts]
        funext cpu
        rw [if_neg fun heq => hpdi (congrArg Prod.fst heq)]
        rfl
      split
      · refine ⟨seen, ?_⟩
        rw [hkeep]
        exact hseen
      · apply FileState.Left.msDeq
        refine ⟨seen, ?_⟩
        rw [hkeep]
        dsimp only
        rw [Function.update_of_ne (Ne.symm hpdi)]
        refine hseen.other ?_
        split_ifs
        · rw [dumpsAt_append]
          simp [dumpsAt, hpdi]
        · rfl
    case pos =>
      subst hpdi
      have hsame : ∀ cpu : UInt32, (msp = (msp.1, cpu.toNat)) = (msp.2 = cpu.toNat) := fun cpu =>
        propext ⟨fun heq => congrArg Prod.snd heq, fun heq => by rw [← heq]⟩
      simp only [hsame] at hcounts
      split
      · refine ⟨seen ++ [.past msp.2], ?_⟩
        rw [hcounts]
        exact hseen.past msp.2
      · apply FileState.Left.msDeq
        refine ⟨seen ++ [.shown msp.2 (relative s.genesisTime t) (o.masks (relative s.genesisTime t) &&
          decide (o.stopwatchStart ≤ (relative s.genesisTime t).time))], ?_⟩
        rw [hcounts]
        dsimp only
        rw [Function.update_self]
        exact hseen.shown msp.2 0 (relative s.genesisTime t) _

theorem FileReach.left {o : Opts} {devs : List (List (List BlkIoTrace))} {more : Bool} {s : FileState}
    (h : FileReach o devs more s) (pdi : ℕ) : s.Left pdi := by
  induction h with
  | setup => exact FileState.Left.setup o _ pdi
  | start hs =>
    rw [fileStart, setupDevices_eq] at hs
    split at hs
    · simp at hs
    · simp only [Option.map_some, Option.some.injEq] at hs
      rw [← hs]
      have hsetup := FileState.Left.setup o (filesFrom 0 devs) pdi
      split
      · exact hsetup
      · exact hsetup
  | @handle s s' msp next more _ _ hh ih =>
    have hnew := ih.handle o msp next
    rwa [hh] at hnew

/-- **A slot of file mode** is as some records leave it. -/
theorem doFile_left {o : Opts} {devs : List (List (List BlkIoTrace))} {s : FileState}
    (h : doFile o devs = some s) (pdi : ℕ) : s.Left pdi := by
  obtain ⟨more, hreach⟩ := doFile_reach h
  exact hreach.left pdi

end Blktrace.Blkparse
