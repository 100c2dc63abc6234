import Blktrace.Iowatcher.Events
import Blktrace.Iowatcher.Fio

/-!
# `iowatcher/main.c`: the seconds of the arrays

An array ends at the second after the last time of its own trace, as `find_last_time` and
`find_last_fio_time` see it. A record is left out when it is later than the last of these times over
all traces, cut at the end of the `-x` range. A record between the two is written behind its array.
-/

namespace Blktrace.Iowatcher

/-! ## Before the events are read -/

/-- The seconds of a `struct trace_file`. -/
structure Seconds where
  minSeconds : UInt32 := 0
  maxSeconds : UInt32
  stopSeconds : UInt32

/-- The records that a loop of `first_record` and `next_record` goes through. -/
def exposedFrom (file : List UInt8) : ℕ → ℕ → List BlkIoTrace
  | 0, _ => []
  | fuel + 1, cur =>
    ioAt file cur ::
      match nextRecord file cur with
      | none => []
      | some cur => exposedFrom file fuel cur

def exposed (file : List UInt8) : List BlkIoTrace := exposedFrom file file.length 0

theorem exposedFrom_fuel {file : List UInt8} {fuel fuel' cur : ℕ} (hcur : cur < file.length)
    (h : file.length ≤ cur + fuel) (h' : file.length ≤ cur + fuel') :
    exposedFrom file fuel cur = exposedFrom file fuel' cur := by
  induction fuel generalizing fuel' cur with
  | zero => omega
  | succ fuel ih =>
    cases fuel' with
    | zero => omega
    | succ fuel' =>
      rw [exposedFrom, exposedFrom]
      cases hnext : nextRecord file cur with
      | none => rfl
      | some next =>
        obtain ⟨hlt, hin⟩ := nextRecord_lt hnext
        exact congrArg _ (ih hin (by omega) (by omega))

/-- A trace, as it is opened and looked through. -/
structure TraceFile where
  file : List UInt8
  found : Found
  seconds : Seconds

/-- `SECONDS(last_time) + 1`. -/
def lastSecond (file : List UInt8) : UInt32 := (seconds (findLastTime file) + 1).toUInt32

/-- `read_traces`, for a trace. -/
def readTrace (file : List UInt8) : TraceFile :=
  { file
    found := (exposed file).foldl checkIoTypes {}
    seconds := { maxSeconds := lastSecond file, stopSeconds := lastSecond file } }

/-- A log of fio. -/
structure FioFile where
  file : List UInt8
  fioSeconds : Int32
  seconds : Seconds

/-- `read_traces`, for a log, `none` where the program dies of one of its lines. -/
def readFio (unset : FioLine) (file : List UInt8) : Option FioFile :=
  (findLastFioTime unset file).map fun fioSeconds =>
    { file, fioSeconds
      seconds := { maxSeconds := fioSeconds.toUInt32, stopSeconds := fioSeconds.toUInt32 } }

/-- `min_time` and `max_time`. -/
structure XRange where
  minTime : ℚ
  maxTime : ℚ

/-- `compare_minmax_tf`. -/
def compareMinmaxTf (maxSeconds : UInt32) (tf : Seconds) : UInt32 :=
  if maxSeconds < tf.maxSeconds then tf.maxSeconds else maxSeconds

/-- `max_seconds` of `main`, cut at the end of the range. -/
def XRange.maxSeconds (x : XRange) (all : List Seconds) : UInt32 :=
  let maxSeconds := all.foldl compareMinmaxTf 0
  if x.maxTime < maxSeconds.toNat then UInt32.ofInt ⌈x.maxTime⌉ else maxSeconds

/-- `set_all_minmax_tf`, for a trace. -/
def setMinmaxTf (minSeconds maxSeconds : UInt32) (tf : Seconds) : Seconds :=
  { minSeconds, maxSeconds
    stopSeconds := if maxSeconds < tf.stopSeconds then maxSeconds else tf.stopSeconds }

def Seconds.alloc (tf : Seconds) : GraphLineData :=
  allocLineData tf.minSeconds tf.maxSeconds tf.stopSeconds

/-- `setup_trace_file_graphs`, for a trace. -/
def setupGraphs (tf : Seconds) : Graphs := ⟨tf.alloc, tf.alloc, tf.alloc, tf.alloc, tf.alloc⟩

/-- `setup_trace_file_graphs`, for a log. -/
def setupFioGraph (fioSeconds : Int32) (tf : Seconds) : Option GraphLineData :=
  if 0 < fioSeconds then some tf.alloc else none

/-! ## The events -/

/-- `add_fio_gld`. -/
def addFioGld (time : UInt32) (bw : UInt64) (gld : GraphLineData) : GraphLineData :=
  if gld.maxSeconds < time then gld
  else gld.access time fun pair => ⟨pair.count + 1, pair.sum + bw⟩

/-- `read_fio_events`: the array after it, and whether the program is still there. A log whose array was
not allocated is read all the same, and its first event goes through a null pointer. -/
def readFioEvents : ℕ → List UInt8 → Option GraphLineData → Option GraphLineData × Bool
  | 0, _, gld => (gld, true)
  | fuel + 1, cur, gld =>
    match readFioEvent cur with
    | none => (gld, false)
    | some none => (gld, true)
    | some (some (time, bw, dir)) =>
      if dir ≤ 1 ∧ gld.isNone then (gld, false)
      else
        let gld := if dir ≤ 1 then gld.map (addFioGld time.toUInt32 bw) else gld
        match nextFioLine cur with
        | none => (gld, true)
        | some cur => readFioEvents fuel cur gld

/-- The first loop of `read_trace_events`. -/
def readAllFio (minSeconds maxSeconds : UInt32) : List FioFile → List (Option GraphLineData) × Bool
  | [] => ([], true)
  | tf :: fios =>
    let gld := setupFioGraph tf.fioSeconds (setMinmaxTf minSeconds maxSeconds tf.seconds)
    match readFioEvents tf.file.length tf.file gld with
    | (gld, false) => ([gld], false)
    | (gld, true) =>
      let rest := readAllFio minSeconds maxSeconds fios
      (gld :: rest.1, rest.2)

/-- The second loop. What is in flight at the end of a trace is there for the next one. -/
def readAllTraces (minSeconds maxSeconds : UInt32) : Flight → List TraceFile → List Graphs
  | _, [] => []
  | s, tf :: traces =>
    let graphs := setupGraphs (setMinmaxTf minSeconds maxSeconds tf.seconds)
    let after := (exposed tf.file).foldl (addRecord tf.found maxSeconds) (s, graphs)
    after.2 :: readAllTraces minSeconds maxSeconds after.1 traces

/-- What a run was given: the range, the traces and the logs. -/
structure Input where
  range : XRange
  traces : List (List UInt8)
  fios : List (List UInt8)
  unset : FioLine

namespace Input

variable (input : Input)

def minSeconds : UInt32 :=
  UInt32.ofInt (input.range.minTime.num.tdiv input.range.minTime.den)

/-- The logs as they are opened. -/
def fioFiles : Option (List FioFile) := input.fios.mapM (readFio input.unset)

def maxSeconds : UInt32 :=
  input.range.maxSeconds (input.traces.map (readTrace · |>.seconds) ++
    (input.fioFiles.getD []).map FioFile.seconds)

/-- The arrays of the logs that are read. -/
def fioGraphs : List (Option GraphLineData) × Bool :=
  match input.fioFiles with
  | none => ([], false)
  | some files => readAllFio input.minSeconds input.maxSeconds files

/-- The arrays of the traces that are read. -/
def graphs : List Graphs :=
  if input.fioGraphs.2 then
    readAllTraces input.minSeconds input.maxSeconds {} (input.traces.map readTrace)
  else []

/-- **No array is over-run.** -/
structure Fits : Prop where
  fio : ∀ gld ∈ input.fioGraphs.1, ∀ g ∈ gld, g.Fits
  trace : ∀ g ∈ input.graphs, g.Fits

end Input

/-! ## The logs -/

/-- A log whose array is there when it is needed. -/
def Readable (fioSeconds : Int32) (log : List UInt8) : Prop :=
  0 < fioSeconds ∨ ∀ event ∈ fioEvents log.length log, ¬ event.2.2 ≤ 1

/-- Its events up to `maxSeconds` are not later than its last one. -/
def LogInTime (maxSeconds : UInt32) (fioSeconds : Int32) (log : List UInt8) : Prop :=
  0 < fioSeconds → ∀ event ∈ fioEvents log.length log, event.2.2 ≤ 1 →
    event.1.toUInt32 ≤ maxSeconds → event.1.toUInt32 ≤ fioSeconds.toUInt32

theorem setMinmaxTf_stop_le (minSeconds : UInt32) {maxSeconds second : UInt32} (tf : Seconds)
    (h : second ≤ maxSeconds) :
    second ≤ (setMinmaxTf minSeconds maxSeconds tf).stopSeconds ↔ second ≤ tf.stopSeconds := by
  unfold setMinmaxTf
  dsimp only
  split_ifs with hlt
  · exact ⟨fun _ => UInt32.le_trans h (UInt32.le_of_lt hlt), fun _ => h⟩
  · exact Iff.rfl

/-- What an event of a log does to its array. -/
def addEvent (gld : GraphLineData) (event : Int32 × UInt64 × Int32) : GraphLineData :=
  if event.2.2 ≤ 1 then addFioGld event.1.toUInt32 event.2.1 gld else gld

theorem readFioEvents_some {fuel : ℕ} {cur : List UInt8} (h : ShortLines fuel cur)
    (gld : GraphLineData) :
    readFioEvents fuel cur (some gld) = (some ((fioEvents fuel cur).foldl addEvent gld), true) := by
  induction fuel generalizing cur gld with
  | zero => rfl
  | succ fuel ih =>
    rw [readFioEvents, fioEvents]
    rcases h.cases with hend | ⟨⟨time, bw, dir⟩, hevent, hnext⟩
    · rw [hend]
      rfl
    · have hadd : (if dir ≤ 1 then (some gld).map (addFioGld time.toUInt32 bw) else some gld) =
          some (addEvent gld (time, bw, dir)) := by
        unfold addEvent
        split_ifs <;> rfl
      rw [hevent]
      dsimp only
      rw [if_neg (by simp), hadd]
      cases hcur : nextFioLine cur with
      | none => rfl
      | some next => exact ih (hnext next hcur) _

theorem readFioEvents_none {fuel : ℕ} {cur : List UInt8} (h : ShortLines fuel cur) :
    (readFioEvents fuel cur none).1 = none ∧
      ((readFioEvents fuel cur none).2 = true ↔ ∀ event ∈ fioEvents fuel cur, ¬ event.2.2 ≤ 1) := by
  induction fuel generalizing cur with
  | zero => exact ⟨rfl, by simp [readFioEvents, fioEvents]⟩
  | succ fuel ih =>
    rw [readFioEvents, fioEvents]
    rcases h.cases with hend | ⟨⟨time, bw, dir⟩, hevent, hshort⟩
    · rw [hend]
      exact ⟨rfl, by simp⟩
    · rw [hevent]
      dsimp only
      by_cases hdir : dir ≤ 1
      · rw [if_pos ⟨hdir, rfl⟩]
        refine ⟨rfl, iff_of_false (by simp) fun h => ?_⟩
        cases hnext : nextFioLine cur with
        | none =>
          rw [hnext] at h
          exact h _ List.mem_cons_self hdir
        | some next =>
          rw [hnext] at h
          exact h _ List.mem_cons_self hdir
      · rw [if_neg fun h => hdir h.1, if_neg hdir]
        cases hnext : nextFioLine cur with
        | none => exact ⟨rfl, by simpa using hdir⟩
        | some next =>
          obtain ⟨hnone, halive⟩ := ih (hshort next hnext)
          refine ⟨hnone, halive.trans ?_⟩
          rw [List.forall_mem_cons]
          exact (and_iff_right hdir).symm

theorem addEvent_fits (gld : GraphLineData) (event : Int32 × UInt64 × Int32) :
    (addEvent gld event).stopSeconds = gld.stopSeconds ∧
      (addEvent gld event).maxSeconds = gld.maxSeconds ∧
      ((addEvent gld event).Fits ↔ gld.Fits ∧ (event.2.2 ≤ 1 → event.1.toUInt32 ≤ gld.maxSeconds →
        event.1.toUInt32 ≤ gld.stopSeconds)) := by
  unfold addEvent addFioGld
  split_ifs with hdir hlate
  · refine ⟨rfl, rfl, (and_iff_left fun _ hle => ?_).symm⟩
    exact absurd hle (UInt32.not_le.mpr hlate)
  · refine ⟨rfl, rfl, fits_access.trans ?_⟩
    have hin := UInt32.not_lt.mp hlate
    exact ⟨fun h => ⟨h.2, fun _ _ => h.1⟩, fun h => ⟨h.2 hdir hin, h.1⟩⟩
  · exact ⟨rfl, rfl, (and_iff_left fun h => absurd h hdir).symm⟩

theorem foldl_addEvent_fits (gld : GraphLineData) (events : List (Int32 × UInt64 × Int32)) :
    (events.foldl addEvent gld).Fits ↔ gld.Fits ∧ ∀ event ∈ events, event.2.2 ≤ 1 →
      event.1.toUInt32 ≤ gld.maxSeconds → event.1.toUInt32 ≤ gld.stopSeconds := by
  induction events generalizing gld with
  | nil => simp
  | cons event events ih =>
    obtain ⟨hstop, hmax, hfits⟩ := addEvent_fits gld event
    rw [List.foldl_cons, ih, hstop, hmax, hfits, List.forall_mem_cons, and_assoc]

/-- A log as it is opened. -/
def Opened (tf : FioFile) : Prop :=
  ShortLines tf.file.length tf.file ∧ tf.seconds.stopSeconds = tf.fioSeconds.toUInt32

theorem opened_of_readFio {unset : FioLine} {log : List UInt8} {tf : FioFile}
    (h : readFio unset log = some tf) : Opened tf := by
  obtain ⟨fioSeconds, hfind, rfl⟩ := Option.map_eq_some_iff.mp h
  exact ⟨shortLines_of_findLastFioTime (by rw [hfind]; rfl), rfl⟩

theorem opened_of_mapM {unset : FioLine} {logs : List (List UInt8)} {files : List FioFile}
    (h : logs.mapM (readFio unset) = some files) : ∀ tf ∈ files, Opened tf := by
  induction logs generalizing files with
  | nil =>
    obtain rfl := Option.some.inj h
    exact nofun
  | cons log logs ih =>
    rw [List.mapM_cons] at h
    obtain ⟨tf, htf, h⟩ := Option.bind_eq_some_iff.mp h
    obtain ⟨rest, hrest, h⟩ := Option.bind_eq_some_iff.mp h
    obtain rfl := Option.some.inj h
    exact List.forall_mem_cons.mpr ⟨opened_of_readFio htf, ih hrest⟩

/-- **A log**: its array is not over-run if its events are in time, and the program goes on if it is
readable. -/
theorem readFio_spec (minSeconds maxSeconds : UInt32) {tf : FioFile} (htf : Opened tf) :
    let after := readFioEvents tf.file.length tf.file
      (setupFioGraph tf.fioSeconds (setMinmaxTf minSeconds maxSeconds tf.seconds))
    ((∀ g ∈ after.1, g.Fits) ↔ LogInTime maxSeconds tf.fioSeconds tf.file) ∧
      (after.2 = true ↔ Readable tf.fioSeconds tf.file) := by
  obtain ⟨hshort, hstop⟩ := htf
  dsimp only
  generalize tf.seconds = seconds at *
  generalize tf.fioSeconds = fioSeconds at *
  unfold LogInTime Readable
  by_cases hpos : 0 < fioSeconds
  · rw [setupFioGraph, if_pos hpos, readFioEvents_some hshort]
    refine ⟨?_, iff_of_true rfl (.inl hpos)⟩
    have halloc : (setMinmaxTf minSeconds maxSeconds seconds).alloc.Fits := fits_alloc _ _ _
    simp only [Option.mem_some_iff, forall_eq']
    rw [foldl_addEvent_fits, and_iff_right halloc, imp_iff_right hpos]
    have hmax : (setMinmaxTf minSeconds maxSeconds seconds).alloc.maxSeconds = maxSeconds := rfl
    refine forall₂_congr fun event _ => forall_congr' fun _ => ?_
    rw [hmax]
    refine forall_congr' fun hle => ?_
    rw [← hstop]
    exact setMinmaxTf_stop_le minSeconds seconds hle
  · obtain ⟨hnone, halive⟩ := readFioEvents_none hshort
    rw [setupFioGraph, if_neg hpos, hnone, halive]
    exact ⟨⟨fun _ h => absurd h hpos, fun _ => nofun⟩, (or_iff_right hpos).symm⟩

/-- The logs are in time, as far as they are read. -/
def LogsInTime (maxSeconds : UInt32) : List FioFile → Prop
  | [] => True
  | tf :: fios =>
    LogInTime maxSeconds tf.fioSeconds tf.file ∧
      (Readable tf.fioSeconds tf.file → LogsInTime maxSeconds fios)

theorem readAllFio_spec (minSeconds maxSeconds : UInt32) {fios : List FioFile}
    (h : ∀ tf ∈ fios, Opened tf) :
    ((∀ gld ∈ (readAllFio minSeconds maxSeconds fios).1, ∀ g ∈ gld, g.Fits) ↔
      LogsInTime maxSeconds fios) ∧
    ((readAllFio minSeconds maxSeconds fios).2 = true ↔
      ∀ tf ∈ fios, Readable tf.fioSeconds tf.file) := by
  induction fios with
  | nil => exact ⟨iff_of_true nofun trivial, iff_of_true rfl nofun⟩
  | cons tf fios ih =>
    rw [List.forall_mem_cons] at h
    obtain ⟨hfits, halive⟩ := readFio_spec minSeconds maxSeconds h.1
    obtain ⟨hrest, hlives⟩ := ih h.2
    rw [readAllFio, LogsInTime, List.forall_mem_cons]
    dsimp only at hfits halive ⊢
    generalize readFioEvents _ _ _ = after at *
    obtain ⟨gld, alive⟩ := after
    cases alive with
    | false =>
      have hdead : ¬ Readable tf.fioSeconds tf.file := fun h => nomatch halive.mpr h
      constructor
      · rw [List.forall_mem_singleton, hfits]
        exact (and_iff_left fun h => absurd h hdead).symm
      · exact iff_of_false nofun fun h => hdead h.1
    | true =>
      have hread := halive.mp rfl
      constructor
      · rw [List.forall_mem_cons, hfits, hrest]
        exact and_congr_right' (imp_iff_right hread).symm
      · rw [hlives]
        exact (and_iff_right hread).symm

/-! ## The traces -/

/-- What is found in a trace. -/
def foundIn (file : List UInt8) : Found := (exposed file).foldl checkIoTypes {}

theorem completion_checkIoTypes {found : Found} (h : found.completion = true) (io : BlkIoTrace) :
    (checkIoTypes found io).completion = true := by
  unfold checkIoTypes
  split_ifs
  · exact h
  · split <;> first | rfl | exact h

theorem completion_foldl {ios : List BlkIoTrace} {found : Found} (h : found.completion = true ∨
    ∃ io ∈ ios, io.hasTc blkTcNotify = false ∧ BlkTa.ofAction io.action = some .complete) :
    (ios.foldl checkIoTypes found).completion = true := by
  induction ios generalizing found with
  | nil => exact h.resolve_right (by simp)
  | cons io ios ih =>
    apply ih
    rcases h with h | ⟨io', hmem, hnotify, hact⟩
    · exact .inl (completion_checkIoTypes h io)
    · rcases List.mem_cons.mp hmem with rfl | hmem
      · left
        rw [checkIoTypes, if_neg (by simp [hnotify]), hact]
      · exact .inr ⟨io', hmem, hnotify, hact⟩

/-- **The records of a trace**: the arrays are asked for the seconds of those that are charged. -/
theorem foldl_addRecord_fits {found : Found} {maxSeconds stop : UInt32} {ios : List BlkIoTrace}
    (hcomplete : ∀ io ∈ ios, io.hasTc blkTcNotify = false →
      BlkTa.ofAction io.action = some .complete → found.completion = true)
    {s : Flight × Graphs} (hg : s.2.Stop stop) :
    (ios.foldl (addRecord found maxSeconds) s).2.Fits ↔ s.2.Fits ∧ ∀ io ∈ ios,
      seconds io.time ≤ maxSeconds.toUInt64 ∧ Charged found io → ioSeconds io ≤ stop := by
  induction ios generalizing s with
  | nil => simp
  | cons io ios ih =>
    obtain ⟨hio, hios⟩ := List.forall_mem_cons.mp hcomplete
    have hstep := @addRecord_asks stop found io maxSeconds s hg hio
    rw [List.foldl_cons, ih hios hstep.ends, hstep.fits, List.forall_mem_cons]
    tauto

/-- The charged records of a trace up to `maxSeconds` are not later than the second after its last
time. -/
def TraceInTime (maxSeconds : UInt32) (file : List UInt8) : Prop :=
  ∀ io ∈ exposed file, Charged (foundIn file) io → seconds io.time ≤ maxSeconds.toUInt64 →
    ioSeconds io ≤ lastSecond file

theorem setupGraphs_stop (tf : Seconds) : (setupGraphs tf).Stop tf.stopSeconds := ⟨rfl, rfl, rfl, rfl, rfl⟩

theorem setupGraphs_fits (tf : Seconds) : (setupGraphs tf).Fits :=
  ⟨fits_alloc _ _ _, fits_alloc _ _ _, fits_alloc _ _ _, fits_alloc _ _ _, fits_alloc _ _ _⟩

theorem ioSeconds_le {io : BlkIoTrace} {maxSeconds : UInt32}
    (h : seconds io.time ≤ maxSeconds.toUInt64) : ioSeconds io ≤ maxSeconds := by
  rw [UInt32.le_iff_toNat_le, ioSeconds, UInt64.toNat_toUInt32]
  rw [UInt64.le_iff_toNat_le, UInt32.toNat_toUInt64] at h
  exact le_trans (Nat.mod_le _ _) h

theorem readAllTraces_fits (minSeconds maxSeconds : UInt32) (s : Flight) (files : List (List UInt8)) :
    (∀ g ∈ readAllTraces minSeconds maxSeconds s (files.map readTrace), g.Fits) ↔
      ∀ file ∈ files, TraceInTime maxSeconds file := by
  induction files generalizing s with
  | nil => simp [readAllTraces]
  | cons file files ih =>
    rw [List.map_cons, readAllTraces, List.forall_mem_cons, List.forall_mem_cons, ih]
    refine and_congr_left' ?_
    have hstop := fun second => @setMinmaxTf_stop_le minSeconds maxSeconds second (readTrace file).seconds
    have hcomplete : ∀ io ∈ exposed file, io.hasTc blkTcNotify = false →
        BlkTa.ofAction io.action = some .complete → (foundIn file).completion = true :=
      fun io hio hnotify hact => completion_foldl (.inr ⟨io, hio, hnotify, hact⟩)
    refine (foldl_addRecord_fits hcomplete (s := (s, _)) (setupGraphs_stop _)).trans ?_
    refine (and_iff_right (setupGraphs_fits _)).trans (forall₂_congr fun io _ => ?_)
    rw [and_comm, and_imp]
    exact forall₂_congr fun _ hle => hstop _ (ioSeconds_le hle)

/-! ## The run -/

/-- No event that is counted is later than its own array while it is not later than the last second of
all traces; of the logs those are meant that are read, and the traces are read after all logs. A program
that dies as it opens a log reads none of them. -/
structure Input.InTime (input : Input) : Prop where
  fio : ∀ files ∈ input.fioFiles, LogsInTime input.maxSeconds files
  trace : ∀ files ∈ input.fioFiles, (∀ tf ∈ files, Readable tf.fioSeconds tf.file) →
    ∀ file ∈ input.traces, TraceInTime input.maxSeconds file

theorem fits_iff (input : Input) : input.Fits ↔ input.InTime := by
  cases hfiles : input.fioFiles with
  | none =>
    have hnone : input.fioGraphs = ([], false) := by rw [Input.fioGraphs, hfiles]
    refine iff_of_true ⟨?_, ?_⟩ ⟨?_, ?_⟩
    · rw [hnone]
      exact nofun
    · rw [Input.graphs, hnone, if_neg Bool.false_ne_true]
      exact nofun
    · rw [hfiles]
      exact nofun
    · rw [hfiles]
      exact nofun
  | some files =>
    have hread : input.fioGraphs = readAllFio input.minSeconds input.maxSeconds files := by
      rw [Input.fioGraphs, hfiles]
    obtain ⟨hfits, halive⟩ :=
      readAllFio_spec input.minSeconds input.maxSeconds (opened_of_mapM hfiles)
    rw [← hread] at hfits halive
    have hgraphs : (∀ g ∈ input.graphs, g.Fits) ↔
        ((∀ tf ∈ files, Readable tf.fioSeconds tf.file) →
          ∀ file ∈ input.traces, TraceInTime input.maxSeconds file) := by
      rw [← halive, Input.graphs]
      by_cases hall : input.fioGraphs.2 = true
      · rw [if_pos hall, readAllTraces_fits]
        exact (imp_iff_right hall).symm
      · rw [if_neg hall]
        exact iff_of_true nofun fun h => absurd h hall
    constructor
    · intro h
      constructor
      · intro files' hfiles'
        rw [hfiles, Option.mem_some_iff] at hfiles'
        exact hfiles' ▸ hfits.mp h.fio
      · intro files' hfiles'
        rw [hfiles, Option.mem_some_iff] at hfiles'
        exact hfiles' ▸ hgraphs.mp h.trace
    · intro h
      exact ⟨hfits.mpr (h.fio files hfiles), hgraphs.mpr (h.trace files hfiles)⟩

/-- Two traces, of 5 and 0 seconds and of 10. -/
def late : Input where
  range := ⟨0, 1000⟩
  traces := [fileOf false [ioRecord 5000000000 0 [], ioRecord 0 0 []],
    fileOf false [ioRecord 10000000000 0 []]]
  fios := []
  unset := {}

/-- The array of the first trace ends at the first second and is asked for the fifth. -/
theorem not_fits : ¬ late.Fits := by
  intro h
  have hgraphs : late.graphs =
      readAllTraces late.minSeconds late.maxSeconds {} (late.traces.map readTrace) := if_pos rfl
  have htraces := h.trace
  rw [hgraphs, readAllTraces_fits] at htraces
  have hmax : late.maxSeconds = 11 := by decide +kernel
  have hexposed : exposed (fileOf false [ioRecord 5000000000 0 [], ioRecord 0 0 []]) =
      [ioRecord 5000000000 0 [], ioRecord 0 0 []] := by decide
  have hfirst := htraces _ List.mem_cons_self (ioRecord 5000000000 0 [])
    (hexposed ▸ List.mem_cons_self) (by decide) (hmax ▸ by decide)
  revert hfirst
  decide

end Blktrace.Iowatcher
