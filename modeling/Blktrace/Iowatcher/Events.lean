import Blktrace.Iowatcher.LastTime

/-!
# `iowatcher/blkparse.c`: the per-second arrays and the IOs in flight

What each record of a trace adds to the arrays of its graphs. An array has an entry for each second
up to its `stop_seconds`; `accessed` is the list of the entries it was asked for, whether it has them
or not. The Y maximum of a graph is only drawn and left out.
-/

namespace Blktrace.Iowatcher

def blkTcRead : UInt32 := 0x1

/-! ## The arrays -/

/-- `struct graph_line_pair`. -/
structure GraphLinePair where
  count : UInt64 := 0
  sum : UInt64 := 0
deriving DecidableEq, Repr

/-- `struct graph_line_data`. -/
structure GraphLineData where
  minSeconds : UInt32
  maxSeconds : UInt32
  stopSeconds : UInt32
  data : UInt32 → GraphLinePair
  accessed : List UInt32

/-- `alloc_line_data`. -/
def allocLineData (minSeconds maxSeconds stopSeconds : UInt32) : GraphLineData :=
  { minSeconds, maxSeconds, stopSeconds, data := fun _ => {}, accessed := [] }

/-- An access to `data[seconds]`. -/
def GraphLineData.access (gld : GraphLineData) (seconds : UInt32)
    (f : GraphLinePair → GraphLinePair) : GraphLineData :=
  { gld with
    data := Function.update gld.data seconds (f (gld.data seconds))
    accessed := seconds :: gld.accessed }

/-- Every entry the array was asked for is one of its own. -/
def GraphLineData.Fits (gld : GraphLineData) : Prop := ∀ seconds ∈ gld.accessed, seconds ≤ gld.stopSeconds

@[simp] theorem access_stopSeconds (gld : GraphLineData) (seconds : UInt32)
    (f : GraphLinePair → GraphLinePair) : (gld.access seconds f).stopSeconds = gld.stopSeconds := rfl

theorem fits_access {gld : GraphLineData} {seconds : UInt32} {f : GraphLinePair → GraphLinePair} :
    (gld.access seconds f).Fits ↔ seconds ≤ gld.stopSeconds ∧ gld.Fits := List.forall_mem_cons

theorem fits_alloc (minSeconds maxSeconds stopSeconds : UInt32) :
    (allocLineData minSeconds maxSeconds stopSeconds).Fits := nofun

/-- The arrays of a trace. -/
structure Graphs where
  tputWrites : GraphLineData
  tputReads : GraphLineData
  iop : GraphLineData
  latency : GraphLineData
  queueDepth : GraphLineData

/-! ## The events of a trace -/

/-- `found_issue`, `found_completion` and `found_queue`. -/
structure Found where
  issue : Bool := false
  completion : Bool := false
  queue : Bool := false
deriving DecidableEq

/-- `check_io_types`. -/
def checkIoTypes (found : Found) (io : BlkIoTrace) : Found :=
  if io.hasTc blkTcNotify then found
  else
    match BlkTa.ofAction io.action with
    | some .complete => { found with completion := true }
    | some .issue => { found with issue := true }
    | some .queue => { found with queue := true }
    | _ => found

/-- `tput_event`. -/
def tputEvent (found : Found) : BlkTa :=
  if found.completion then .complete
  else if found.issue then .issue
  else if found.queue then .queue
  else .complete

/-- `int seconds = SECONDS(io->time)`, for an index as it compares with an unsigned one. -/
def ioSeconds (io : BlkIoTrace) : UInt32 := (seconds io.time).toUInt32

/-- `add_tput`. -/
def addTput (found : Found) (io : BlkIoTrace) (g : Graphs) : Graphs :=
  if io.hasTc blkTcNotify then g
  else if BlkTa.ofAction io.action ≠ some (tputEvent found) then g
  else
    let add (pair : GraphLinePair) : GraphLinePair := ⟨1, pair.sum + io.bytes.toUInt64⟩
    if io.hasTc blkTcRead then { g with tputReads := g.tputReads.access (ioSeconds io) add }
    else { g with tputWrites := g.tputWrites.access (ioSeconds io) add }

/-- `add_iop`. -/
def addIop (found : Found) (io : BlkIoTrace) (g : Graphs) : Graphs :=
  if io.hasTc blkTcNotify then g
  else if BlkTa.ofAction io.action ≠ some (tputEvent found) then g
  else { g with iop := g.iop.access (ioSeconds io) fun pair => ⟨1, pair.sum + 1⟩ }

/-! ## The IOs in flight -/

/-- `struct pending_io`. -/
structure PendingIo where
  sector : UInt64
  device : UInt32
  dispatchTime : UInt64 := 0
deriving DecidableEq, Repr

/-- `io_hash_table` and `ios_in_flight`, which all traces share. The chains of the table are one list:
a sector is in the chain of its hash only. -/
structure Flight where
  ioHashTable : List PendingIo := []
  iosInFlight : UInt64 := 0
deriving DecidableEq, Repr

def PendingIo.isAt (pio : PendingIo) (sector : UInt64) (dev : UInt32) : Bool :=
  pio.sector == sector && pio.device == dev

/-- `io_hash_table_search`. -/
def ioHashTableSearch (table : List PendingIo) (sector : UInt64) (dev : UInt32) : Option PendingIo :=
  table.find? (·.isAt sector dev)

/-- `io_hash_table_insert`; `none` is `-EEXIST`. -/
def ioHashTableInsert (table : List PendingIo) (pio : PendingIo) : Option (List PendingIo) :=
  if (ioHashTableSearch table pio.sector pio.device).isSome then none else some (table ++ [pio])

/-- `hash_queued_io`: the table after it, `none` where it returns no IO. -/
def hashQueuedIo (table : List PendingIo) (io : BlkIoTrace) : Option (List PendingIo) :=
  ioHashTableInsert table { sector := io.sector, device := io.device }

/-- `hash_dispatched_io`. -/
def hashDispatchedIo (table : List PendingIo) (io : BlkIoTrace) : Option (List PendingIo) :=
  let found := match ioHashTableSearch table io.sector io.device with
    | some _ => some table
    | none => hashQueuedIo table io
  found.map fun table => table.map fun pio =>
    if pio.isAt io.sector io.device then { pio with dispatchTime := io.time } else pio

/-- `list_del` of the IO that was found. -/
def removeIo (table : List PendingIo) (io : BlkIoTrace) : List PendingIo :=
  table.eraseP (·.isAt io.sector io.device)

/-- `if (ios_in_flight > 0) ios_in_flight--`. -/
def Flight.leave (s : Flight) : Flight :=
  if 0 < s.iosInFlight then { s with iosInFlight := s.iosInFlight - 1 } else s

/-- `add_pending_io`. -/
def addPendingIo (found : Found) (io : BlkIoTrace) (s : Flight × Graphs) : Flight × Graphs :=
  if io.hasTc blkTcNotify then s
  else
    match BlkTa.ofAction io.action with
    | some .queue =>
      if found.issue || found.completion then
        ({ s.1 with ioHashTable := (hashQueuedIo s.1.ioHashTable io).getD s.1.ioHashTable }, s.2)
      else s
    | some .requeue => (s.1.leave, s.2)
    | some .issue =>
      match hashDispatchedIo s.1.ioHashTable io with
      | none => s
      | some table =>
        let table := if found.completion then table else removeIo table io
        let inFlight := s.1.iosInFlight + 1
        (⟨table, inFlight⟩,
          { s.2 with
            queueDepth := s.2.queueDepth.access (ioSeconds io) fun pair =>
              ⟨pair.count + 1, pair.sum + inFlight⟩ })
    | _ => s

/-- `add_completed_io`. Its average is taken of an entry that may have got no latency. -/
def addCompletedIo (io : BlkIoTrace) (s : Flight × Graphs) : Flight × Graphs :=
  if io.hasTc blkTcNotify then s
  else if BlkTa.ofAction io.action ≠ some .complete then s
  else
    match ioHashTableSearch s.1.ioHashTable io.sector io.device with
    | none => s
    | some pio =>
      ({ s.1.leave with ioHashTable := removeIo s.1.ioHashTable io },
        { s.2 with
          latency := s.2.latency.access (ioSeconds io) fun pair =>
            if pio.dispatchTime ≤ io.time then ⟨pair.count + 1, pair.sum + (io.time - pio.dispatchTime)⟩
            else pair })

/-- An iteration of `read_trace_events`. -/
def addRecord (found : Found) (maxSeconds : UInt32) (s : Flight × Graphs) (io : BlkIoTrace) :
    Flight × Graphs :=
  if maxSeconds.toUInt64 < seconds io.time then s
  else addCompletedIo io (addPendingIo found io (s.1, addIop found io (addTput found io s.2)))

/-! ## What is charged -/

/-- The records that an array is asked for a second of. -/
def Charged (found : Found) (io : BlkIoTrace) : Prop :=
  io.hasTc blkTcNotify = false ∧
    (BlkTa.ofAction io.action = some (tputEvent found) ∨ BlkTa.ofAction io.action = some .issue)

instance (found : Found) (io : BlkIoTrace) : Decidable (Charged found io) := by
  unfold Charged
  infer_instance

/-- No array of a trace was asked for an entry it does not have. -/
structure Graphs.Fits (g : Graphs) : Prop where
  tputWrites : g.tputWrites.Fits
  tputReads : g.tputReads.Fits
  iop : g.iop.Fits
  latency : g.latency.Fits
  queueDepth : g.queueDepth.Fits

/-- They all end at one second. -/
structure Graphs.Stop (g : Graphs) (stop : UInt32) : Prop where
  tputWrites : g.tputWrites.stopSeconds = stop
  tputReads : g.tputReads.stopSeconds = stop
  iop : g.iop.stopSeconds = stop
  latency : g.latency.stopSeconds = stop
  queueDepth : g.queueDepth.stopSeconds = stop

/-- The arrays are asked for a second if and only if `p` holds. -/
structure Asks (stop second : UInt32) (p : Prop) (g g' : Graphs) : Prop where
  ends : g'.Stop stop
  fits : g'.Fits ↔ (p → second ≤ stop) ∧ g.Fits

namespace Asks

variable {stop second : UInt32} {p q : Prop} {g g' g'' : Graphs}

theorem none (hg : g.Stop stop) (hp : ¬ p) : Asks stop second p g g :=
  ⟨hg, ⟨fun h => ⟨fun hp' => absurd hp' hp, h⟩, And.right⟩⟩

theorem trans (h : Asks stop second p g g') (h' : Asks stop second q g' g'') :
    Asks stop second (p ∨ q) g g'' := by
  refine ⟨h'.ends, ?_⟩
  rw [h'.fits, h.fits, or_imp]
  tauto

theorem congr (h : Asks stop second p g g') (hpq : p ↔ q) : Asks stop second q g g' := by
  refine ⟨h.ends, ?_⟩
  rw [h.fits, hpq]

variable (hg : g.Stop stop) (hp : p) (f : GraphLinePair → GraphLinePair)
include hg hp

theorem tputWrites :
    Asks stop second p g { g with tputWrites := g.tputWrites.access second f } := by
  refine ⟨{ hg with tputWrites := hg.tputWrites }, fun h => ?_, fun h => ?_⟩
  · obtain ⟨hle, hfits⟩ := fits_access.mp h.tputWrites
    exact ⟨fun _ => hg.tputWrites ▸ hle, { h with tputWrites := hfits }⟩
  · exact { h.2 with tputWrites := fits_access.mpr ⟨hg.tputWrites ▸ h.1 hp, h.2.tputWrites⟩ }

theorem tputReads :
    Asks stop second p g { g with tputReads := g.tputReads.access second f } := by
  refine ⟨{ hg with tputReads := hg.tputReads }, fun h => ?_, fun h => ?_⟩
  · obtain ⟨hle, hfits⟩ := fits_access.mp h.tputReads
    exact ⟨fun _ => hg.tputReads ▸ hle, { h with tputReads := hfits }⟩
  · exact { h.2 with tputReads := fits_access.mpr ⟨hg.tputReads ▸ h.1 hp, h.2.tputReads⟩ }

theorem iop : Asks stop second p g { g with iop := g.iop.access second f } := by
  refine ⟨{ hg with iop := hg.iop }, fun h => ?_, fun h => ?_⟩
  · obtain ⟨hle, hfits⟩ := fits_access.mp h.iop
    exact ⟨fun _ => hg.iop ▸ hle, { h with iop := hfits }⟩
  · exact { h.2 with iop := fits_access.mpr ⟨hg.iop ▸ h.1 hp, h.2.iop⟩ }

theorem latency : Asks stop second p g { g with latency := g.latency.access second f } := by
  refine ⟨{ hg with latency := hg.latency }, fun h => ?_, fun h => ?_⟩
  · obtain ⟨hle, hfits⟩ := fits_access.mp h.latency
    exact ⟨fun _ => hg.latency ▸ hle, { h with latency := hfits }⟩
  · exact { h.2 with latency := fits_access.mpr ⟨hg.latency ▸ h.1 hp, h.2.latency⟩ }

theorem queueDepth :
    Asks stop second p g { g with queueDepth := g.queueDepth.access second f } := by
  refine ⟨{ hg with queueDepth := hg.queueDepth }, fun h => ?_, fun h => ?_⟩
  · obtain ⟨hle, hfits⟩ := fits_access.mp h.queueDepth
    exact ⟨fun _ => hg.queueDepth ▸ hle, { h with queueDepth := hfits }⟩
  · exact { h.2 with queueDepth := fits_access.mpr ⟨hg.queueDepth ▸ h.1 hp, h.2.queueDepth⟩ }

end Asks

variable {stop : UInt32} (found : Found) (io : BlkIoTrace)

/-- It is one of the records the throughput is of. -/
def Counted (found : Found) (io : BlkIoTrace) : Prop :=
  io.hasTc blkTcNotify = false ∧ BlkTa.ofAction io.action = some (tputEvent found)

theorem addTput_asks {g : Graphs} (hg : g.Stop stop) :
    Asks stop (ioSeconds io) (Counted found io) g (addTput found io g) := by
  unfold addTput
  dsimp only
  split_ifs with hnotify hact hread
  · exact .none hg fun h => Bool.noConfusion (h.1.symm.trans hnotify)
  · exact .none hg fun h => hact h.2
  · exact .tputReads hg ⟨Bool.eq_false_iff.mpr hnotify, not_not.mp hact⟩ _
  · exact .tputWrites hg ⟨Bool.eq_false_iff.mpr hnotify, not_not.mp hact⟩ _

theorem addIop_asks {g : Graphs} (hg : g.Stop stop) :
    Asks stop (ioSeconds io) (Counted found io) g (addIop found io g) := by
  unfold addIop
  split_ifs with hnotify hact
  · exact .none hg fun h => Bool.noConfusion (h.1.symm.trans hnotify)
  · exact .none hg fun h => hact h.2
  · exact .iop hg ⟨Bool.eq_false_iff.mpr hnotify, not_not.mp hact⟩ _

/-- An IO that is not pending can be inserted, so every dispatched one is found. -/
theorem hashDispatchedIo_isSome (table : List PendingIo) :
    (hashDispatchedIo table io).isSome := by
  unfold hashDispatchedIo
  rw [Option.isSome_map]
  cases hsearch : ioHashTableSearch table io.sector io.device with
  | some pio => rfl
  | none =>
    dsimp only
    rw [hashQueuedIo, ioHashTableInsert, hsearch]
    rfl

theorem addPendingIo_asks {s : Flight × Graphs} (hg : s.2.Stop stop) :
    Asks stop (ioSeconds io) (io.hasTc blkTcNotify = false ∧ BlkTa.ofAction io.action = some .issue)
      s.2 (addPendingIo found io s).2 := by
  unfold addPendingIo
  by_cases hnotify : io.hasTc blkTcNotify = true
  · rw [if_pos hnotify]
    exact .none hg fun h => Bool.noConfusion (h.1.symm.trans hnotify)
  rw [if_neg hnotify]
  rw [Bool.not_eq_true] at hnotify
  split
  case h_1 hact =>
    split_ifs
    · exact .none hg fun h => nomatch hact.symm.trans h.2
    · exact .none hg fun h => nomatch hact.symm.trans h.2
  case h_2 hact => exact .none hg fun h => nomatch hact.symm.trans h.2
  case h_3 hact =>
    obtain ⟨table, htable⟩ := Option.isSome_iff_exists.mp (hashDispatchedIo_isSome io s.1.ioHashTable)
    rw [htable]
    exact .queueDepth hg ⟨hnotify, hact⟩ _
  case h_4 hother => exact .none hg fun h => hother h.2

theorem addCompletedIo_asks {s : Flight × Graphs} (hg : s.2.Stop stop) :
    Asks stop (ioSeconds io)
      (io.hasTc blkTcNotify = false ∧ BlkTa.ofAction io.action = some .complete ∧
        (ioHashTableSearch s.1.ioHashTable io.sector io.device).isSome)
      s.2 (addCompletedIo io s).2 := by
  unfold addCompletedIo
  split_ifs with hnotify hact
  · exact .none hg fun h => Bool.noConfusion (h.1.symm.trans hnotify)
  · exact .none hg fun h => hact h.2.1
  rw [Bool.not_eq_true] at hnotify
  cases hsearch : ioHashTableSearch s.1.ioHashTable io.sector io.device with
  | none => exact .none hg fun h => nomatch h.2.2
  | some pio => exact .latency hg ⟨hnotify, not_not.mp hact, rfl⟩ _

/-- **A record** is asked a second for if it is charged. -/
theorem addRecord_asks {maxSeconds : UInt32} {s : Flight × Graphs} (hg : s.2.Stop stop)
    (hcomplete : io.hasTc blkTcNotify = false → BlkTa.ofAction io.action = some .complete →
      found.completion = true) :
    Asks stop (ioSeconds io) (seconds io.time ≤ maxSeconds.toUInt64 ∧ Charged found io) s.2
      (addRecord found maxSeconds s io).2 := by
  unfold addRecord
  split_ifs with hlate
  · exact .none hg fun h => absurd hlate (UInt64.not_lt.mpr h.1)
  have htput := addTput_asks found io hg
  have hiop := htput.trans (addIop_asks found io htput.ends)
  have hpending := hiop.trans (@addPendingIo_asks stop found io (s.1, _) hiop.ends)
  refine (hpending.trans (addCompletedIo_asks io hpending.ends)).congr ?_
  have hin : seconds io.time ≤ maxSeconds.toUInt64 := UInt64.not_lt.mp hlate
  constructor
  · rintro (((h | h) | h) | ⟨hnotify, hact, -⟩)
    · exact ⟨hin, h.1, .inl h.2⟩
    · exact ⟨hin, h.1, .inl h.2⟩
    · exact ⟨hin, h.1, .inr h.2⟩
    · refine ⟨hin, hnotify, .inl ?_⟩
      rw [tputEvent, if_pos (hcomplete hnotify hact)]
      exact hact
  · rintro ⟨-, hnotify, h | h⟩
    · exact .inl (.inl (.inl ⟨hnotify, h⟩))
    · exact .inl (.inr ⟨hnotify, h⟩)

end Blktrace.Iowatcher
