import Blktrace.Blkparse.Clock
import Blktrace.Blkparse.Skips

/-!
# Reading from a pipe: `read_events` to `do_pipe`

Records of all devices and CPUs come in one stream, batch by batch. Each batch is put into the
tree `rb_sort_root` by time, and after each batch `show_entries_rb` takes out what it may. A tree
is known by its in-order list: `rb_first` is the head, and the descent of `trace_rb_insert` puts a
record behind its equals.

What is *not* determined by that list is `trace_rb_find`, which searches a tree ordered by time
for a sequence number; it is a parameter here, `find`. The pipe holds records and the moments
(`none`) at which nothing more is in it yet: a read that may block waits, the other kind returns.
`pipeline` is 1 in this mode and `is_done` is not modelled.
-/

namespace Blktrace.Blkparse

/-! ## The state -/

/-- `struct trace` in the sort tree. -/
structure Trace where
  bit : BlkIoTrace
  readSequence : UInt64
deriving DecidableEq

/-- `struct per_cpu_info`, as `resize_cpu_info` makes it. -/
structure PerCpuInfo where
  nelems : Nat := 0
  rbLast : List BlkIoTrace := []
  lastSequence : UInt64 := 0xffffffffffffffff
  smallestSeqRead : UInt64 := 0
  skips : List SkipInfo := []

/-- `struct per_dev_info`. A CPU not seen yet is as `resize_cpu_info` would make it. `nfiles` and
the CPU map are changed in file mode only. -/
structure PerDevInfo where
  dev : UInt32 := 0
  backwards : Bool := false
  lastReportedTime : UInt64 := 0
  nfiles : Nat := 0
  cpuMap : Nat → UInt64 := fun _ => 0
  cpuMapMax : Nat := 0
  cpus : UInt32 → PerCpuInfo := fun _ => {}

/-- One call of `sort_entries`, for the record: the raw records it got, the clock and the genesis
time before it, and the genesis time it used. -/
structure Batch where
  raw : List BlkIoTrace
  clock : Clock
  before : UInt64
  genesis : UInt64
deriving DecidableEq

/-- The state of pipe mode. `stored`, `batches` and `passes` are history variables: the records
put into the tree, the calls of `sort_entries`, and what each call of `show_entries_rb` took out,
with its `force`. -/
structure PipeState where
  native : Option Bool := none
  devices : List PerDevInfo := []
  traceList : List Trace := []
  rbSort : List Trace := []
  readSequence : UInt64 := 0
  genesisTime : UInt64 := 0
  clock : Clock := {}
  events : List Event := []
  stored : List BlkIoTrace := []
  batches : List Batch := []
  passes : List (Bool × List BlkIoTrace) := []

/-- `last_allowed_time`, from `do_pipe`. -/
def lastAllowedTime : UInt64 := 0xffffffffffffffff

/-- `get_dev_info`: the devices after it, and the slot it returns. A slot whose `dev` is 0 is
taken for unused. -/
def getDevInfo : List PerDevInfo → UInt32 → List PerDevInfo × Nat
  | [], dev => ([{ dev := dev }], 0)
  | pdi :: rest, dev =>
    let pdi := if pdi.dev = 0 then { pdi with dev := dev } else pdi
    if pdi.dev = dev then (pdi :: rest, 0)
    else ((pdi :: (getDevInfo rest dev).1), (getDevInfo rest dev).2 + 1)

def devAt (devices : List PerDevInfo) (i : Nat) : PerDevInfo := devices.getD i {}

/-- `if (!pdi || pdi->dev != bit->device) pdi = get_dev_info(bit->device)`. -/
def lookDev (devices : List PerDevInfo) (pdi : Option Nat) (dev : UInt32) :
    List PerDevInfo × Nat :=
  match pdi with
  | none => getDevInfo devices dev
  | some i => if (devAt devices i).dev ≠ dev then getDevInfo devices dev else (devices, i)

def PerDevInfo.setCpu (pdi : PerDevInfo) (cpu : UInt32) (pci : PerCpuInfo) : PerDevInfo :=
  { pdi with cpus := Function.update pdi.cpus cpu pci }

/-! ## The trees -/

/-- The comparisons of `trace_rb_insert` by which the descent goes left. -/
def goesLeft (bit other : BlkIoTrace) : Bool :=
  if bit.time < other.time then true
  else if bit.time > other.time then false
  else if bit.device < other.device then true
  else if bit.device > other.device then false
  else decide (bit.sequence < other.sequence)

/-- `trace_rb_insert` into `rb_sort_root`. -/
def traceRbInsert (t : Trace) : List Trace → List Trace
  | [] => [t]
  | other :: rest =>
    if goesLeft t.bit other.bit then t :: other :: rest else other :: traceRbInsert t rest

/-- `trace_rb_insert` into `rb_last`. -/
def traceRbInsertBit (bit : BlkIoTrace) : List BlkIoTrace → List BlkIoTrace
  | [] => [bit]
  | other :: rest =>
    if goesLeft bit other then bit :: other :: rest else other :: traceRbInsertBit bit rest

/-- `trace_rb_insert_last`: the oldest entry goes when there are more than `rb_batch` for each
file. -/
def traceRbInsertLast (o : Opts) (pdi : PerDevInfo) (bit : BlkIoTrace) : PerDevInfo :=
  let pci := pdi.cpus bit.cpu
  let rbLast := traceRbInsertBit bit pci.rbLast
  pdi.setCpu bit.cpu { pci with
    rbLast := if o.rbBatch * pdi.nfiles < rbLast.length then rbLast.tail else rbLast }

/-! ## `read_events` -/

def PipeState.notify (s : PipeState) (native : Bool) (bit : BlkIoTrace) : PipeState :=
  { s with clock := s.clock.notify native bit, events := s.events ++ [.notify native bit] }

/-- The loop of `read_events`: the state, the number of events and the rest of the pipe. A record
that does not start with the magic ends it. -/
def readEvents (o : Opts) : List (Option BlkIoTrace) → Nat → Option Nat → PipeState →
    PipeState × Nat × List (Option BlkIoTrace)
  | [], events, _, s => (s, events, [])
  | item :: rest, events, pdi, s =>
    if events < o.rbBatch then
      match item with
      | none => if events = 0 then readEvents o rest events pdi s else (s, events, rest)
      | some raw =>
        match lookNative s.native raw.magic with
        | none => (s, events, rest)
        | some b =>
          let s := { s with native := some b }
          if !checkMagic (getMagic b raw) then (s, events, rest)
          else
            let bit := traceToCpu b raw
            if verifyTrace bit then readEvents o rest events pdi s
            else if bit.isNotify then readEvents o rest events pdi (s.notify b bit)
            else
              let (devices, i) := lookDev s.devices pdi bit.device
              readEvents o rest (events + 1) (some i)
                { s with devices, traceList := ⟨bit, s.readSequence⟩ :: s.traceList }
    else (s, events, item :: rest)

/-! ## `sort_entries` -/

/-- The first half of `find_genesis`. -/
def minTime (ts : List Trace) : UInt64 :=
  ts.foldl (fun g t => if t.bit.time < g then t.bit.time else g) 0xffffffffffffffff

def findGenesis (s : PipeState) : PipeState :=
  { s with genesisTime := minTime s.traceList, clock := s.clock.findGenesis (minTime s.traceList) }

/-- `check_stopwatch`; `true` is the 1 by which a record is dropped. -/
def checkStopwatch (o : Opts) (bit : BlkIoTrace) : Bool :=
  !(decide (bit.time < o.stopwatchEnd) && decide (o.stopwatchStart ≤ bit.time))

/-- `if (bit->sequence < pci->smallest_seq_read) pci->smallest_seq_read = bit->sequence`. -/
def PerDevInfo.readSeq (pdi : PerDevInfo) (bit : BlkIoTrace) : PerDevInfo :=
  let pci := pdi.cpus bit.cpu
  if bit.sequence.toUInt64 < pci.smallestSeqRead then
    pdi.setCpu bit.cpu { pci with smallestSeqRead := bit.sequence.toUInt64 }
  else pdi

/-- The loop of `sort_entries`, with `youngest`. -/
def sortLoop (o : Opts) : List Trace → Option Nat → UInt64 → PipeState → PipeState × UInt64
  | [], _, youngest, s => ({ s with traceList := [] }, youngest)
  | t :: rest, pdi, youngest, s =>
    let bit := { t.bit with time := t.bit.time - s.genesisTime }
    let youngest := if bit.time < youngest || youngest == 0 then bit.time else youngest
    let (devices, i) := lookDev s.devices pdi bit.device
    let s := { s with devices := devices.set i ((devAt devices i).readSeq bit) }
    if checkStopwatch o bit then sortLoop o rest (some i) youngest s
    else
      sortLoop o rest (some i) youngest
        { s with
          rbSort := traceRbInsert ⟨bit, t.readSequence⟩ s.rbSort
          stored := s.stored ++ [bit] }

/-- `sort_entries`; its return of -1 for a failed insertion does not occur. -/
def sortEntries (o : Opts) (s : PipeState) : PipeState × UInt64 :=
  let s' := if s.genesisTime = 0 then findGenesis s else s
  sortLoop o s'.traceList none 0 { s' with
    batches := s'.batches ++
      [⟨s.traceList.map Trace.bit, s.clock, s.genesisTime, s'.genesisTime⟩] }

/-! ## `show_entries_rb` -/

/-- Word `i` of the `cpu_map` of `check_cpu_map`: the CPUs the tree has records of. -/
def treeCpuMap (rbSort : List Trace) (i : Nat) : UInt64 :=
  rbSort.foldl (fun map t =>
    if t.bit.cpu.toNat / 64 = i then map ||| ((1 : UInt64) <<< (t.bit.cpu.toUInt64 % 64)) else map) 0

/-- `check_cpu_map`: 1 if a CPU of the map has nothing in the tree. -/
def checkCpuMap (pdi : PerDevInfo) (rbSort : List Trace) : Bool :=
  (List.range (pdi.cpuMapMax / 64)).any fun i =>
    pdi.cpuMap i &&& ~~~(treeCpuMap rbSort i) != 0

/-- What `trace_rb_find` finds in the `rb_last` of a CPU, given the tree in order. -/
abbrev Find := List BlkIoTrace → UInt32 → UInt64 → Option BlkIoTrace

/-- The end of `check_sequence`, under `skip:`. -/
def skipTo (pci : PerCpuInfo) (expected seq : UInt64) : PerCpuInfo :=
  match checkCurrentSkips seq pci.skips with
  | some skips => { pci with skips := skips }
  | none => if expected < seq then { pci with skips := insertSkip expected (seq - 1) pci.skips } else pci

/-- `check_sequence` of the first record of the tree; `none` is its return of 1. -/
def checkSequence (find : Find) (pdi : PerDevInfo) (rbSort : List Trace) (bit : BlkIoTrace)
    (force : Bool) : Option PerDevInfo :=
  let pci := pdi.cpus bit.cpu
  let expected := pci.lastSequence + 1
  let seq := bit.sequence.toUInt64
  if expected = 0 then
    if bit.sequence = 1 then some pdi
    else if seq = pci.smallestSeqRead then some pdi
    else if checkCpuMap pdi rbSort then none else some pdi
  else if seq = expected then some pdi
  else if expected < pci.smallestSeqRead then
    match find pci.rbLast pdi.dev expected with
    | none => some (pdi.setCpu bit.cpu (skipTo pci expected seq))
    | some last =>
      -- `__put_trace_last`
      let pci := pdi.cpus last.cpu
      some (pdi.setCpu last.cpu { pci with rbLast := pci.rbLast.erase last })
  else if !force then none
  else some (pdi.setCpu bit.cpu (skipTo pci expected seq))

/-- `check_time`. -/
def PerDevInfo.checkTime (pdi : PerDevInfo) (bit : BlkIoTrace) : PerDevInfo :=
  { pdi with backwards := decide (bit.time < pdi.lastReportedTime), lastReportedTime := bit.time }

/-- What becomes of a record that is shown: `last_sequence`, `nelems`, `rb_last`. -/
def PerDevInfo.show (o : Opts) (pdi : PerDevInfo) (bit : BlkIoTrace) : PerDevInfo :=
  let pdi := pdi.checkTime bit
  let pci := pdi.cpus bit.cpu
  let pci := if bit.isMessage then pci else { pci with lastSequence := bit.sequence.toUInt64 }
  traceRbInsertLast o (pdi.setCpu bit.cpu { pci with nelems := pci.nelems + 1 }) bit

/-- The loop of `show_entries_rb` over the tree, with the records it takes out. -/
def showLoop (o : Opts) (find : Find) (force : Bool) : List Trace → Option Nat → PipeState →
    PipeState × List BlkIoTrace
  | [], _, s => ({ s with rbSort := [] }, [])
  | t :: rest, pdi, s =>
    if s.readSequence - t.readSequence < 1 && !force then ({ s with rbSort := t :: rest }, [])
    else
      let (devices, i) := lookDev s.devices pdi t.bit.device
      let pdi := devAt devices i
      match if t.bit.isMessage then some pdi
        else checkSequence find pdi (t :: rest) t.bit force with
      | none => ({ s with devices, rbSort := t :: rest }, [])
      | some pdi =>
        if !force && decide (lastAllowedTime < t.bit.time) then
          ({ s with devices := devices.set i pdi, rbSort := t :: rest }, [])
        else
          let r := showLoop o find force rest (some i) { s with
            devices := devices.set i (pdi.show o t.bit)
            events :=
              if o.masks t.bit then s.events ++ [.dump i pdi.dev t.bit.cpu t.bit] else s.events }
          (r.1, t.bit :: r.2)

/-- `show_entries_rb`. -/
def showEntriesRb (o : Opts) (find : Find) (force : Bool) (s : PipeState) : PipeState :=
  let r := showLoop o find force s.rbSort none s
  { r.1 with passes := s.passes ++ [(force, r.2)] }

/-! ## `do_pipe` -/

/-- The `while` of `do_pipe`, for at most `fuel` turns. -/
def pipeLoop (o : Opts) (find : Find) : Nat → List (Option BlkIoTrace) → PipeState → PipeState
  | 0, _, s => s
  | fuel + 1, input, s =>
    let (s, events, rest) := readEvents o input 0 none s
    if events = 0 then s
    else
      let (s, youngest) := sortEntries o { s with readSequence := s.readSequence + 1 }
      if o.stopwatchEnd < youngest then s
      else pipeLoop o find fuel rest (showEntriesRb o find false s)

/-- The devices named on the command line. -/
def PipeState.init (names : Nat) : PipeState := { devices := List.replicate names {} }

/-- `do_pipe`. Each turn of its loop reads at least one record. -/
def doPipe (o : Opts) (find : Find) (names : Nat) (input : List (Option BlkIoTrace)) : PipeState :=
  let s := pipeLoop o find (input.length + 1) input (.init names)
  if s.rbSort = [] then s else showEntriesRb o find true s

end Blktrace.Blkparse
