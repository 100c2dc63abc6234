import Blktrace.Blkparse.Procs

/-!
# `dump_trace`

What `dump_trace` does with the records handed to it, one after the other: it follows the IOs of a
device (`rb_track`), charges the CPU and the process, and calls `process_fmt`. Each such call is a
`Line`, with the record and the elapsed time it is given.

`rb_track` is a search tree by sector, so it is the map from sectors to tracks that it represents.
`malloc` is what the memory of each new track holds: `find_track` sets its `ppm` and `sector`
only. The sector is the key of the map.
-/

namespace Blktrace.Blkparse

/-- `struct io_track`, with the pid of its `ppm`. -/
structure IoTrack where
  ppm : UInt32
  allocationTime : UInt64
  queueTime : UInt64
  dispatchTime : UInt64
  completionTime : UInt64
deriving DecidableEq

/-- The `act` strings of `process_fmt`. -/
inductive Act
  | Q | I | M | F | G | S | R | D | C | P | U | UT | X | B | A
deriving DecidableEq, Repr

/-- A call of `process_fmt`. -/
structure Line where
  act : Act
  bit : BlkIoTrace
  elapsed : UInt64
deriving DecidableEq

/-- What `dump_trace` keeps in `struct per_dev_info`. -/
structure DevStats where
  rbTrack : UInt64 → Option IoTrack := fun _ => none
  curDepth : Bool → UInt32 := fun _ => 0
  maxDepth : Bool → UInt32 := fun _ => 0
  events : Nat := 0
  firstReportedTime : UInt64 := 0

/-- The state behind `dump_trace`: the process tables, the devices and the CPUs by slot, and the
number of tracks allocated. -/
structure Dumper where
  procs : Procs := {}
  devs : Nat → DevStats := fun _ => {}
  cpus : Nat → UInt32 → IoStats := fun _ _ => .zero
  mallocs : Nat := 0
  lines : List Line := []

/-- `-1ULL`. -/
def noElapsed : UInt64 := 0xffffffffffffffff

namespace Dumper

def modifyDev (d : Dumper) (pdi : Nat) (f : DevStats → DevStats) : Dumper :=
  { d with devs := Function.update d.devs pdi (f (d.devs pdi)) }

/-- `process_fmt`. -/
def processFmt (d : Dumper) (act : Act) (t : BlkIoTrace) (elapsed : UInt64) : Dumper :=
  { d with lines := d.lines ++ [⟨act, t, elapsed⟩] }

/-! ## The tree of tracks -/

/-- `track_rb_insert`. A track whose sector is taken stays out of the tree ("sector alias"). -/
def trackRbInsert (tree : UInt64 → Option IoTrack) (sector : UInt64) (iot : IoTrack) :
    UInt64 → Option IoTrack :=
  match tree sector with
  | some _ => tree
  | none => Function.update tree sector (some iot)

/-- `__find_track`. -/
def findTrack' (d : Dumper) (pdi : Nat) (sector : UInt64) : Option IoTrack :=
  (d.devs pdi).rbTrack sector

def setTrack (d : Dumper) (pdi : Nat) (sector : UInt64) (iot : IoTrack) : Dumper :=
  d.modifyDev pdi fun dev => { dev with rbTrack := Function.update dev.rbTrack sector (some iot) }

/-- `rb_erase`. -/
def eraseTrack (d : Dumper) (pdi : Nat) (sector : UInt64) : Dumper :=
  d.modifyDev pdi fun dev => { dev with rbTrack := Function.update dev.rbTrack sector none }

/-- `find_track`. -/
def findTrack (malloc : Nat → IoTrack) (d : Dumper) (pdi : Nat) (pid : UInt32) (sector : UInt64) :
    Dumper × IoTrack :=
  match d.findTrack' pdi sector with
  | some iot => (d, iot)
  | none =>
    let (procs, ppm) := d.procs.ppmOf pid
    let iot := { malloc d.mallocs with ppm := ppm.pid }
    ({ d with procs, mallocs := d.mallocs + 1 }.modifyDev pdi fun dev =>
      { dev with rbTrack := trackRbInsert dev.rbTrack sector iot }, iot)

/-- `is_remapper` of a `pdi->dev`. -/
def isRemapper (dev : UInt32) : Bool := (dev >>> 20) == 253 || (dev >>> 20) == 9

section Track

variable (o : Opts) (malloc : Nat → IoTrack) (d : Dumper) (pdi : Nat) (t : BlkIoTrace)

/-- `log_track_frontmerge`. -/
def logTrackFrontmerge : Dumper :=
  if !o.trackIos then d
  else
    match d.findTrack' pdi (t.sector + t.tSec.toUInt64) with
    | none => d
    | some iot =>
      let sector := t.sector + t.tSec.toUInt64
      (d.eraseTrack pdi sector).modifyDev pdi fun dev =>
        { dev with rbTrack := trackRbInsert dev.rbTrack (sector - t.tSec.toUInt64) iot }

/-- `log_track_getrq`. -/
def logTrackGetrq : Dumper :=
  if !o.trackIos then d
  else
    let (d, iot) := d.findTrack malloc pdi t.pid t.sector
    d.setTrack pdi t.sector { iot with allocationTime := t.time }

/-- `log_track_queue`, with the `pdi->dev` it looks at. -/
def logTrackQueue (dev : UInt32) : Dumper :=
  if !o.trackIos then d
  else if !isRemapper dev then d
  else
    let (d, iot) := d.findTrack malloc pdi t.pid t.sector
    d.setTrack pdi t.sector { iot with dispatchTime := t.time }

/-- The `if (per_process_stats)` of the three functions below. -/
def trackWait (ppm : UInt32) (kind : Wait) (elapsed : UInt64) : Dumper :=
  if o.perProcessStats then
    { d with procs := d.procs.wait o ppm kind (t.hasTc blkTcWrite) elapsed }
  else d

/-- `log_track_insert`, with the time it returns. -/
def logTrackInsert : Dumper × UInt64 :=
  if !o.trackIos then (d, noElapsed)
  else
    let (d, iot) := d.findTrack malloc pdi t.pid t.sector
    let d := d.setTrack pdi t.sector { iot with queueTime := t.time }
    if iot.allocationTime = 0 then (d, noElapsed)
    else
      let elapsed := t.time - iot.allocationTime
      (d.trackWait o t iot.ppm .allocation elapsed, elapsed)

/-- `log_track_issue`. -/
def logTrackIssue : Dumper × UInt64 :=
  if !o.trackIos then (d, noElapsed)
  else if !t.hasTc blkTcFs then (d, noElapsed)
  else
    match d.findTrack' pdi t.sector with
    | none => (d, noElapsed)
    | some iot =>
      let d := d.setTrack pdi t.sector { iot with dispatchTime := t.time }
      let elapsed := t.time - iot.queueTime
      (d.trackWait o t iot.ppm .dispatch elapsed, elapsed)

/-- `log_track_complete`. The track is freed, and its `completion_time` with it. -/
def logTrackComplete : Dumper × UInt64 :=
  if !o.trackIos then (d, noElapsed)
  else
    match d.findTrack' pdi t.sector with
    | none => (d, noElapsed)
    | some iot =>
      let elapsed := t.time - iot.dispatchTime
      ((d.trackWait o t iot.ppm .completion elapsed).eraseTrack pdi t.sector, elapsed)

end Track

/-! ## The statistics

`account o d pdi cpu t f` is the common body of the `account_*` functions: `f`, the function with
the underscores, on the CPU and then on the process. -/

def account (o : Opts) (d : Dumper) (pdi : Nat) (cpu : UInt32) (t : BlkIoTrace)
    (f : IoStats → IoStats) : Dumper :=
  let d := { d with
    cpus := Function.update d.cpus pdi (Function.update (d.cpus pdi) cpu (f (d.cpus pdi cpu))) }
  if o.perProcessStats then { d with procs := d.procs.charge o t f } else d

section Account

variable (o : Opts) (d : Dumper) (pdi : Nat) (cpu : UInt32) (t : BlkIoTrace) (rw : Bool)

def accountM : Dumper := d.account o pdi cpu t (·.accountM t rw)
def accountPcQueue : Dumper := d.account o pdi cpu t (·.accountPcQueue t rw)
def accountPcIssue : Dumper := d.account o pdi cpu t (·.accountPcIssue rw t.bytes)
def accountPcRequeue : Dumper := d.account o pdi cpu t (·.accountPcRequeue t rw)
def accountPcC : Dumper := d.account o pdi cpu t (·.accountPcC rw)
def accountQueue : Dumper := d.account o pdi cpu t (·.accountQueue t rw)
def accountC (bytes : Int32) : Dumper := d.account o pdi cpu t (·.accountC rw bytes)
def accountIssue : Dumper := d.account o pdi cpu t (·.accountIssue rw t.bytes)
def accountUnplug (timer : Bool) : Dumper := d.account o pdi cpu t (·.accountUnplug timer)
def accountRequeue : Dumper := d.account o pdi cpu t (·.accountRequeue t rw)

end Account

/-! ## The dispatch -/

/-- `if (pdi->cur_depth[w]) pdi->cur_depth[w]--`. -/
def depthDown (d : Dumper) (pdi : Nat) (w : Bool) : Dumper :=
  if (d.devs pdi).curDepth w ≠ 0 then
    d.modifyDev pdi fun dev =>
      { dev with curDepth := Function.update dev.curDepth w (dev.curDepth w - 1) }
  else d

/-- `pdi->cur_depth[w]++`, and `max_depth` with it. -/
def depthUp (d : Dumper) (pdi : Nat) (w : Bool) : Dumper :=
  d.modifyDev pdi fun dev =>
    let cur := dev.curDepth w + 1
    { dev with
      curDepth := Function.update dev.curDepth w cur
      maxDepth := if dev.maxDepth w < cur then Function.update dev.maxDepth w cur
        else dev.maxDepth }

/-- `log_merge`. -/
def logMerge (o : Opts) (d : Dumper) (pdi : Nat) (t : BlkIoTrace) (act : Act) : Dumper :=
  let d := if act = .F then d.logTrackFrontmerge o pdi t else d
  d.processFmt act t noElapsed

/-- `dump_trace_pc`. `log_generic`, `log_pc` and their like are `process_fmt` with no elapsed
time; a bad action is a message on stderr. -/
def dumpTracePc (o : Opts) (d : Dumper) (pdi : Nat) (cpu : UInt32) (t : BlkIoTrace) : Dumper :=
  let w := t.hasTc blkTcWrite
  match BlkTa.ofAction t.action with
  | some .queue => (d.processFmt .Q t noElapsed).accountPcQueue o pdi cpu t w
  | some .getrq => d.processFmt .G t noElapsed
  | some .sleeprq => d.processFmt .S t noElapsed
  | some .requeue =>
    ((d.depthDown pdi w).accountPcRequeue o pdi cpu t w).processFmt .R t noElapsed
  | some .issue =>
    ((d.accountPcIssue o pdi cpu t w).depthUp pdi w).processFmt .D t noElapsed
  | some .complete =>
    ((d.depthDown pdi w).processFmt .C t noElapsed).accountPcC o pdi cpu t w
  | some .insert => d.processFmt .I t noElapsed
  | _ => d

/-- `dump_trace_fs`. -/
def dumpTraceFs (o : Opts) (malloc : Nat → IoTrack) (d : Dumper) (pdi : Nat) (dev cpu : UInt32)
    (t : BlkIoTrace) : Dumper :=
  let w := t.hasTc blkTcWrite
  match BlkTa.ofAction t.action with
  | some .queue =>
    ((d.logTrackQueue o malloc pdi t dev).accountQueue o pdi cpu t w).processFmt .Q t noElapsed
  | some .insert =>
    let (d, elapsed) := d.logTrackInsert o malloc pdi t
    d.processFmt .I t elapsed
  | some .backmerge => (d.accountM o pdi cpu t w).logMerge o pdi t .M
  | some .frontmerge => (d.accountM o pdi cpu t w).logMerge o pdi t .F
  | some .getrq => (d.logTrackGetrq o malloc pdi t).processFmt .G t noElapsed
  | some .sleeprq => d.processFmt .S t noElapsed
  | some .requeue =>
    ((d.depthDown pdi w).accountRequeue o pdi cpu t w).processFmt .R t noElapsed
  | some .issue =>
    let d := (d.accountIssue o pdi cpu t w).depthUp pdi w
    let (d, elapsed) := d.logTrackIssue o pdi t
    d.processFmt .D t elapsed
  | some .complete =>
    let d := (d.depthDown pdi w).accountC o pdi cpu t w t.bytes.toInt32
    let (d, elapsed) := d.logTrackComplete o pdi t
    d.processFmt .C t elapsed
  | some .plug => d.processFmt .P t noElapsed
  | some .unplugIo => (d.accountUnplug o pdi cpu t false).processFmt .U t noElapsed
  | some .unplugTimer => (d.accountUnplug o pdi cpu t true).processFmt .UT t noElapsed
  | some .split => d.processFmt .X t noElapsed
  | some .bounce => d.processFmt .B t noElapsed
  | some .remap => d.processFmt .A t noElapsed
  | _ => d

/-- The choice `dump_trace` makes between its handlers: a message is only printed. -/
def dumpText (o : Opts) (malloc : Nat → IoTrack) (d : Dumper) (pdi : Nat) (dev cpu : UInt32)
    (t : BlkIoTrace) : Dumper :=
  if t.isMessage then d
  else if t.hasTc blkTcPc then d.dumpTracePc o pdi cpu t
  else d.dumpTraceFs o malloc pdi dev cpu t

/-- `dump_trace` with text output, up to the binary dump. -/
def dumpTrace (o : Opts) (malloc : Nat → IoTrack) (d : Dumper) (pdi : Nat) (dev cpu : UInt32)
    (t : BlkIoTrace) : Dumper :=
  (d.dumpText o malloc pdi dev cpu t).modifyDev pdi fun s =>
    { s with
      firstReportedTime := if s.events = 0 then t.time else s.firstReportedTime
      events := s.events + 1 }

/-! ## A run -/

/-- What a call out of a reader does. -/
def event (o : Opts) (malloc : Nat → IoTrack) (d : Dumper) : Event → Dumper
  | .notify _ bit => { d with procs := d.procs.notify bit }
  | .dump pdi dev cpu bit => d.dumpTrace o malloc pdi dev cpu bit

def run (o : Opts) (malloc : Nat → IoTrack) (d : Dumper) (events : List Event) : Dumper :=
  events.foldl (event o malloc) d

end Dumper

end Blktrace.Blkparse
