import Blktrace.Btt.Devs
import Blktrace.Btt.TimeWindow
import Blktrace.Lib.Bytes

/-!
# `btt`: what a record does

`trace.c` and the handlers it calls. What they hand over to be averaged or counted is a list, `samples`;
the files that `btt` writes on the way are left out.

A payload that is too short for the words that are read from it makes the outcome undefined, `none`.
-/

namespace Blktrace.Btt

open SearchTree

/-- `remapper_dev`. -/
def remapperDev (device : UInt32) : Bool :=
  let mjr := device >>> 20
  mjr == 9 || mjr == 253 || mjr == 254

/-- `tdelta`. -/
def tdelta (start stop : UInt64) : UInt64 := if start < stop then stop - start else 1

/-- `IOP_RW`. -/
def Iop.rw (iop : Iop) : Bool := iop.t.hasTc 0x1

/-- The average that the times from Q to C go to. -/
def q2cAvg (device : UInt32) : Avg := if remapperDev device then .q2cDm else .q2c

/-! ## Averages

`avg_update`, over all that was handed over. -/

/-- `struct avg_info`. -/
structure AvgInfo where
  min : UInt64 := 0
  max : UInt64 := 0
  total : UInt64 := 0
  n : ℕ := 0
deriving DecidableEq

/-- `avg_update`. -/
def avgUpdate (ap : AvgInfo) (t : UInt64) : AvgInfo :=
  if ap.n = 0 then ⟨t, t, t, 1⟩
  else
    { min := if t < ap.min then t else ap.min
      max := if ¬ t < ap.min ∧ ap.max < t then t else ap.max
      total := ap.total + t
      n := ap.n + 1 }

namespace State

variable (s : State)

/-- The values that a report got, for a device. -/
def values (r : Report) (device : UInt32) : List UInt64 :=
  (s.samples.filter fun x => x.report = r ∧ x.device = device).map Sample.value

/-- The average of a device, `dip->avgs`. -/
def dipAvgs (device : UInt32) (a : Avg) : AvgInfo := (s.values (.avg a) device).foldl avgUpdate {}

/-- The same over all devices, `all_avgs`. -/
def allAvgs (a : Avg) : AvgInfo :=
  ((s.samples.filter fun x => x.report = .avg a).map Sample.value).foldl avgUpdate {}

/-- `update_q2c`. -/
def updateQ2c (iop : Iop) (cTime : UInt64) : State :=
  s.report (.avg (q2cAvg iop.t.device)) iop.t.device cTime

/-- `update_q2a`. -/
def updateQ2a (iop : Iop) (aTime : UInt64) : State :=
  s.report (.avg (if remapperDev iop.t.device then .q2aDm else .q2a)) iop.t.device aTime

/-! ## `iostat.c` -/

/-- `iostat_getrq`. -/
def iostatGetrq (iop : Iop) : State :=
  s.modifyDip iop.t.device fun p => { p with stats.curQusz := p.stats.curQusz + 1 }

/-- `iostat_merge`. -/
def iostatMerge (iop : Iop) : State :=
  s.modifyDip iop.t.device fun p =>
    { p with stats.rqm := Function.update p.stats.rqm iop.rw (p.stats.rqm iop.rw + 1) }

/-- `iostat_issue`. -/
def iostatIssue (iop : Iop) : State :=
  s.modifyDip iop.t.device fun p =>
    { p with
      stats.ios := Function.update p.stats.ios iop.rw (p.stats.ios iop.rw + 1)
      stats.sec := Function.update p.stats.sec iop.rw (p.stats.sec iop.rw + iop.t.tSec.toUInt64)
      stats.curDev := p.stats.curDev + 1 }

/-- `iostat_complete`. -/
def iostatComplete (q c : Iop) : State :=
  let times := s.times q.id
  let wait :=
    if times.iTime ≠ noTime then tdelta times.iTime c.t.time
    else if times.mTime ≠ noTime then tdelta times.mTime c.t.time
    else 0
  let s := s.modifyDip c.t.device fun p => { p with stats.wait := p.stats.wait + wait }
  s.modifyDip q.t.device fun p =>
    { p with
      stats.curQusz := p.stats.curQusz - 1
      stats.curDev := p.stats.curDev - 1
      stats.svctm := p.stats.svctm + tdelta q.t.time c.t.time }

/-! ## `trace_queue.c`, `trace_requeue.c` -/

/-- `update_lq`: a time goes to the average of the times between queued records. -/
def updateLq (r : Report) (iop : Iop) (lastQ : UInt64) : State :=
  if lastQ = noTime then s
  else s.report r iop.t.device (if lastQ < iop.t.time then iop.t.time - lastQ else 1)

/-- `dip_update_q`. -/
def dipUpdateQ (iop : Iop) : State :=
  let a := if remapperDev iop.t.device then .q2qDm else .q2q
  let s := s.updateLq (.dipAvg a) iop (s.dip iop.t.device).lastQ
  s.modifyDip iop.t.device fun p => { p with lastQ := iop.t.time }

/-- What a record adds to the active ones when it is queued. -/
def activate (iop : Iop) : State :=
  s.modifyDip iop.t.device fun p =>
    { p with nQs := p.nQs + 1, tActQ := p.tActQ + p.nActQ, nActQ := p.nActQ + 1 }

/-- And takes from them when it is merged or issued. -/
def deactivate (iop : Iop) : State :=
  s.modifyDip iop.t.device fun p => { p with nActQ := if p.nActQ ≠ 0 then p.nActQ - 1 else p.nActQ }

/-- `handle_queue`. -/
def handleQueue (q : Iop) : State :=
  let s := s.dipUpdateQ q
  let s := if remapperDev q.t.device then s.updateLq (.allAvg .q2qDm) q s.lastQ
    else (s.report .qHisto q.t.device q.t.bytes.toUInt64).updateLq (.allAvg .q2q) q s.lastQ
  let s := { s with lastQ := q.t.time }
  let s := s.modifyTimes q.id fun x =>
    { x with iTime := noTime, gTime := noTime, mTime := noTime, dTime := noTime }
  s.activate q

/-- `handle_requeue`. -/
def handleRequeue (r : Iop) : State := s.activate r

/-! ## `trace_im.c` -/

/-- `handle_g`. -/
def handleG (g : Iop) : State :=
  let s := s.iostatGetrq g
  match s.dipFindSec g.t.device .q g.t.sector with
  | none => s
  | some q =>
    let s := s.modifyTimes q.id fun x => { x with gTime := g.t.time }
    let s := s.report (.avg .q2g) q.t.device (tdelta q.t.time g.t.time)
    if (s.times q.id).sTime ≠ 0 then
      s.report (.avg .s2g) q.t.device (tdelta (s.times q.id).sTime g.t.time)
    else s

/-- `handle_s`. -/
def handleS (x : Iop) : State :=
  match s.dipFindSec x.t.device .q x.t.sector with
  | none => s
  | some q => s.modifyTimes q.id fun times => { times with sTime := x.t.time }

/-- `handle_i`. -/
def handleI (i : Iop) : State :=
  match s.dipFindSec i.t.device .q i.t.sector with
  | none => s
  | some q =>
    let s := s.modifyTimes q.id fun x => { x with iTime := i.t.time }
    if (s.times q.id).gTime ≠ noTime then
      s.report (.avg .g2i) q.t.device (tdelta (s.times q.id).gTime i.t.time)
    else s

/-- `handle_m`. -/
def handleM (m : Iop) : State :=
  let s := s.iostatMerge m
  let s :=
    match s.dipFindSec m.t.device .q m.t.sector with
    | none => s
    | some q =>
      let s := s.modifyTimes q.id fun x => { x with mTime := m.t.time }
      s.report (.avg .q2m) q.t.device (tdelta q.t.time m.t.time)
  s.deactivate m

/-! ## `trace_issue.c` -/

/-- One round of the loop in `handle_issue`. -/
def issueOne (outputAllData : Bool) (d : Iop) (s : State) (q : Iop) : State :=
  let times := s.times q.id
  let s :=
    if times.iTime ≠ noTime then s.report (.avg .i2d) q.t.device (tdelta times.iTime d.t.time)
    else if times.mTime ≠ noTime then s.report (.avg .m2d) q.t.device (tdelta times.mTime d.t.time)
    else s
  let s := s.modifyTimes q.id fun x => { x with dTime := d.t.time }
  let s := if outputAllData then s.report .q2dHisto q.t.device (d.t.time - q.t.time) else s
  s.report .latencyQ2d q.t.device (d.t.time - q.t.time)

/-- `handle_issue`. -/
def handleIssue (outputAllData : Bool) (d : Iop) : State :=
  let s := s.deactivate d
  let s := s.iostatIssue d
  let s := s.modifyDip d.t.device fun p => { p with nDs := p.nDs + 1 }
  let s := if remapperDev d.t.device then s else s.report .dHisto d.t.device d.t.bytes.toUInt64
  (s.dipForeachList d .q).foldl (issueOne outputAllData d) s

/-! ## `trace_complete.c` -/

/-- What `handle_complete` hands over and counts for one of the queued records. -/
def completed (c : Iop) (s : State) (q : Iop) : State :=
  let q2c := tdelta q.t.time c.t.time
  let s := s.updateQ2c q q2c
  let s := s.report .latencyQ2c q.t.device q2c
  if (s.times q.id).dTime ≠ noTime then
    let d2c := tdelta (s.times q.id).dTime c.t.time
    let s := s.report (.avg .d2c) q.t.device d2c
    let s := s.report .latencyD2c q.t.device d2c
    s.iostatComplete q c
  else s

end State

section

variable (bal : Balancer Iop)

/-- `handle_complete`. -/
def State.handleComplete (s : State) (c : Iop) : State :=
  let s := s.report (.avg .blks) c.t.device c.t.tSec.toUInt64
  (s.dipForeachList c .q).foldl (fun s q => (State.completed c s q).ioRelease bal q) s

/-! ## The handlers -/

namespace State

variable (s : State) (iop : Iop)

/-- `trace_queue`: a record that is linked stays. -/
def traceQueue : State :=
  if iop.t.bytes = 0 then s
  else
    let s := s.ioSetup bal iop .q
    if s.isLinked iop then s.handleQueue iop else s.ioRelease bal iop

/-- `io_setup`, what is done with a record that is linked, and `io_release`. -/
def traceWith (type : IopType) (handle : State → Iop → State) : State :=
  let s := s.ioSetup bal iop type
  let s := if s.isLinked iop then handle s iop else s
  s.ioRelease bal iop

def traceRequeue : State := s.traceWith bal iop .r handleRequeue

def traceGetrq : State := if iop.t.bytes = 0 then s else s.traceWith bal iop .g handleG

def traceSleeprq : State := if iop.t.bytes = 0 then s else s.traceWith bal iop .s handleS

def traceInsert : State := if iop.t.bytes = 0 then s else s.traceWith bal iop .i handleI

def traceMerge : State := if iop.t.bytes = 0 then s else s.traceWith bal iop .m handleM

def traceIssue (outputAllData : Bool) : State :=
  if iop.t.bytes = 0 then s else s.traceWith bal iop .d fun s d => s.handleIssue outputAllData d

def traceComplete : State :=
  if iop.t.bytes = 0 then s else s.traceWith bal iop .c fun s c => s.handleComplete bal c

/-- What `trace_remap` does with a record that is linked: the device it comes from must be there. -/
def handleRemap (deviceFrom : UInt32) (sectorFrom : UInt64) (s : State) (a : Iop) : State :=
  match s.dips deviceFrom with
  | none => s
  | some _ =>
    match s.dipFindSec deviceFrom .q sectorFrom with
    | none => s
    | some q => s.updateQ2a q (tdelta q.t.time a.t.time)

/-- `trace_remap`: `device_from`, `device_to` and `sector_from` lie in the payload. -/
def traceRemap (ignoreRemaps : Bool) : Option State :=
  if ignoreRemaps then some (s.ioRelease bal iop)
  else if iop.t.pdu.length < 16 then none
  else
    some (s.traceWith bal iop .a
      (handleRemap ((Bytes.u32 true).load iop.t.pdu) ((Bytes.u64 true).load (iop.t.pdu.drop 8))))

/-- `get_nio_up`. -/
def getNioUp : Option UInt64 :=
  if iop.t.pdu.length < 8 then none else some ((Bytes.u64 true).load iop.t.pdu)

/-- `unplug_hist_add`, for a device that is there. -/
def unplugHistAdd (nios : UInt64) : State :=
  match s.dips iop.t.device with
  | none => s
  | some _ => s.report .unplugHist iop.t.device nios

def traceUnplugIo : Option State :=
  (getNioUp iop).map fun nios =>
    ((s.unplugHistAdd iop nios).dipUnplug iop.t.device nios).ioRelease bal iop

def traceUnplugTimer : Option State :=
  (getNioUp iop).map fun nios => (s.dipUnplugTm iop.t.device nios).ioRelease bal iop

def tracePlug : State := (s.dipPlug iop.t.device).ioRelease bal iop

/-- `trace_message`, less the message, and the `io_release` after it. -/
def traceMessage : State := (s.ioSetup bal iop .m).ioRelease bal iop

end State

/-! ## `trace.c` -/

/-- The options that `add_trace` and the handlers look at. -/
structure Options (τ : Type*) where
  bounds : Bounds τ
  ignoreRemaps : Bool
  outputAllData : Bool

variable {τ : Type*} (opts : Options τ)

namespace State

/-- `__add_trace`. -/
def analyse (s : State) (iop : Iop) : Option State :=
  match BlkTa.ofAction iop.t.action with
  | some .queue => some (s.traceQueue bal iop)
  | some .remap => s.traceRemap bal iop opts.ignoreRemaps
  | some .insert => some (s.traceInsert bal iop)
  | some .getrq => some (s.traceGetrq bal iop)
  | some .backmerge => some (s.traceMerge bal iop)
  | some .frontmerge => some (s.traceMerge bal iop)
  | some .requeue => some (s.traceRequeue bal iop)
  | some .issue => some (s.traceIssue bal iop opts.outputAllData)
  | some .complete => some (s.traceComplete bal iop)
  | some .plug => some (s.tracePlug bal iop)
  | some .unplugIo => s.traceUnplugIo bal iop
  | some .unplugTimer => s.traceUnplugTimer bal iop
  | some .sleeprq => some (s.traceSleeprq bal iop)
  | _ => some (s.ioRelease bal iop)

variable [LinearOrder τ] (clock : BitTime τ)

/-- `io_alloc` and `add_trace`. -/
def addTrace (s : State) (t : BlkIoTrace) : Option State :=
  let iop : Iop := ⟨s.ios, t⟩
  let s := { s with ios := s.ios + 1 }
  match Btt.addTrace clock opts.bounds t with
  | .analysed => s.analyse bal opts iop
  | _ => some (if t.isMessage then s.traceMessage bal iop else s.ioRelease bal iop)

/-- `add_trace` on one record after the other. -/
def addTraces (s : State) (ts : List BlkIoTrace) : Option State := ts.foldlM (addTrace bal opts clock) s

end State

end

end Blktrace.Btt
