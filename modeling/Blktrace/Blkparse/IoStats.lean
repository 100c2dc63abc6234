import Blktrace.Api

/-!
# `struct io_stats` and the `__account_*` functions

All counters are 64-bit words, so a structure of them is a function from their names. Each
function adds to three counters or subtracts from them, the one for reads or the one for writes.
-/

namespace Blktrace.Blkparse

/-- The members of `struct io_stats`. -/
inductive Counter
  | qreads | qwrites | creads | cwrites | mreads | mwrites
  | ireads | iwrites | rrqueue | wrqueue
  | qreadKb | qwriteKb | creadKb | cwriteKb
  | qreadB | qwriteB | creadB | cwriteB
  | ireadKb | iwriteKb
  | mreadKb | mwriteKb
  | mreadB | mwriteB | ireadB | iwriteB
  | qreadsPc | qwritesPc | ireadsPc | iwritesPc
  | rrqueuePc | wrqueuePc | creadsPc | cwritesPc
  | qreadKbPc | qwriteKbPc | ireadKbPc | iwriteKbPc
  | qreadBPc | qwriteBPc | ireadBPc | iwriteBPc
  | ioUnplugs | timerUnplugs
deriving DecidableEq

abbrev IoStats := Counter → UInt64

namespace IoStats

/-- `memset` of the structure. -/
def zero : IoStats := fun _ => 0

/-- `ios->c += n`. -/
def add (ios : IoStats) (c : Counter) (n : UInt64) : IoStats := Function.update ios c (ios c + n)

/-- `ios->c -= n`. -/
def sub (ios : IoStats) (c : Counter) (n : UInt64) : IoStats := Function.update ios c (ios c - n)

variable (ios : IoStats) (t : BlkIoTrace) (rw : Bool)

/-- `__account_m`. -/
def accountM : IoStats :=
  if rw then
    ((ios.add .mwrites 1).add .mwriteKb t.tKb.toUInt64).add .mwriteB t.tB.toUInt64
  else
    ((ios.add .mreads 1).add .mreadKb t.tKb.toUInt64).add .mreadB t.tB.toUInt64

/-- `__account_pc_queue`. -/
def accountPcQueue : IoStats :=
  if rw then
    ((ios.add .qwritesPc 1).add .qwriteKbPc t.tKb.toUInt64).add .qwriteBPc t.tB.toUInt64
  else
    -- `qread_kb`, not `qread_kb_pc`
    ((ios.add .qreadsPc 1).add .qreadKb t.tKb.toUInt64).add .qreadBPc t.tB.toUInt64

/-- `__account_pc_issue`. -/
def accountPcIssue (bytes : UInt32) : IoStats :=
  if rw then
    ((ios.add .iwritesPc 1).add .iwriteKbPc (bytes >>> 10).toUInt64).add .iwriteBPc
      (bytes &&& 1023).toUInt64
  else
    ((ios.add .ireadsPc 1).add .ireadKbPc (bytes >>> 10).toUInt64).add .ireadBPc
      (bytes &&& 1023).toUInt64

/-- `__account_pc_requeue`. -/
def accountPcRequeue : IoStats :=
  if rw then
    ((ios.add .wrqueuePc 1).sub .iwriteKbPc t.tKb.toUInt64).sub .iwriteBPc t.tB.toUInt64
  else
    ((ios.add .rrqueuePc 1).sub .ireadKbPc t.tKb.toUInt64).sub .ireadBPc t.tB.toUInt64

/-- `__account_pc_c`. -/
def accountPcC : IoStats := if rw then ios.add .cwritesPc 1 else ios.add .creadsPc 1

/-- `__account_queue`. -/
def accountQueue : IoStats :=
  if rw then
    ((ios.add .qwrites 1).add .qwriteKb t.tKb.toUInt64).add .qwriteB t.tB.toUInt64
  else
    ((ios.add .qreads 1).add .qreadKb t.tKb.toUInt64).add .qreadB t.tB.toUInt64

/-- `__account_c`. Its `bytes` is an `int`: the shift keeps the sign, and so does the conversion
to `unsigned long long`. -/
def accountC (bytes : Int32) : IoStats :=
  if rw then
    ((ios.add .cwrites 1).add .cwriteKb (bytes >>> 10).toInt64.toUInt64).add .cwriteB
      (bytes &&& 1023).toInt64.toUInt64
  else
    ((ios.add .creads 1).add .creadKb (bytes >>> 10).toInt64.toUInt64).add .creadB
      (bytes &&& 1023).toInt64.toUInt64

/-- `__account_issue`. -/
def accountIssue (bytes : UInt32) : IoStats :=
  if rw then
    ((ios.add .iwrites 1).add .iwriteKb (bytes >>> 10).toUInt64).add .iwriteB
      (bytes &&& 1023).toUInt64
  else
    ((ios.add .ireads 1).add .ireadKb (bytes >>> 10).toUInt64).add .ireadB
      (bytes &&& 1023).toUInt64

/-- `__account_unplug`. -/
def accountUnplug (timer : Bool) : IoStats :=
  if timer then ios.add .timerUnplugs 1 else ios.add .ioUnplugs 1

/-- `__account_requeue`. -/
def accountRequeue : IoStats :=
  if rw then
    ((ios.add .wrqueue 1).sub .iwriteKb t.tKb.toUInt64).sub .iwriteB t.tB.toUInt64
  else
    ((ios.add .rrqueue 1).sub .ireadKb t.tKb.toUInt64).sub .ireadB t.tB.toUInt64

end IoStats

end Blktrace.Blkparse
