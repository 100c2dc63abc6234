import Blktrace.Api

/-!
# `blkparse.c`: the settings and the log of a run

`Opts` are the file-level variables that `main` sets from the command line and nothing changes
afterwards. `Event` is what the two readers do with a record beyond moving it: a notify handled
while reading, or a record handed to `dump_trace`. The readers never read back what those calls
change, so a run of a reader produces the list of them, and the state they build up (names,
clock, statistics, tracks) is a fold over that list.
-/

namespace Blktrace.Blkparse

/-- The command line, as `main` leaves it in the static variables. -/
structure Opts where
  rbBatch : Nat := 512
  actMask : UInt32 := 0xffffffff
  stopwatchStart : UInt64 := 0
  stopwatchEnd : UInt64 := 0xffffffffffffffff
  perProcessStats : Bool := false
  ppiHashByPid : Bool := true
  trackIos : Bool := false

/-- `bit->action & (act_mask << BLK_TC_SHIFT)`. -/
def Opts.masks (o : Opts) (bit : BlkIoTrace) : Bool :=
  (bit.action &&& (o.actMask <<< blkTcShift)) != 0

/-- A call out of a reader. `native` is `data_is_native` when the notify is handled; `pdi` is the
slot of the device in `devices` and `dev` its `pdi->dev`. -/
inductive Event
  | notify (native : Bool) (bit : BlkIoTrace)
  | dump (pdi : Nat) (dev : UInt32) (cpu : UInt32) (bit : BlkIoTrace)
deriving DecidableEq

/-- `data_is_native` after a look at a record's magic; `none` where it settles
nothing. -/
def lookNative (native : Option Bool) (magic : UInt32) : Option Bool :=
  match native with
  | some b => some b
  | none => checkDataEndianness magic

/-- A queue record of the file system, as a host writes it for itself: what the small runs below
are made of. -/
def queueRecord (device cpu sequence : UInt32) (time : UInt64) : BlkIoTrace where
  magic := 0x65617407
  sequence := sequence
  time := time
  sector := 0
  bytes := 4096
  action := 0x01100001
  pid := 1
  device := device
  cpu := cpu
  error := 0
  pduLen := 0
  pdu := []

end Blktrace.Blkparse
