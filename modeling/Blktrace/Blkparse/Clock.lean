import Blktrace.Blkparse.Basic

/-!
# The wall clock

`start_timestamp` and `abs_start_time`: set by the `TIMESTAMP` notify, moved by `find_genesis` in
pipe mode, read by `print_time`. The two members of `struct timespec` are signed 64-bit words; the
macros `SECONDS` and `NANO_SECONDS` cast their argument to unsigned first, a negative `long`
included.
-/

namespace Blktrace.Blkparse

/-- `start_timestamp` and the two members of `abs_start_time`. -/
structure Clock where
  startTimestamp : UInt64 := 0
  tvSec : Int64 := 0
  tvNsec : Int64 := 0
deriving DecidableEq

/-- The 32-bit word at byte `i` of a payload, as a little-endian host reads it. -/
def le32 (pdu : List UInt8) (i : Nat) : UInt32 :=
  (pdu.getD i 0).toUInt32 ||| ((pdu.getD (i + 1) 0).toUInt32 <<< (8 : UInt32)) |||
    ((pdu.getD (i + 2) 0).toUInt32 <<< (16 : UInt32)) |||
    ((pdu.getD (i + 3) 0).toUInt32 <<< (24 : UInt32))

/-- A word of `two32` in the host's order. -/
def two32 (native : Bool) (pdu : List UInt8) (i : Nat) : UInt32 :=
  if native then le32 pdu i else bswap32 (le32 pdu i)

/-- `handle_notify`, as far as the clock goes. -/
def Clock.notify (c : Clock) (native : Bool) (bit : BlkIoTrace) : Clock :=
  if bit.action = blkTnTimestamp then
    if bit.pduLen ≠ 8 then c
    else
      let c : Clock :=
        { startTimestamp := bit.time
          tvSec := (two32 native bit.pdu 0).toUInt64.toInt64
          tvNsec := (two32 native bit.pdu 4).toUInt64.toInt64 }
      if c.tvNsec < 0 then { c with tvSec := c.tvSec - 1, tvNsec := c.tvNsec + 1000000000 } else c
  else c

/-- The second half of `find_genesis`, which moves `abs_start_time` to the genesis time. -/
def Clock.findGenesis (c : Clock) (genesis : UInt64) : Clock :=
  if c.startTimestamp ≠ 0 ∧ c.startTimestamp ≠ genesis then
    let delta := genesis - c.startTimestamp
    let c := { c with
      tvSec := c.tvSec + (seconds delta).toInt64
      tvNsec := c.tvNsec + (nanoSeconds delta).toInt64 }
    if c.tvNsec < 0 then { c with tvNsec := c.tvNsec + 1000000000, tvSec := c.tvSec - 1 }
    else if 1000000000 < c.tvNsec then
      { c with tvNsec := c.tvNsec - 1000000000, tvSec := c.tvSec + 1 }
    else c
  else c

/-- The `sec` and `nsec` that `print_time` formats. -/
def printTime (c : Clock) (timestamp : UInt64) : Int64 × UInt64 :=
  let sec := c.tvSec + (seconds timestamp).toInt64
  let nsec := c.tvNsec.toUInt64 + nanoSeconds timestamp
  if 1000000000 ≤ nsec then (sec + 1, nsec - 1000000000) else (sec, nsec)

end Blktrace.Blkparse
