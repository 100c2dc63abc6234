import Blktrace.Image
import Blktrace.Blkparse.Basic

/-!
# `btt/mmap.c`: the records `btt` reads

`btt` maps its input and converts a record at a time with a converter of its own.
-/

namespace Blktrace.Btt

/-- The body of `convert_to_cpu` on `data_is_native`. The CPU number is swapped as a number of 16
bits: the argument of `be16_to_cpu` loses its upper half. -/
def convertHeader (native : Bool) (t : BlkIoTrace) : BlkIoTrace :=
  if native then t
  else
    { t with
      magic := bswap32 t.magic
      sequence := bswap32 t.sequence
      time := bswap64 t.time
      sector := bswap64 t.sector
      bytes := bswap32 t.bytes
      action := bswap32 t.action
      pid := bswap32 t.pid
      device := bswap32 t.device
      cpu := (bswap16 t.cpu.toUInt16).toUInt32
      error := bswap16 t.error
      pduLen := bswap16 t.pduLen }

/-- `convert_to_cpu` of what lies at `t` in the map: `data_is_native`, the record with a copy of
its payload, and the number of bytes taken up. An undecided `data_is_native` is -1, which the
test counts as true. -/
def convertToCpu (native : Option Bool) (t : List UInt8) : Option Bool × BlkIoTrace × ℕ :=
  let native := Blkparse.lookNative native (loadTrace t).magic
  let tp := convertHeader (native.getD true) (loadTrace t)
  (native, { tp with pdu := (t.drop traceSize).take tp.pduLen.toNat },
    traceSize + tp.pduLen.toNat)

end Blktrace.Btt
