import Blktrace.Lib.Word

/-!
# The trace record

`blktrace_api.h` and the inline part of `blktrace.h`: the record, its action word, the checks a
reader makes on it and the byte order it may lie in.

A record read from a file or a pipe carries the `pdu_len` payload bytes that follow it (`pdu`).
Byte order is a matter of fields here: the header as the host reads it is `traceToCpu` of the
header as it lies in the file, and the host is little-endian.
-/

namespace Blktrace

/-- `struct blk_io_trace`, with the payload that follows it in memory. -/
structure BlkIoTrace where
  magic : UInt32
  sequence : UInt32
  time : UInt64
  sector : UInt64
  bytes : UInt32
  action : UInt32
  pid : UInt32
  device : UInt32
  cpu : UInt32
  error : UInt16
  pduLen : UInt16
  pdu : List UInt8
deriving DecidableEq, Repr

/-! ## Categories and actions -/

-- `1 << 1`, `1 << 8`, `1 << 9`, `1 << 10`: the categories the readers and the dump test.
def blkTcWrite : UInt32 := 0x2
def blkTcFs : UInt32 := 0x100
def blkTcPc : UInt32 := 0x200
def blkTcNotify : UInt32 := 0x400

def blkTcShift : UInt32 := 16

/-- `BLK_TC_ACT`: a category as it stands in the action word. -/
def blkTcAct (act : UInt32) : UInt32 := act <<< blkTcShift

/-- `t->action & BLK_TC_ACT(tc)`. -/
def BlkIoTrace.hasTc (t : BlkIoTrace) (tc : UInt32) : Bool := (t.action &&& blkTcAct tc) != 0

/-- The basic actions, `__BLK_TA_QUEUE` to `__BLK_TA_DRV_DATA`. -/
inductive BlkTa
  | queue | backmerge | frontmerge | getrq | sleeprq | requeue | issue | complete | plug
  | unplugIo | unplugTimer | insert | split | bounce | remap | abort | drvData
deriving DecidableEq, Repr

/-- The low half of the action word, numbered from 1. -/
def BlkTa.ofAction (action : UInt32) : Option BlkTa :=
  match (action &&& 0xffff).toNat with
  | 1 => some .queue
  | 2 => some .backmerge
  | 3 => some .frontmerge
  | 4 => some .getrq
  | 5 => some .sleeprq
  | 6 => some .requeue
  | 7 => some .issue
  | 8 => some .complete
  | 9 => some .plug
  | 10 => some .unplugIo
  | 11 => some .unplugTimer
  | 12 => some .insert
  | 13 => some .split
  | 14 => some .bounce
  | 15 => some .remap
  | 16 => some .abort
  | 17 => some .drvData
  | _ => none

def blkTnProcess : UInt32 := 0 ||| blkTcAct blkTcNotify
def blkTnTimestamp : UInt32 := 1 ||| blkTcAct blkTcNotify
def blkTnMessage : UInt32 := 2 ||| blkTcAct blkTcNotify

/-- `bit->action == BLK_TN_MESSAGE`. -/
def BlkIoTrace.isMessage (t : BlkIoTrace) : Bool := t.action == blkTnMessage

/-- The test by which both readers take a record out of the stream: a notify that is not a
message. -/
def BlkIoTrace.isNotify (t : BlkIoTrace) : Bool := t.hasTc blkTcNotify && !t.isMessage

/-! ## `blktrace.h` -/

/-- `t_sec`, in sectors of 512 bytes. -/
def BlkIoTrace.tSec (t : BlkIoTrace) : UInt32 := t.bytes >>> 9

def BlkIoTrace.tKb (t : BlkIoTrace) : UInt32 := t.bytes >>> 10

def BlkIoTrace.tB (t : BlkIoTrace) : UInt32 := t.bytes &&& 1023

/-- `SECONDS`: the argument is cast to `unsigned long long` first. -/
def seconds (x : UInt64) : UInt64 := x / 1000000000

def nanoSeconds (x : UInt64) : UInt64 := x % 1000000000

def blkIoTraceMagic : UInt32 := 0x65617400
def supportedVersion : UInt32 := 0x07

def checkMagic (magic : UInt32) : Bool := (magic &&& 0xffffff00) == blkIoTraceMagic

/-- `verify_trace`; `true` is the 1 it returns on a bad record. -/
def verifyTrace (t : BlkIoTrace) : Bool :=
  !checkMagic t.magic || (t.magic &&& 0xff) != supportedVersion

def bswap16 (x : UInt16) : UInt16 := (x <<< 8) ||| (x >>> 8)

def bswap32 (x : UInt32) : UInt32 :=
  (x <<< (24 : UInt32)) ||| ((x &&& 0xff00) <<< (8 : UInt32)) |||
    (x >>> (8 : UInt32) &&& 0xff00) ||| (x >>> (24 : UInt32))

def bswap64 (x : UInt64) : UInt64 :=
  ((bswap32 x.toUInt32).toUInt64 <<< 32) ||| (bswap32 (x >>> 32).toUInt32).toUInt64

/-- `trace_to_cpu`, with `data_is_native` already decided. -/
def traceToCpu (native : Bool) (t : BlkIoTrace) : BlkIoTrace :=
  if native then t
  else
    { t with
      magic := bswap32 t.magic
      sequence := bswap32 t.sequence
      time := bswap64 t.time
      sector := bswap64 t.sector
      bytes := bswap32 t.bytes
      action := bswap32 t.action
      pid := bswap32 t.pid
      device := bswap32 t.device
      cpu := bswap32 t.cpu
      error := bswap16 t.error
      pduLen := bswap16 t.pduLen }

/-- `check_data_endianness`: the `data_is_native` it sets, `none` where it returns 1. -/
def checkDataEndianness (magic : UInt32) : Option Bool :=
  if checkMagic magic then some true
  else if checkMagic (bswap32 magic) then some false
  else none

/-- `get_magic`. -/
def getMagic (native : Bool) (t : BlkIoTrace) : UInt32 :=
  if native then t.magic else bswap32 t.magic

theorem bswap32_bswap32 (x : UInt32) : bswap32 (bswap32 x) = x := by
  apply UInt32.toBitVec_inj.mp
  apply BitVec.eq_of_getLsbD_eq
  intro i hi
  interval_cases i <;> simp [bswap32]

/-- The magic cannot be read both ways. -/
theorem checkMagic_of_bswap32 {magic : UInt32} (h : checkMagic (bswap32 magic) = true) :
    checkMagic magic = false := by
  by_contra hm
  have hswap : bswap32 magic &&& 0xffffff00 = blkIoTraceMagic := by simpa [checkMagic] using h
  have hplain : magic &&& 0xffffff00 = blkIoTraceMagic := by simpa [checkMagic] using hm
  -- bit 16 of the swapped word is bit 8 of the other, and the magic has only the first set
  have hbit := congrArg (fun x : UInt32 => x.toBitVec.getLsbD 8) hplain
  have hbit' := congrArg (fun x : UInt32 => x.toBitVec.getLsbD 16) hswap
  simp [bswap32, blkIoTraceMagic] at hbit hbit'
  rw [hbit] at hbit'
  simp at hbit'

theorem getMagic_eq (native : Bool) (t : BlkIoTrace) :
    getMagic native t = (traceToCpu native t).magic := by
  cases native <;> rfl

theorem checkMagic_of_valid {native : Bool} {t : BlkIoTrace}
    (h : verifyTrace (traceToCpu native t) = false) : checkMagic (getMagic native t) = true := by
  rw [verifyTrace, Bool.or_eq_false_iff] at h
  rw [getMagic_eq]
  simpa using h.1

/-- A record that is valid in one byte order tells that byte order. -/
theorem checkDataEndianness_of_valid {native : Bool} {t : BlkIoTrace}
    (h : verifyTrace (traceToCpu native t) = false) :
    checkDataEndianness t.magic = some native := by
  have hmagic := checkMagic_of_valid h
  unfold checkDataEndianness
  cases native with
  | true => rw [if_pos (by simpa [getMagic] using hmagic)]
  | false =>
    have hswap : checkMagic (bswap32 t.magic) = true := by simpa [getMagic] using hmagic
    simp [checkMagic_of_bswap32 hswap, hswap]

example : checkDataEndianness 0x65617407 = some true ∧ checkDataEndianness 0x07746165 = some false :=
  by decide

end Blktrace
