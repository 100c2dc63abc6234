import Blktrace.Image
import Blktrace.Blkparse.Basic
import Blktrace.Btreplay.Format

/-!
# `btrecord.c`: from a trace to bunches of packets

`process` reads one per-CPU trace file with `next_io`, which hands over the queue records, and
collects them in bunches. The output file is written front to back, but for its header: that is
written once when the file is opened and again, over the first one, when it is closed.

A file is its bytes, and `read` of a regular file gives as many as are left. Not modelled: file
names, the listing of `-v`, and `tpkts`, which only that listing shows. The assertions are there
or not (`ndebug`: the makefile defines `NDEBUG`).
-/

namespace Blktrace.Btreplay

open Bytes

/-- `max_bunch_tm` and `max_pkts_per_bunch`. `handle_args` refuses every other value. -/
structure Limits where
  maxBunchTm : UInt64
  maxPktsPerBunch : ℕ
  tm_pos : 1 ≤ maxBunchTm
  pkts_pos : 1 ≤ maxPktsPerBunch
  pkts_le : maxPktsPerBunch < 513

/-- 10 milliseconds, and 8 packets: what they are without options. -/
def defaultLimits : Limits where
  maxBunchTm := 10 * 1000 * 1000
  maxPktsPerBunch := 8
  tm_pos := by decide
  pkts_pos := by decide
  pkts_le := by decide

/-- `struct io_spec`. -/
structure IoSpec where
  time : UInt64
  sector : UInt64
  bytes : UInt32
  rw : UInt32
deriving DecidableEq, Repr

/-- `struct ifile_info`: what is left to read and the first time. `native` is `data_is_native`,
which `stream_open` sets to -1, the `none` here. -/
structure IfileInfo where
  ifd : List UInt8
  genesis : UInt64 := 0
  native : Option Bool := none

/-- `struct io_stream`. -/
structure IoStream where
  ofp : List UInt8 := []
  cur : Option IoBunch := none
  startTime : UInt64 := 0
  lastTime : UInt64 := 0
  bunches : UInt64 := 0
  pkts : UInt64 := 0

/-! ## `next_io` -/

def blkTcRead : UInt32 := 0x1
def blkTcQueue : UInt32 := 0x10

/-- `match`. -/
def matchAction (action : UInt32) : Bool :=
  (action &&& 0xffff) == 1 && (action &&& blkTcAct blkTcQueue) != 0

/-- The members of the record `next_io` looks at. -/
structure IoFields where
  time : UInt64
  sector : UInt64
  bytes : UInt32
  action : UInt32
  pduLen : UInt16
deriving DecidableEq, Repr

/-- The two branches of `next_io` on `data_is_native`. -/
def ioFields (native : Bool) (t : BlkIoTrace) : IoFields :=
  if native then
    { time := t.time, sector := t.sector, bytes := t.bytes, action := t.action,
      pduLen := t.pduLen }
  else
    { time := bswap64 t.time, sector := bswap64 t.sector, bytes := bswap32 t.bytes,
      action := bswap32 t.action, pduLen := bswap16 t.pduLen }

theorem ioFields_eq (native : Bool) (t : BlkIoTrace) :
    ioFields native t = ioFields true (traceToCpu native t) := by
  cases native <;> simp only [ioFields, traceToCpu, if_true, Bool.false_eq_true, if_false]

/-- The specification `next_io` makes of a queue record. -/
def IoFields.spec (f : IoFields) : IoSpec where
  time := f.time
  sector := f.sector
  bytes := f.bytes
  rw := if (f.action &&& blkTcAct blkTcRead) != 0 then 1 else 0

/-- What one turn from the label `again` ends in. -/
inductive Pass
  | eof
  | again (iip : IfileInfo)
  | io (iip : IfileInfo) (spec : IoSpec)

/-- The end of `next_io`: the file's first time, and the check against it. -/
def setGenesis (iip : IfileInfo) (spec : IoSpec) : Except Stop Pass :=
  if iip.genesis = 0 then .ok (.io { iip with genesis := spec.time } spec)
  else if spec.time < iip.genesis then .error .fatal
  else .ok (.io iip spec)

/-- One turn of `next_io` from the label `again`. An end of file and a short read are the same to
the caller. -/
def nextIoPass (ndebug : Bool) (iip : IfileInfo) : Except Stop Pass :=
  if iip.ifd.length < traceSize then .ok .eof
  else do
    let t := loadTrace iip.ifd
    let native := Blkparse.lookNative iip.native t.magic
    assertThat ndebug native.isSome
    -- a -1 that `NDEBUG` lets through counts as true
    let f := ioFields (native.getD true) t
    let rest := iip.ifd.drop traceSize
    if rest.length < f.pduLen.toNat then .ok .eof
    else
      let iip := { iip with ifd := rest.drop f.pduLen.toNat, native := native }
      if !matchAction f.action then .ok (.again iip) else setGenesis iip f.spec

/-- `next_io`, for at most `fuel` turns; `none` is its return of 0. -/
def nextIo (ndebug : Bool) : ℕ → IfileInfo → Except Stop (IfileInfo × Option IoSpec)
  | 0, iip => .ok (iip, none)
  | fuel + 1, iip => do
    match ← nextIoPass ndebug iip with
    | .eof => .ok (iip, none)
    | .again iip => nextIo ndebug fuel iip
    | .io iip spec => .ok (iip, some spec)

/-! ## The output stream -/

/-- `write_file_hdr`: over whatever lies at the start of the file. -/
def writeFileHdr (stream : IoStream) (genesis nbunches totalPkts : UInt64) : IoStream :=
  let hdr : IoFileHdr := ⟨mkBtversion btverMjr btverMnr btverSub, genesis, nbunches, totalPkts⟩
  { stream with ofp := ioFileHdrLayout.store hdr ++ stream.ofp.drop ioFileHdrLayout.size }

/-- `io_bunch_create`. -/
def ioBunchCreate (stream : IoStream) (startTime : UInt64) : IoStream :=
  { stream with startTime := startTime, cur := some ⟨⟨0, startTime⟩, []⟩ }

/-- `io_bunch_add`. What the padding holds is up to the compiler: `pad`. -/
def ioBunchAdd (ndebug : Bool) (pad : UInt32) (stream : IoStream) (spec : IoSpec) :
    Except Stop IoStream :=
  match stream.cur with
  | none => .error .assertion
  | some cur => do
    assertThat ndebug (cur.hdr.npkts < UInt64.ofNat btMaxPkts)
    assertThat ndebug (stream.lastTime = 0 || stream.lastTime ≤ spec.time)
    .ok { stream with
      cur := some
        { hdr := { cur.hdr with npkts := cur.hdr.npkts + 1 }
          pkts := cur.pkts ++ [⟨spec.sector, spec.bytes.toUInt64, spec.rw, pad⟩] }
      lastTime := spec.time }

/-- `stream_flush`, with `bunch_output_hdr` and `bunch_output_pkts`, which make the same assertion
again. The bunch is freed, and `stream->cur` left as it is. -/
def streamFlush (ndebug : Bool) (stream : IoStream) : Except Stop IoStream :=
  match stream.cur with
  | none => .ok stream
  | some cur =>
    if cur.hdr.npkts = 0 then .ok stream
    else do
      assertThat ndebug (cur.hdr.npkts ≤ UInt64.ofNat btMaxPkts)
      .ok { stream with
        ofp := stream.ofp ++ cur.image
        bunches := stream.bunches + 1
        pkts := stream.pkts + cur.hdr.npkts }

/-- `bunch_done`. -/
def bunchDone (lim : Limits) (stream : IoStream) (cur : IoBunch) (spec : IoSpec) : Bool :=
  cur.hdr.npkts ≥ UInt64.ofNat lim.maxPktsPerBunch ||
    spec.time - stream.startTime > lim.maxBunchTm

/-- `stream_add_io`. -/
def streamAddIo (ndebug : Bool) (lim : Limits) (pad : UInt32) (stream : IoStream) (spec : IoSpec) :
    Except Stop IoStream := do
  let stream ←
    match stream.cur with
    | none => .ok (ioBunchCreate stream spec.time)
    | some cur =>
      if bunchDone lim stream cur spec then do
        let stream ← streamFlush ndebug stream
        .ok (ioBunchCreate stream spec.time)
      else .ok stream
  ioBunchAdd ndebug pad stream spec

/-- `stream_open`: the counters are 0, the first header is written. -/
def streamOpen : IoStream := writeFileHdr {} 0 0 0

/-- `stream_close`, with the file it leaves. The header is put together before the last flush. -/
def streamClose (ndebug : Bool) (iip : IfileInfo) (stream : IoStream) :
    Except Stop (List UInt8) := do
  let nbunches := stream.bunches
  let totalPkts := stream.pkts
  let stream ← streamFlush ndebug stream
  .ok (writeFileHdr stream iip.genesis nbunches totalPkts).ofp

/-! ## `process` -/

/-- The `while` of `process`, for at most `fuel` turns. `pad` gives the padding of the packet made
of a specification. -/
def processLoop (ndebug : Bool) (lim : Limits) (pad : IoStream → IoSpec → UInt32) :
    ℕ → IfileInfo → IoStream → Except Stop (IfileInfo × IoStream)
  | 0, iip, stream => .ok (iip, stream)
  | fuel + 1, iip, stream => do
    match ← nextIo ndebug (iip.ifd.length + 1) iip with
    | (iip, none) => .ok (iip, stream)
    | (iip, some spec) => do
      let stream ← streamAddIo ndebug lim (pad stream spec) stream spec
      processLoop ndebug lim pad fuel iip stream

/-- `process`: the output file made of an input file. -/
def process (ndebug : Bool) (lim : Limits) (pad : IoStream → IoSpec → UInt32)
    (file : List UInt8) : Except Stop (List UInt8) := do
  let (iip, stream) ← processLoop ndebug lim pad (file.length + 1) { ifd := file } streamOpen
  streamClose ndebug iip stream

end Blktrace.Btreplay
