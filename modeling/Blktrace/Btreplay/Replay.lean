import Blktrace.Btreplay.Format

/-!
# `btreplay.c`: from bunches to submissions

One input file and the thread that submits what it holds: `add_input_file`, then in each iteration
`next_bunch` and `process_bunch` until the end of the file, then `reset_input_file`. The thread
that reclaims completed AIOs shows in what `nfree_current` returns (`FreeList`).

Not modelled: the stalls between bunches and `genesis`, which only they use; the buffers; an
`io_submit` that fails, which ends the run; names of files, threads and signals.
-/

namespace Blktrace.Btreplay

open Bytes

/-- `naios` and `nb_sec`. -/
def naios : ℕ := 512
def nbSec : UInt64 := 512

/-- The settings of `handle_args`. -/
structure ReplayOpts where
  writeEnabled : Bool := false
  iterations : ℕ := 1
  iterations_pos : 0 < iterations := by decide

/-- The free list as `process_bunch` meets it: what the `k`-th call of `nfree_current` returns, and
how long the list is when `iocbs_map` takes the mutex after that call. AIOs are only added in
between. -/
structure FreeList where
  nfree : ℕ → ℕ
  listLen : ℕ → ℕ
  pos : ∀ k, 0 < nfree k
  le_naios : ∀ k, nfree k ≤ naios
  le_listLen : ∀ k, nfree k ≤ listLen k

/-- What `io_prep_pread` or `io_prep_pwrite` puts into an iocb. -/
structure Iocb where
  write : Bool
  nbytes : Int32
  offset : Int64
deriving DecidableEq, Repr

/-! ## Reading bunches -/

/-- `add_input_file`: the file at the end of its header, or `none` where it is not added. -/
def addInputFile (file : List UInt8) : Except Stop (Option (List UInt8)) :=
  if file.length < ioFileHdrLayout.size then .ok none
  else
    let hdr := ioFileHdrLayout.load file
    if hdr.version ≠ mkBtversion btverMjr btverMnr btverSub then .error .fatal
    else if hdr.nbunches = 0 then .ok none
    else .ok (some (file.drop ioFileHdrLayout.size))

/-- `next_bunch`; `none` is its return of 0. -/
def nextBunch (ndebug : Bool) (ifd : List UInt8) : Except Stop (Option (IoBunch × List UInt8)) :=
  if ifd = [] then .ok none
  else if ifd.length < ioBunchHdrLayout.size then .error .fatal
  else do
    let hdr := ioBunchHdrLayout.load ifd
    let ifd := ifd.drop ioBunchHdrLayout.size
    assertThat ndebug (hdr.npkts ≤ UInt64.ofNat btMaxPkts)
    let count := hdr.npkts.toNat * ioPktLayout.size
    if ifd.length < count then .error .fatal
    else .ok (some (⟨hdr, ioPktLayout.loadAll hdr.npkts.toNat ifd⟩, ifd.drop count))

/-! ## Submitting them -/

/-- `iocb_setup`. -/
def iocbSetup (ndebug writeEnabled : Bool) (rw : UInt32) (n : Int32) (off : Int64) :
    Except Stop Iocb := do
  assertThat ndebug (rw = 0 || rw = 1)
  assertThat ndebug (0 < n && n % nbSec.toInt64.toInt32 = 0)
  assertThat ndebug (0 ≤ off)
  if rw ≠ 0 then .ok ⟨false, n, off⟩
  else do
    assertThat ndebug writeEnabled
    .ok ⟨true, n, off⟩

/-- The body of the loop of `iocbs_map`. The packet's size is cut to an `int`, its sector is turned
into an offset in 64 bits. -/
def iocbMap (ndebug writeEnabled : Bool) (pkt : IoPkt) : Except Stop Iocb :=
  let rw := if pkt.rw = 0 && !writeEnabled then 1 else pkt.rw
  iocbSetup ndebug writeEnabled rw pkt.nbytes.toUInt32.toInt32 (pkt.sector * nbSec).toInt64

/-- `iocbs_map`, with the list of iocbs it sets up. -/
def iocbsMap (ndebug writeEnabled : Bool) (listLen : ℕ) (pkts : List IoPkt) :
    Except Stop (List Iocb) := do
  assertThat ndebug (0 < pkts.length && pkts.length ≤ naios)
  assertThat ndebug (pkts.length ≤ listLen)
  pkts.mapM (iocbMap ndebug writeEnabled)

/-- The `while` of `process_bunch` over the packets from `i` on, for at most `fuel` turns: the
number of calls of `nfree_current` so far and what is submitted. -/
def processBunchLoop (ndebug writeEnabled : Bool) (free : FreeList) :
    ℕ → ℕ → List IoPkt → Except Stop (ℕ × List Iocb)
  | 0, k, _ => .ok (k, [])
  | fuel + 1, k, pkts =>
    if pkts = [] then .ok (k, [])
    else do
      let ntodo := min (free.nfree k) pkts.length
      assertThat ndebug (0 < ntodo && ntodo ≤ naios)
      let list ← iocbsMap ndebug writeEnabled (free.listLen k) (pkts.take ntodo)
      let (k, rest) ← processBunchLoop ndebug writeEnabled free fuel (k + 1) (pkts.drop ntodo)
      .ok (k, list ++ rest)

/-- `process_bunch`. -/
def processBunch (ndebug writeEnabled : Bool) (free : FreeList) (k : ℕ) (bunch : IoBunch) :
    Except Stop (ℕ × List Iocb) := do
  assertThat ndebug (0 < bunch.hdr.npkts && bunch.hdr.npkts ≤ UInt64.ofNat btMaxPkts)
  processBunchLoop ndebug writeEnabled free bunch.pkts.length k bunch.pkts

/-! ## `replay_sub` -/

/-- The inner `while` of `replay_sub`, for at most `fuel` bunches. -/
def replayBunches (ndebug writeEnabled : Bool) (free : FreeList) :
    ℕ → ℕ → List UInt8 → Except Stop (ℕ × List Iocb)
  | 0, k, _ => .ok (k, [])
  | fuel + 1, k, ifd => do
    match ← nextBunch ndebug ifd with
    | none => .ok (k, [])
    | some (bunch, ifd) => do
      let (k, done) ← processBunch ndebug writeEnabled free k bunch
      let (k, rest) ← replayBunches ndebug writeEnabled free fuel k ifd
      .ok (k, done ++ rest)

/-- `reset_input_file`: back to the first bunch. -/
def resetInputFile (file : List UInt8) : Except Stop (List UInt8) :=
  if file.length < ioFileHdrLayout.size then .error .fatal
  else .ok (file.drop ioFileHdrLayout.size)

/-- The outer `while` of `replay_sub`: what the iterations left submit. -/
def replaySub (ndebug writeEnabled : Bool) (free : FreeList) (file : List UInt8) :
    ℕ → ℕ → List UInt8 → Except Stop (List Iocb)
  | 0, _, _ => .ok []
  | iterations + 1, k, ifd => do
    let (k, done) ← replayBunches ndebug writeEnabled free (file.length + 1) k ifd
    let ifd ← resetInputFile file
    let rest ← replaySub ndebug writeEnabled free file iterations k ifd
    .ok (done ++ rest)

/-- `btreplay` on one file: everything `io_submit` is given, in order. A file that is not added has
no thread. -/
def replay (ndebug : Bool) (o : ReplayOpts) (free : FreeList) (file : List UInt8) :
    Except Stop (List Iocb) := do
  match ← addInputFile file with
  | none => .ok []
  | some ifd => replaySub ndebug o.writeEnabled free file o.iterations 0 ifd

end Blktrace.Btreplay
