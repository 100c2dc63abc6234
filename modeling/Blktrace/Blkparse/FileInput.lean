import Blktrace.Blkparse.Basic

/-!
# Reading from files: `ms_prime` to `do_file`

Every per-CPU file is a stream; `ms_head` chains the streams that hold a queued record. The
chain is followed by `next` pointers only, so it is the list of its streams; a stream is known by
its device slot and CPU number, the two arguments `ms_alloc` makes it from.

A file is the list of its complete records, headers in the file's own byte order. What comes
after them, nothing or a piece of a record, makes `read_data` return 1 either way. Not modelled:
interrupts (`is_done`), the messages on stderr, the allocation caches, and `rb_last`, which file
mode fills and never reads.
-/

namespace Blktrace.Blkparse

/-- A stream's device slot and CPU. -/
abbrev StreamId := Nat × Nat

/-- `struct ms_stream`: the queue from `first` to `last`, and the file `pci->fd` reads, `none`
once it is closed. -/
structure MsStream where
  first : List BlkIoTrace := []
  fd : Option (List BlkIoTrace) := none
deriving DecidableEq

/-- The state of file mode. `handled` is a history variable: the records `handle` was given. -/
structure FileState where
  native : Option Bool := none
  streams : StreamId → MsStream := fun _ => {}
  msHead : List StreamId := []
  genesisTime : UInt64 := 0
  lastReportedTime : Nat → UInt64 := fun _ => 0
  nelems : StreamId → Nat := fun _ => 0
  handled : List (StreamId × BlkIoTrace) := []
  events : List Event := []

/-! ## One record -/

/-- What a pass of `ms_prime`'s loop makes of the record it read. -/
inductive Fetched
  | err
  | skipped
  | notify (bit : BlkIoTrace)
  | queued (bit : BlkIoTrace)
deriving DecidableEq

/-- The checks of `ms_prime`'s loop, once the byte order is known. -/
def msFetch (cpu : Nat) (native : Bool) (raw : BlkIoTrace) : Fetched :=
  if !checkMagic (getMagic native raw) then .err
  else
    let bit := traceToCpu native raw
    if verifyTrace bit then .err
    else if bit.cpu.toNat != cpu then .skipped
    else if bit.isNotify then .notify bit
    else .queued bit

/-! ## `ms_prime` -/

/-- What a call of `ms_prime` leaves: the records it appended to the queue (`ndone` is their
number), the file, the byte order and the notifies it handled. -/
structure Primed where
  queue : List BlkIoTrace
  fd : Option (List BlkIoTrace)
  native : Option Bool
  notified : List Event

/-- The loop of `ms_prime`. The `i -= 1` after a notify undoes the `i++` of the `for`; a record
of another CPU leaves its `i++` standing. -/
def msPrimeLoop (rbBatch cpu : Nat) : List BlkIoTrace → Option Bool → Nat → Primed
  | [], native, i => ⟨[], if i < rbBatch then none else some [], native, []⟩
  | raw :: rest, native, i =>
    if i < rbBatch then
      match lookNative native raw.magic with
      | none => ⟨[], none, none, []⟩
      | some b =>
        match msFetch cpu b raw with
        | .err => ⟨[], none, some b, []⟩
        | .skipped => msPrimeLoop rbBatch cpu rest (some b) (i + 1)
        | .notify bit =>
          let p := msPrimeLoop rbBatch cpu rest (some b) i
          { p with notified := .notify b bit :: p.notified }
        | .queued bit =>
          let p := msPrimeLoop rbBatch cpu rest (some b) (i + 1)
          { p with queue := bit :: p.queue }
    else ⟨[], some (raw :: rest), native, []⟩

/-- `ms_prime`, with the `ndone` it returns. -/
def msPrime (o : Opts) (s : FileState) (msp : StreamId) : FileState × Nat :=
  match (s.streams msp).fd with
  | none => (s, 0)
  | some file =>
    let p := msPrimeLoop o.rbBatch msp.2 file s.native 0
    ({ s with
        native := p.native
        streams := Function.update s.streams msp ⟨(s.streams msp).first ++ p.queue, p.fd⟩
        events := s.events ++ p.notified },
      p.queue.length)

/-! ## The chain -/

/-- `ms_peek_time`. The streams of the chain have a queued record; 0 stands for the others. -/
def msPeekTime (streams : StreamId → MsStream) (msp : StreamId) : UInt64 :=
  match (streams msp).first with
  | [] => 0
  | t :: _ => t.time

/-- The `while` of `ms_sort`, from `this_msp->next` on. -/
def msSortWhile (streams : StreamId → MsStream) (msp : StreamId) : List StreamId → List StreamId
  | [] => [msp]
  | next :: rest =>
    if msPeekTime streams next < msPeekTime streams msp then
      next :: msSortWhile streams msp rest
    else msp :: next :: rest

/-- `ms_sort`: the new chain. -/
def msSort (streams : StreamId → MsStream) (msHead : List StreamId) (msp : StreamId) :
    List StreamId :=
  match msHead with
  | [] => [msp]
  | this :: rest =>
    if msPeekTime streams msp < msPeekTime streams this then msp :: this :: rest
    else this :: msSortWhile streams msp rest

/-- `ms_resort` of the head `msp`, with `next` the chain behind it. -/
def msResort (streams : StreamId → MsStream) (msp : StreamId) (next : List StreamId) :
    List StreamId :=
  match next with
  | [] => [msp]
  | n :: rest =>
    if msPeekTime streams n < msPeekTime streams msp then msSort streams (n :: rest) msp
    else msp :: n :: rest

/-- `ms_deq` of the head `msp`, with `next` the chain behind it. -/
def msDeq (o : Opts) (s : FileState) (msp : StreamId) (next : List StreamId) : FileState :=
  let st := s.streams msp
  let s := { s with streams := Function.update s.streams msp { st with first := st.first.tail } }
  if st.first.tail = [] then
    let (s, ndone) := msPrime o s msp
    if ndone = 0 then { s with msHead := next }
    else { s with msHead := msResort s.streams msp next }
  else { s with msHead := msResort s.streams msp next }

/-! ## `handle` and `do_file` -/

/-- `ms_alloc`, on a file just opened by `setup_file`. An empty file (`st_size` 0) is not opened;
its stream would never enter the chain. -/
def msAlloc (o : Opts) (s : FileState) (msp : StreamId) (file : List BlkIoTrace) : FileState :=
  let s := { s with streams := Function.update s.streams msp ⟨[], some file⟩ }
  let (s, ndone) := msPrime o s msp
  if ndone = 0 then s else { s with msHead := msSort s.streams s.msHead msp }

/-- The loop over `setup_file` for one device, from CPU number `cpu` on. -/
def setupFiles (o : Opts) (pdi : Nat) : Nat → List (List BlkIoTrace) → FileState → FileState
  | _, [], s => s
  | cpu, file :: files, s =>
    setupFiles o pdi (cpu + 1) files (if file = [] then s else msAlloc o s (pdi, cpu) file)

/-- The loop over the devices, from slot `pdi` on; `none` where a device has no file. -/
def setupDevices (o : Opts) : Nat → List (List (List BlkIoTrace)) → FileState → Option FileState
  | _, [], s => some s
  | pdi, files :: devs, s =>
    if files = [] then none else setupDevices o (pdi + 1) devs (setupFiles o pdi 0 files s)

/-- `handle` of the head of the chain, and what it returns. The time is made relative in place,
also in the record that ends the run. -/
def handle (o : Opts) (s : FileState) (msp : StreamId) (next : List StreamId) : FileState × Bool :=
  match (s.streams msp).first with
  | [] => (s, false)
  | t :: queue =>
    let bit := { t with time := t.time - s.genesisTime }
    let s := { s with
      streams := Function.update s.streams msp { s.streams msp with first := bit :: queue }
      nelems := Function.update s.nelems msp (s.nelems msp + 1)
      handled := s.handled ++ [(msp, t)] }
    if o.stopwatchEnd < bit.time then (s, false)
    else
      let s := { s with
        lastReportedTime := Function.update s.lastReportedTime msp.1 bit.time
        -- `pdi->dev` is never set in file mode
        events :=
          if o.masks bit && o.stopwatchStart ≤ bit.time then
            s.events ++ [.dump msp.1 0 (UInt32.ofNat msp.2) bit]
          else s.events }
      (msDeq o s msp next, true)

/-- The `while` of `do_file`, for at most `fuel` turns. -/
def fileLoop (o : Opts) : Nat → FileState → FileState
  | 0, s => s
  | fuel + 1, s =>
    match s.msHead with
    | [] => s
    | msp :: next =>
      match handle o s msp next with
      | (s, true) => fileLoop o fuel s
      | (s, false) => s

/-- `do_file` up to its `while`: all files primed and the genesis time taken. -/
def fileStart (o : Opts) (devs : List (List (List BlkIoTrace))) : Option FileState :=
  (setupDevices o 0 devs {}).map fun s =>
    match s.msHead with
    | [] => s
    | msp :: _ => { s with genesisTime := msPeekTime s.streams msp }

/-- How many records the files hold: each turn of the `while` but the last uses one up. -/
def fileFuel (devs : List (List (List BlkIoTrace))) : Nat :=
  (devs.map fun files => (files.map List.length).sum).sum

/-- `do_file`; `none` is its return of 1 where a device has no input file. -/
def doFile (o : Opts) (devs : List (List (List BlkIoTrace))) : Option FileState :=
  (fileStart o devs).map (fileLoop o (fileFuel devs + 1))

end Blktrace.Blkparse
