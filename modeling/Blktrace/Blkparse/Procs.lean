import Blktrace.Jhash
import Blktrace.Blkparse.Basic
import Blktrace.Blkparse.IoStats

/-!
# Names and processes

`process_pid_map` gives a pid its name, and `per_process_info` holds what is charged to a process:
one pid, or with `-h` all pids of one name.

Entries are added at the head of `ppi_list` and, in the same call, at the head of their chain in
`ppi_hash_table`; none is ever removed. So a chain is the list without the entries of other
hashes, and both tables are lists here, newest first. An entry's `ppm` is a pointer to a map
that never changes.
-/

namespace Blktrace.Blkparse

/-! ## Names -/

/-- `char comm[16]`, cleared before it is copied into: a terminated string, zeros behind it. -/
structure Comm where
  name : List UInt8
  noNul : 0 ∉ name
  fits : name.length ≤ 15
deriving DecidableEq

/-- The 16 bytes. -/
def Comm.bytes (c : Comm) : List UInt8 := c.name ++ List.replicate (16 - c.name.length) 0

/-- `strncpy` into a cleared `comm`, and the terminator written over the last byte. -/
def Comm.ofBytes (bytes : List UInt8) : Comm where
  name := (bytes.takeWhile (· != 0)).take 15
  noNul := by
    intro h
    have := List.mem_takeWhile_imp (List.mem_of_mem_take h)
    simp at this
  fits := by simp

/-- `"unknown"`. -/
def Comm.unknown : Comm := .ofBytes [0x75, 0x6e, 0x6b, 0x6e, 0x6f, 0x77, 0x6e]

/-- `struct process_pid_map`. -/
structure Ppm where
  pid : UInt32
  comm : Comm
deriving DecidableEq

/-- The three `longest_*_wait` pairs of `struct per_process_info`. -/
inductive Wait
  | allocation | dispatch | completion
deriving DecidableEq

/-- `struct per_process_info`, indexed by direction where the source has arrays of two.
`charged` is a history variable: the records its statistics were changed for. -/
structure Ppi where
  ppm : Ppm
  ioStats : IoStats := .zero
  moreThanOne : Bool := false
  longestWait : Wait → Bool → UInt64 := fun _ _ => 0
  charged : List BlkIoTrace := []

/-- The two tables. -/
structure Procs where
  ppms : List Ppm := []
  ppis : List Ppi := []

namespace Procs

def jhashRandom : UInt32 := 0x3af5f2ee
def hashMask : UInt32 := 0xff

/-- `ppm_hash_pid` and `ppi_hash_pid`. -/
def hashPid (pid : UInt32) : UInt32 := jhash1Word pid jhashRandom &&& hashMask

/-- `ppi_hash_name`. -/
def hashName (comm : Comm) : UInt32 := jhash comm.bytes jhashRandom &&& hashMask

/-- `ppi_hash`. -/
def ppiHash (o : Opts) (ppm : Ppm) : UInt32 :=
  if o.ppiHashByPid then hashPid ppm.pid else hashName ppm.comm

/-! ## `process_pid_map` -/

/-- `find_ppm`. -/
def findPpm (p : Procs) (pid : UInt32) : Option Ppm :=
  p.ppms.find? fun ppm => hashPid ppm.pid == hashPid pid && ppm.pid == pid

/-- `add_ppm_hash`. A pid that has a map keeps it. -/
def addPpmHash (p : Procs) (pid : UInt32) (comm : Comm) : Procs :=
  match p.findPpm pid with
  | some _ => p
  | none => { p with ppms := ⟨pid, comm⟩ :: p.ppms }

/-- `find_ppm`, or `add_ppm_hash` with `"unknown"`. -/
def ppmOf (p : Procs) (pid : UInt32) : Procs × Ppm :=
  match p.findPpm pid with
  | some ppm => (p, ppm)
  | none => (p.addPpmHash pid .unknown, ⟨pid, .unknown⟩)

/-- `find_process_name`. -/
def findProcessName (p : Procs) (pid : UInt32) : Option Comm := (p.findPpm pid).map Ppm.comm

/-- `handle_notify`, as far as names go: the payload of a `PROCESS` notify is the name. -/
def notify (p : Procs) (bit : BlkIoTrace) : Procs :=
  if bit.action = blkTnProcess then p.addPpmHash bit.pid (.ofBytes bit.pdu) else p

/-! ## `per_process_info` -/

/-- `find_ppi_by_name`: where in `ppi_list` the entry is. -/
def findPpiByName (o : Opts) (p : Procs) (comm : Comm) : Option Nat :=
  p.ppis.findIdx? fun ppi => ppiHash o ppi.ppm == hashName comm && ppi.ppm.comm == comm

/-- `find_ppi_by_pid`. -/
def findPpiByPid (o : Opts) (p : Procs) (pid : UInt32) : Option Nat :=
  p.ppis.findIdx? fun ppi => ppiHash o ppi.ppm == hashPid pid && ppi.ppm.pid == pid

/-- An entry changed in place. -/
def modify (p : Procs) (i : Nat) (f : Ppi → Ppi) : Procs := { p with ppis := p.ppis.modify i f }

/-- `find_ppi`. It notes in the entry that it serves more than one pid. -/
def findPpi (o : Opts) (p : Procs) (pid : UInt32) : Procs × Option Nat :=
  if o.ppiHashByPid then (p, p.findPpiByPid o pid)
  else
    match p.findProcessName pid with
    | none => (p, none)
    | some name =>
      match p.findPpiByName o name with
      | none => (p, none)
      | some i =>
        (p.modify i fun ppi =>
          if ppi.ppm.pid ≠ pid then { ppi with moreThanOne := true } else ppi, some i)

/-- `find_process_io_stats`: the tables after it, and the entry whose statistics it returns. -/
def findProcessIoStats (o : Opts) (p : Procs) (pid : UInt32) : Procs × Nat :=
  match p.findPpi o pid with
  | (p, some i) => (p, i)
  | (p, none) =>
    let (p, ppm) := p.ppmOf pid
    -- `add_ppi_to_hash`, `add_ppi_to_list`
    ({ p with ppis := { ppm := ppm } :: p.ppis }, 0)

/-- The second half of every `account_*` function: `account` on the statistics of the process. -/
def charge (o : Opts) (p : Procs) (t : BlkIoTrace) (account : IoStats → IoStats) : Procs :=
  let (p, i) := p.findProcessIoStats o t.pid
  p.modify i fun ppi =>
    { ppi with ioStats := account ppi.ioStats, charged := ppi.charged ++ [t] }

/-- The end of `log_track_insert`, `log_track_issue` and `log_track_complete`: a longer wait than
any before is kept. -/
def wait (o : Opts) (p : Procs) (pid : UInt32) (kind : Wait) (w : Bool) (elapsed : UInt64) :
    Procs :=
  match p.findPpi o pid with
  | (p, none) => p
  | (p, some i) =>
    p.modify i fun ppi =>
      if ppi.longestWait kind w < elapsed then
        let waits := Function.update (ppi.longestWait kind) w elapsed
        { ppi with longestWait := Function.update ppi.longestWait kind waits }
      else ppi

end Procs

end Blktrace.Blkparse
