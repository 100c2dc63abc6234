import Blktrace.Tracer.Window

/-!
# `blktrace.c`: the server

One host, with all its connections. `net_client_data` takes what it indexes with, allocates and
receives from the header of the message. Every access to memory whose size was chosen elsewhere is
recorded, and nothing is said of what follows one that is out of range.
-/

namespace Blktrace.Server

open Tracer

/-- `struct blktrace_net_hdr`, in the byte order of the server. -/
structure NetHdr (ν : Type*) where
  butsName : ν
  cpu : UInt32
  maxCpus : UInt32
  len : UInt32

/-- `struct devpath`, and its `ios`. -/
structure Devpath (ν : Type*) where
  butsName : ν
  ncpus : ℕ
  drops : UInt32 := 0
  ios : ℕ → MmapInfo := fun _ => {}

/-- An access to an array of so many entries, to what a pointer points to, or to a window. -/
inductive Access
  | ios (count entries : ℕ)
  | stats (count entries : ℕ)
  | devpath (found : Bool)
  | window (mip : MmapInfo) (len : ℕ)

namespace Access

def inRange : Access → Bool
  | .ios count entries | .stats count entries => count ≤ entries
  | .devpath found => found
  | .window mip len =>
    match mip.fsBuf with
    | .mapped _ fsBufLen => mip.fsOff + len ≤ fsBufLen
    | .null | .failed => false

end Access

/-- What the calls that a message leads to give. -/
structure Env where
  /-- `calloc` of `stats` and of `ios`. -/
  stats : Bool := true
  ios : Bool := true
  /-- `iop_open`, CPU by CPU. -/
  opens : ℕ → Bool := fun _ => true
  calls : Calls := {}

/-- A message of a connection. `data` is what `recv` gives of it, or less than that of an end of file. -/
structure Msg (ν : Type*) where
  conn : ℕ
  hdr : NetHdr ν
  data : List UInt8 := []
  env : Env := {}

/-- `struct cl_host`, with the connections and the files. -/
structure Host (ν : Type*) where
  /-- `nc->ncpus` of the connections that there are. -/
  conns : ℕ → Option Int32 := fun _ => none
  devpaths : List (Devpath ν) := []
  clOpens : ℤ := 0
  /-- How often `net_ch_remove` was called. -/
  removed : ℕ := 0
  /-- What `iop_open` was called for. -/
  opened : List (ν × ℕ) := []
  /-- The files, by device and CPU. -/
  files : ν × ℕ → List UInt8 := fun _ => []
  log : List Access := []
  /-- Behind an `exit`, or behind an access out of range. -/
  halted : Bool := false

inductive Act (ν : Type*)
  /-- `net_add_connection`. -/
  | connect (conn : ℕ)
  | message (m : Msg ν)

variable {ν : Type*} [DecidableEq ν]

namespace Host

def exit (h : Host ν) : Host ν := { h with halted := true }

/-- These accesses, and then the rest. -/
def access (h : Host ν) (as : List Access) (rest : Host ν → Host ν) : Host ν :=
  let h := { h with log := h.log ++ as }
  if as.all Access.inRange then rest h else h.exit

/-- The effect of `nc->ncpus = bnh.max_cpus`, if it is for the first header. -/
def ncpusOf (ncpus : Int32) (hdr : NetHdr ν) : Int32 :=
  if ncpus = -1 then hdr.maxCpus.toInt32 else ncpus

/-- `nc_add_dpp`, with the server's `ndevs`. -/
def addDpp (ndevs : ℕ) (h : Host ν) (ncpus : ℤ) (m : Msg ν)
    (rest : Host ν → Option (Devpath ν) → Host ν) : Host ν :=
  let stats := if m.env.stats ∧ 0 ≤ ncpus then ncpus.toNat else 0
  let ios := if m.env.ios ∧ 0 ≤ ncpus then ncpus.toNat else 0
  let name := m.hdr.butsName
  -- a negative count is a huge `size_t`
  h.access [.stats (ncpus % 2 ^ 64).toNat stats, .ios ndevs ios] fun h =>
    match (List.range ncpus.toNat).find? fun cpu => !m.env.opens cpu with
    | some cpu => h.access [.ios (cpu + 1) ios] fun h => rest h none
    | none =>
      h.access [.ios ncpus.toNat ios] fun h =>
        let keys := (List.range ncpus.toNat).map fun cpu => (name, cpu)
        let dpp : Devpath ν := { butsName := name, ncpus := ncpus.toNat }
        rest { h with
          devpaths := h.devpaths ++ [dpp]
          opened := h.opened ++ keys
          files := fun k => if k ∈ keys then [] else h.files k } (some dpp)

/-- `nc_find_dpp`. -/
def findDpp (ndevs : ℕ) (h : Host ν) (ncpus : ℤ) (m : Msg ν)
    (rest : Host ν → Option (Devpath ν) → Host ν) : Host ν :=
  match h.devpaths.find? fun dpp => dpp.butsName = m.hdr.butsName with
  | some dpp => rest h (some dpp)
  | none => h.addDpp ndevs ncpus m rest

def setDpp (h : Host ν) (dpp : Devpath ν) : Host ν :=
  { h with devpaths := h.devpaths.map fun d => if d.butsName = dpp.butsName then dpp else d }

/-- `net_client_read_data`. -/
def readData (S : Settings) (h : Host ν) (dpp : Devpath ν) (m : Msg ν) : Host ν :=
  let cpu := m.hdr.cpu.toNat
  h.access [.ios (cpu + 1) dpp.ncpus] fun h =>
    let (mip, ret) := (dpp.ios cpu).setup S m.hdr.len.toNat m.env.calls
    if ret ≠ 0 then h.exit
    else h.access [.window mip m.hdr.len.toNat] fun h =>
      let data := m.data.take m.hdr.len.toNat
      -- `ret` is an `int`
      if 2 ^ 31 ≤ data.length then h.exit
      else if data = [] then h.setDpp { dpp with ios := Function.update dpp.ios cpu mip }
      else h.access [.stats (cpu + 1) dpp.ncpus] fun h =>
        let mip := { mip with
          fsSize := (mip.fsSize + data.length) % 2 ^ 64
          fsOff := (mip.fsOff + data.length) % 2 ^ 64 }
        let key := (dpp.butsName, cpu)
        { h.setDpp { dpp with ios := Function.update dpp.ios cpu mip } with
          files := Function.update h.files key (h.files key ++ data) }

/-- `show_stats` and `net_ch_remove`. -/
def chRemove (h : Host ν) (ncpus : ℤ) : Host ν :=
  h.access (h.devpaths.flatMap fun dpp => [.stats dpp.ncpus dpp.ncpus, .ios ncpus.toNat dpp.ncpus])
    fun h =>
      { h with
        conns := fun _ => none
        devpaths := []
        clOpens := 0
        removed := h.removed + 1 }

/-- `net_client_data`, with a header that has come whole, and with a valid magic. -/
def netClientData (S : Settings) (ndevs : ℕ) (h : Host ν) (ncpus : Int32) (m : Msg ν) : Host ν :=
  let ncpus := ncpusOf ncpus m.hdr
  let h := { h with conns := Function.update h.conns m.conn (some ncpus) }
  h.findDpp ndevs ncpus.toInt m fun h dpp? =>
    h.access [.devpath dpp?.isSome] fun h =>
      match dpp? with
      | none => h
      | some dpp =>
        if m.hdr.len = 0 then { h with clOpens := h.clOpens + 1 }
        else if m.hdr.len = 1 then
          let h := h.setDpp { dpp with drops := m.hdr.cpu }
          let h := { h with clOpens := h.clOpens - 1 }
          if h.clOpens = 0 then h.chRemove ncpus.toInt else h
        else h.readData S dpp m

def step (S : Settings) (ndevs : ℕ) (h : Host ν) : Act ν → Option (Host ν)
  | .connect conn =>
    if h.halted ∨ h.conns conn ≠ none then none
    else some { h with conns := Function.update h.conns conn (some (-1)) }
  | .message m =>
    if h.halted then none
    else (h.conns m.conn).map fun ncpus => h.netClientData S ndevs ncpus m

end Host

end Blktrace.Server
