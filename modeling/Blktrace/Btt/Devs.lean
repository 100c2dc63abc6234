import Blktrace.Lib.SearchTree
import Blktrace.Api

/-!
# `btt`: devices and the records kept on them

`devs.c`, `dip_rb.c` and the part of `inlines.h` that links a record to its device and releases it. A device
has a tree of records for each kind of event; a record is linked into the tree of its own kind while it
is worked on, and the queued ones stay.
-/

namespace Blktrace.Btt

open SearchTree

/-- `enum iop_type`. -/
inductive IopType
  | q | x | a | g | m | d | c | r | i | s
deriving DecidableEq, Repr

/-- `struct io`, as far as it does not change: which one it is, and the record. -/
structure Iop where
  id : ℕ
  t : BlkIoTrace
deriving DecidableEq

/-- `BIT_START`. -/
def Iop.bitStart (iop : Iop) : UInt64 := iop.t.sector

/-- `BIT_END`. -/
def Iop.bitEnd (iop : Iop) : UInt64 := iop.t.sector + iop.t.tSec.toUInt64

/-- `(__u64)-1`, a time that is not known. -/
def noTime : UInt64 := 0xffffffffffffffff

/-- The times in a `struct io`. -/
structure Times where
  gTime : UInt64 := 0
  iTime : UInt64 := 0
  mTime : UInt64 := 0
  dTime : UInt64 := 0
  sTime : UInt64 := 0

/-- `struct avgs_info`: what an average is taken of. -/
inductive Avg
  | q2qDm | q2aDm | q2cDm | q2q | q2a | q2g | s2g | g2i | q2m | i2d | m2d | d2c | q2c | blks
deriving DecidableEq, Repr

/-- Where a number is handed to: the averages of a device and of all together, either of them alone, the
latency files or the histograms. -/
inductive Report
  | avg (a : Avg)
  | dipAvg (a : Avg)
  | allAvg (a : Avg)
  | latencyQ2d | latencyD2c | latencyQ2c
  | q2dHisto | qHisto | dHisto | unplugHist
deriving DecidableEq, Repr

/-- A number handed over for a device. -/
structure Sample where
  report : Report
  device : UInt32
  value : UInt64
deriving DecidableEq

/-- `struct stats`, less the times in it. Indices are `IOP_RW`. -/
structure Stats where
  rqm : Bool → UInt64 := fun _ => 0
  ios : Bool → UInt64 := fun _ => 0
  sec : Bool → UInt64 := fun _ => 0
  wait : UInt64 := 0
  svctm : UInt64 := 0
  curQusz : ℤ := 0
  curDev : ℤ := 0

/-- `struct d_info`. -/
structure DInfo where
  heads : IopType → RbTree Iop := fun _ => .nil
  preCulling : Bool := true
  stats : Stats := {}
  lastQ : UInt64 := noTime
  nQs : UInt64 := 0
  nDs : UInt64 := 0
  nActQ : UInt64 := 0
  tActQ : UInt64 := 0
  isPlugged : Bool := false
  nplugs : ℕ := 0
  nplugsT : ℕ := 0
  niosUp : UInt64 := 0
  niosUpt : UInt64 := 0

/-- What `add_trace` works on. `linked` has the tree that a record is linked in, and `released` the records
that were released, the last one first. -/
structure State where
  dips : UInt32 → Option DInfo := fun _ => none
  times : ℕ → Times := fun _ => {}
  linked : ℕ → Option IopType := fun _ => none
  ios : ℕ := 0
  lastQ : UInt64 := noTime
  samples : List Sample := []
  released : List ℕ := []

namespace State

/-- The device, or the one that `dip_alloc` makes. -/
def dip (s : State) (device : UInt32) : DInfo := (s.dips device).getD {}

def modifyDip (s : State) (device : UInt32) (f : DInfo → DInfo) : State :=
  { s with dips := Function.update s.dips device (some (f (s.dip device))) }

def modifyTimes (s : State) (id : ℕ) (f : Times → Times) : State :=
  { s with times := Function.update s.times id (f (s.times id)) }

/-- `iop->linked`, with the type. -/
def setLinked (s : State) (id : ℕ) (l : Option IopType) : State :=
  { s with linked := Function.update s.linked id l }

/-- A number is handed over. -/
def report (s : State) (r : Report) (device : UInt32) (value : UInt64) : State :=
  { s with samples := s.samples ++ [⟨r, device, value⟩] }

theorem dip_modifyDip (s : State) (device d : UInt32) (f : DInfo → DInfo) :
    (s.modifyDip device f).dip d = if d = device then f (s.dip device) else s.dip d := by
  show (Function.update s.dips device (some (f (s.dip device))) d).getD {} = _
  split_ifs with h
  · rw [h, Function.update_self]
    rfl
  · rw [Function.update_of_ne h]
    rfl

@[simp] theorem dip_modifyDip_self (s : State) (device : UInt32) (f : DInfo → DInfo) :
    (s.modifyDip device f).dip device = f (s.dip device) := by
  rw [dip_modifyDip, if_pos rfl]

theorem dip_modifyDip_of_ne (s : State) {device d : UInt32} (h : d ≠ device) (f : DInfo → DInfo) :
    (s.modifyDip device f).dip d = s.dip d := by
  rw [dip_modifyDip, if_neg h]

/-- What a change keeps of the device that it is made on, it keeps of all. -/
theorem dip_modifyDip_keeps {β : Type*} (look : DInfo → β) (s : State) (device d : UInt32)
    {f : DInfo → DInfo} (hf : look (f (s.dip device)) = look (s.dip device)) :
    look ((s.modifyDip device f).dip d) = look (s.dip d) := by
  rw [dip_modifyDip]
  split_ifs with h
  · rw [h]
    exact hf
  · rfl

@[simp] theorem times_modifyDip (s : State) (device : UInt32) (f : DInfo → DInfo) :
    (s.modifyDip device f).times = s.times := rfl

@[simp] theorem linked_modifyDip (s : State) (device : UInt32) (f : DInfo → DInfo) :
    (s.modifyDip device f).linked = s.linked := rfl

@[simp] theorem ios_modifyDip (s : State) (device : UInt32) (f : DInfo → DInfo) :
    (s.modifyDip device f).ios = s.ios := rfl

@[simp] theorem samples_modifyDip (s : State) (device : UInt32) (f : DInfo → DInfo) :
    (s.modifyDip device f).samples = s.samples := rfl

@[simp] theorem released_modifyDip (s : State) (device : UInt32) (f : DInfo → DInfo) :
    (s.modifyDip device f).released = s.released := rfl

@[simp] theorem dip_modifyTimes (s : State) (id : ℕ) (f : Times → Times) (d : UInt32) :
    (s.modifyTimes id f).dip d = s.dip d := rfl

@[simp] theorem dip_setLinked (s : State) (id : ℕ) (l : Option IopType) (d : UInt32) :
    (s.setLinked id l).dip d = s.dip d := rfl

@[simp] theorem linked_setLinked (s : State) (id : ℕ) (l : Option IopType) :
    (s.setLinked id l).linked = Function.update s.linked id l := rfl

@[simp] theorem dip_report (s : State) (r : Report) (device : UInt32) (value : UInt64) (d : UInt32) :
    (s.report r device value).dip d = s.dip d := rfl

@[simp] theorem times_report (s : State) (r : Report) (device : UInt32) (value : UInt64) :
    (s.report r device value).times = s.times := rfl

end State

/-! ## `dip_rb.c` -/

section

variable (bal : Balancer Iop)

/-- `rb_insert`: `none` is the 0 it returns. -/
def rbInsert (root : RbTree Iop) (iop : Iop) : Option (RbTree Iop) :=
  (root.link Iop.bitStart iop).map (bal.insertColor iop)

/-- `rb_find_sec`. -/
def rbFindSec (root : RbTree Iop) (sec : UInt64) : Option Iop := root.find Iop.bitStart Iop.bitEnd sec

/-- `rb_foreach`, with a list to add to. -/
def rbForeach (root : RbTree Iop) (iop : Iop) : List Iop :=
  root.covered Iop.bitStart Iop.bitEnd iop.bitStart iop.bitEnd

/-! ## `devs.c` -/

namespace State

/-- `dip_find_sec`. -/
def dipFindSec (s : State) (device : UInt32) (type : IopType) (sec : UInt64) : Option Iop :=
  rbFindSec ((s.dip device).heads type) sec

/-- `dip_foreach_list`. -/
def dipForeachList (s : State) (iop : Iop) (type : IopType) : List Iop :=
  rbForeach ((s.dip iop.t.device).heads type) iop

/-- The record is in the tree of its type, which is `root` then. -/
def link (s : State) (iop : Iop) (type : IopType) (root : RbTree Iop) : State :=
  (s.modifyDip iop.t.device fun p =>
    { p with preCulling := false, heads := Function.update p.heads type root }).setLinked iop.id (some type)

/-- And out of it. -/
def unlink (s : State) (iop : Iop) (type : IopType) (root : RbTree Iop) : State :=
  (s.modifyDip iop.t.device fun p => { p with heads := Function.update p.heads type root }).setLinked
    iop.id none

/-- `dip_alloc`, as `io_setup` calls it: the device is there from then on, and takes no record before its
first Q or A. -/
def ioSetup (s : State) (iop : Iop) (type : IopType) : State :=
  let dip := s.dip iop.t.device
  if dip.preCulling ∧ type ≠ .q ∧ type ≠ .a then s.modifyDip iop.t.device id
  else
    match rbInsert bal (dip.heads type) iop with
    | none => s.modifyDip iop.t.device fun p => { p with preCulling := false }
    | some root => s.link iop type root

/-- What `io_setup` returns. -/
def isLinked (s : State) (iop : Iop) : Bool := (s.linked iop.id).isSome

/-- `iop_rem_dip`. -/
def iopRemDip (s : State) (iop : Iop) : State :=
  match s.linked iop.id with
  | none => s
  | some type => s.unlink iop type (bal.erase iop ((s.dip iop.t.device).heads type))

/-- `io_release`. -/
def ioRelease (s : State) (iop : Iop) : State :=
  let s := s.iopRemDip bal iop
  { s with released := iop.id :: s.released }

/-- `dip_plug`. -/
def dipPlug (s : State) (device : UInt32) : State :=
  match s.dips device with
  | none => s
  | some _ => s.modifyDip device fun p => { p with isPlugged := true }

/-- `dip_unplug`. -/
def dipUnplug (s : State) (device : UInt32) (niosUp : UInt64) : State :=
  match s.dips device with
  | none => s
  | some dip =>
    if dip.isPlugged then
      s.modifyDip device fun p =>
        { p with nplugs := p.nplugs + 1, niosUp := p.niosUp + niosUp, isPlugged := false }
    else s

/-- `dip_unplug_tm`. -/
def dipUnplugTm (s : State) (device : UInt32) (niosUp : UInt64) : State :=
  match s.dips device with
  | none => s
  | some dip =>
    if dip.isPlugged then
      s.modifyDip device fun p =>
        { p with niosUpt := p.niosUpt + niosUp, nplugsT := p.nplugsT + 1, isPlugged := false }
    else s

end State

end

end Blktrace.Btt
