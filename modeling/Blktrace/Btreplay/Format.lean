import Blktrace.Lib.Bytes

/-!
# `btrecord.h`: the file between `btrecord` and `btreplay`

A file header, then bunches of packets, each with a header of its own that says how many packets
follow. Both programs read and write the structures as they lie in memory, so the eight-byte
alignment of `struct io_pkt` leaves four bytes behind `rw` that nobody sets or reads (`pad`).
-/

namespace Blktrace.Btreplay

open Bytes

def btMaxPkts : ℕ := 512

structure IoFileHdr where
  version : UInt64
  genesis : UInt64
  nbunches : UInt64
  totalPkts : UInt64
deriving DecidableEq, Repr

structure IoBunchHdr where
  npkts : UInt64
  timeStamp : UInt64
deriving DecidableEq, Repr

/-- `rw` is 0 for a write, 1 for a read. -/
structure IoPkt where
  sector : UInt64
  nbytes : UInt64
  rw : UInt32
  pad : UInt32
deriving DecidableEq, Repr

/-- `struct io_bunch`; of the array only the first `npkts` entries, which are in use. -/
structure IoBunch where
  hdr : IoBunchHdr
  pkts : List IoPkt
deriving DecidableEq, Repr

/-- `mk_btversion`. -/
def mkBtversion (mjr mnr sub : UInt64) : UInt64 :=
  ((mjr &&& 0xff) <<< 16) ||| ((mnr &&& 0xff) <<< 8) ||| (sub &&& 0xff)

def btverMjr : UInt64 := 1
def btverMnr : UInt64 := 0
def btverSub : UInt64 := 0

/-! ## Layouts -/

def ioFileHdrLayout : Layout IoFileHdr :=
  ((u64 false).prod ((u64 false).prod ((u64 false).prod (u64 false)))).map
    (fun h => ⟨h.1, h.2.1, h.2.2.1, h.2.2.2⟩)
    (fun h => (h.version, h.genesis, h.nbunches, h.totalPkts)) (fun _ => rfl)

def ioBunchHdrLayout : Layout IoBunchHdr :=
  ((u64 false).prod (u64 false)).map (fun h => ⟨h.1, h.2⟩) (fun h => (h.npkts, h.timeStamp))
    (fun _ => rfl)

def ioPktLayout : Layout IoPkt :=
  ((u64 false).prod ((u64 false).prod ((u32 false).prod (u32 false)))).map
    (fun p => ⟨p.1, p.2.1, p.2.2.1, p.2.2.2⟩) (fun p => (p.sector, p.nbytes, p.rw, p.pad))
    (fun _ => rfl)

@[simp] theorem ioFileHdrLayout_size : ioFileHdrLayout.size = 32 := rfl
@[simp] theorem ioBunchHdrLayout_size : ioBunchHdrLayout.size = 16 := rfl
@[simp] theorem ioPktLayout_size : ioPktLayout.size = 24 := rfl

/-- A bunch as it lies in the file. -/
def IoBunch.image (b : IoBunch) : List UInt8 :=
  ioBunchHdrLayout.store b.hdr ++ ioPktLayout.storeAll b.pkts

@[simp] theorem IoBunch.length_image (b : IoBunch) :
    b.image.length = 16 + b.pkts.length * 24 := by
  rw [IoBunch.image, List.length_append, Layout.length_store, Layout.length_storeAll,
    ioBunchHdrLayout_size, ioPktLayout_size]

/-- A bunch that says how many packets it holds, and holds between one and `BT_MAX_PKTS`. -/
structure IoBunch.WF (b : IoBunch) : Prop where
  npkts : b.hdr.npkts.toNat = b.pkts.length
  pos : 1 ≤ b.pkts.length
  le : b.pkts.length ≤ btMaxPkts

/-! ## Outcomes -/

/-- The ways a run ends before its end: `fatal`, which exits, and a violated assertion. -/
inductive Stop
  | fatal
  | assertion
deriving DecidableEq, Repr

/-- `assert`; it checks nothing in a build with `NDEBUG`. -/
def assertThat (ndebug cond : Bool) : Except Stop Unit :=
  if ndebug || cond then .ok () else .error .assertion

@[simp] theorem assertThat_true (ndebug : Bool) : assertThat ndebug true = .ok () := by
  simp [assertThat]

@[simp] theorem ok_bind {α β : Type} (a : α) (f : α → Except Stop β) :
    ((Except.ok a : Except Stop α) >>= f) = f a := rfl

end Blktrace.Btreplay
