import Blktrace.Api
import Blktrace.Lib.Tallies

/-!
# `stats.h` and `blkiomon.h`: the statistics of a device

What `blkiomon` keeps for a device in an interval, how a dispatch and its completion are accounted
in it, and which statistics it is meant to be.
-/

namespace Blktrace.Blkiomon

/-! ## `stats.h` -/

/-- `struct minmax`. -/
structure Minmax where
  min : UInt64
  max : UInt64
  sum : UInt64
  sos : UInt64
  num : UInt64
deriving DecidableEq, Repr

def minmaxInit : Minmax := { min := 0xffffffffffffffff, max := 0, sum := 0, sos := 0, num := 0 }

def minmaxAccount (mm : Minmax) (value : UInt64) : Minmax where
  sum := mm.sum + value
  sos := mm.sos + value * value
  min := if value < mm.min then value else mm.min
  max := if value > mm.max then value else mm.max
  num := mm.num + 1

/-- `struct histlog2`, of at least one bucket. -/
structure Histlog2 where
  first : Int32
  delta : Int32
  num : ℕ
  num_pos : 0 < num := by decide

/-- `histlog2_upper_limit`: the sum is an `int`. -/
def histlog2UpperLimit (index : ℕ) (h : Histlog2) : UInt64 :=
  (h.first + if index ≠ 0 then h.delta <<< Int32.ofNat (index - 1) else 0).toInt64.toUInt64

/-- `histlog2_index`: the first bucket whose limit is not passed, or else the last. -/
def histlog2Index (val : UInt64) (h : Histlog2) : Fin h.num :=
  ⟨(List.range (h.num - 1)).findIdx fun i => decide (val ≤ histlog2UpperLimit i h), by
    have hpos := h.num_pos
    have hle : (List.range (h.num - 1)).findIdx (fun i => decide (val ≤ histlog2UpperLimit i h)) ≤
        (List.range (h.num - 1)).length := List.findIdx_le_length
    rw [List.length_range] at hle
    omega⟩

/-- `histlog2_account`: the value is narrowed to 32 bits. -/
def histlog2Account {h : Histlog2} (bucket : Fin h.num → UInt32) (val : UInt32) :
    Fin h.num → UInt32 :=
  let index := histlog2Index val.toUInt64 h
  Function.update bucket index (bucket index + 1)

/-! ## `blkiomon.h` -/

def sizeHist : Histlog2 := { first := 0, delta := 1024, num := 16 }

def d2cHist : Histlog2 := { first := 0, delta := 8, num := 25 }

/-- `struct blkiomon_stat`. -/
structure BlkiomonStat where
  time : UInt64
  sizeHist : Fin sizeHist.num → UInt32
  d2cHist : Fin d2cHist.num → UInt32
  device : UInt32
  sizeR : Minmax
  sizeW : Minmax
  d2cR : Minmax
  d2cW : Minmax
  thrputR : Minmax
  thrputW : Minmax
  bidir : UInt64
deriving DecidableEq

def blkiomonStatInit : BlkiomonStat where
  time := 0
  sizeHist _ := 0
  d2cHist _ := 0
  device := 0
  sizeR := minmaxInit
  sizeW := minmaxInit
  d2cR := minmaxInit
  d2cW := minmaxInit
  thrputR := minmaxInit
  thrputW := minmaxInit
  bidir := 0

/-! ## `blkiomon_account` -/

def blkTcRead : UInt32 := 0x1

/-- `BLK_DATADIR`. -/
def blkDatadir (a : UInt32) : UInt32 := (a >>> blkTcShift) &&& (blkTcRead ||| blkTcWrite)

section Account

variable (d c : BlkIoTrace)

/-- From the dispatch to the completion, in microseconds. -/
def d2cOf : UInt64 := (c.time - d.time) / 1000

/-- The product has 32 bits, the quotient 64. -/
def thrputOf : UInt64 := (d.bytes * 1000).toUInt64 / d2cOf d c

def isRead : Bool := blkDatadir c.action &&& blkTcRead != 0

def isWrite : Bool := !isRead c && blkDatadir c.action &&& blkTcWrite != 0

/-- The updates that `blkiomon_account` makes to the statistics of the device, in its order. -/
def accountUpdates : List (BlkiomonStat → BlkiomonStat) :=
  (if isRead c then
    [fun p => { p with thrputR := minmaxAccount p.thrputR (thrputOf d c) },
     fun p => { p with sizeR := minmaxAccount p.sizeR d.bytes.toUInt64 },
     fun p => { p with d2cR := minmaxAccount p.d2cR (d2cOf d c) }]
  else if isWrite c then
    [fun p => { p with thrputW := minmaxAccount p.thrputW (thrputOf d c) },
     fun p => { p with sizeW := minmaxAccount p.sizeW d.bytes.toUInt64 },
     fun p => { p with d2cW := minmaxAccount p.d2cW (d2cOf d c) }]
  else
    [fun p => { p with bidir := p.bidir + 1 }]) ++
  [fun p => { p with sizeHist := histlog2Account p.sizeHist d.bytes },
   fun p => { p with d2cHist := histlog2Account p.d2cHist (d2cOf d c).toUInt32 }]

/-- All of them. -/
def accountStat (p : BlkiomonStat) : BlkiomonStat :=
  (accountUpdates d c).foldl (fun p f => f p) p

end Account

end Blktrace.Blkiomon
