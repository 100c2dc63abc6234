import Blktrace.TraceFile
import Blktrace.Blkparse.Basic

/-!
# `blkrawverify.c`: the verdict on a file

`process` reads the file of a CPU record by record, counts what it finds bad, and returns the count.
-/

namespace Blktrace.Blkrawverify

open Blkparse (lookNative)

/-- What `process` keeps from record to record. -/
structure Verify where
  ngood : UInt32 := 0
  nbad : UInt32 := 0
  nbadTrace : UInt32 := 0
  nbadPdu : UInt32 := 0
  nbadCpu : UInt32 := 0
  nbadSeq : UInt32 := 0
  nbadDev : UInt32 := 0
  nbadTime : UInt32 := 0
  saveSequence : UInt32 := 0
  saveDevice : UInt32 := 0
  saveTime : UInt64 := 0
deriving DecidableEq, Repr

/-- `INC_BAD`, without the dump. -/
def Verify.incBad (s : Verify) : Verify := { s with nbad := s.nbad + 1 }

/-- The end of an iteration, with the whole record there. -/
def Verify.record (cpu : UInt32) (s : Verify) (bit : BlkIoTrace) : Verify :=
  if bit.cpu ≠ cpu then { s.incBad with nbadCpu := s.nbadCpu + 1 }
  else if bit.hasTc blkTcNotify then s
  else if s.ngood ≠ 0 ∧ bit.sequence ≤ s.saveSequence then
    { s.incBad with nbadSeq := s.nbadSeq + 1 }
  else if s.ngood ≠ 0 ∧ bit.time ≤ s.saveTime then
    { s.incBad with nbadTime := s.nbadTime + 1 }
  else if s.ngood ≠ 0 ∧ bit.device ≠ s.saveDevice then
    { s.incBad with nbadDev := s.nbadDev + 1 }
  else
    { s with
      saveSequence := bit.sequence
      saveTime := bit.time
      saveDevice := bit.device
      ngood := s.ngood + 1 }

/-- The loop of `process` on what is left of the file, and `data_is_native` after it. An unsupported
version ends it, and so does a header or a payload that cannot be read. -/
def loop (cpu : UInt32) : ℕ → Option Bool → Verify → List UInt8 → Option Bool × Verify
  | 0, native, s, _ => (native, s)
  | fuel + 1, native, s, file =>
    if file.length < traceSize then (native, s)
    else
      let native := lookNative native (loadTrace file).magic
      let bit := recordAt (native.getD true) file
      if !checkMagic bit.magic then loop cpu fuel native s.incBad (file.drop traceSize)
      else if bit.magic &&& 0xff ≠ supportedVersion then (native, s)
      else if file.length < recordSize (native.getD true) file then
        (native, { s.incBad with nbadSeq := s.nbadSeq + 1 })
      else loop cpu fuel native (s.record cpu bit) (file.drop (recordSize (native.getD true) file))

/-- `process` on a file that can be opened: the number it returns. -/
def process (native : Option Bool) (cpu : UInt32) (file : List UInt8) : UInt32 :=
  (loop cpu file.length native {} file).2.nbad

/-! ## What a good file is -/

/-- A record in its own file. -/
structure Good (cpu : UInt32) (t : BlkIoTrace) : Prop where
  complete : t.Complete
  valid : verifyTrace t = false
  cpu : t.cpu = cpu

/-- A record that comes after another. -/
structure Follows (a b : BlkIoTrace) : Prop where
  sequence : a.sequence < b.sequence
  time : a.time < b.time
  device : a.device = b.device

/-- The records that have sequence numbers of their own. -/
def sequenced (ts : List BlkIoTrace) : List BlkIoTrace := ts.filter fun t => !t.hasTc blkTcNotify

/-- Whole records of the CPU in a byte order, in order. -/
def Verified (big : Bool) (cpu : UInt32) (file : List UInt8) : Prop :=
  ∃ ts, file = fileOf big ts ∧ (∀ t ∈ ts, Good cpu t) ∧ (sequenced ts).Pairwise Follows

/-! ## How a file is cut up -/

/-- A header that is none, or a record. -/
inductive Item
  | junk
  | record (t : BlkIoTrace)

/-- Where the reading ends: at the end of the file, in a header, in a payload or at a version. -/
inductive Ending
  | eof | cutHeader | cutPayload | unsupported
deriving DecidableEq

/-- What the file of a reader is cut up into. -/
def survey : ℕ → Option Bool → List UInt8 → List Item × Ending
  | 0, _, _ => ([], .eof)
  | fuel + 1, native, file =>
    if file = [] then ([], .eof)
    else if file.length < traceSize then ([], .cutHeader)
    else
      let native := lookNative native (loadTrace file).magic
      let t := recordAt (native.getD true) file
      if !checkMagic t.magic then
        let rest := survey fuel native (file.drop traceSize)
        (.junk :: rest.1, rest.2)
      else if t.magic &&& 0xff ≠ supportedVersion then ([], .unsupported)
      else if file.length < recordSize (native.getD true) file then ([], .cutPayload)
      else
        let rest := survey fuel native (file.drop (recordSize (native.getD true) file))
        (.record t :: rest.1, rest.2)

/-- One item of it. -/
def Verify.item (cpu : UInt32) (s : Verify) : Item → Verify
  | .junk => s.incBad
  | .record t => s.record cpu t

/-- The end of it. -/
def Verify.close (s : Verify) : Ending → Verify
  | .cutPayload => { s.incBad with nbadSeq := s.nbadSeq + 1 }
  | .eof | .cutHeader | .unsupported => s

theorem loop_eq (cpu : UInt32) (fuel : ℕ) (native : Option Bool) (s : Verify) (file : List UInt8) :
    (loop cpu fuel native s file).2 =
      ((survey fuel native file).1.foldl (Verify.item cpu) s).close (survey fuel native file).2 := by
  induction fuel generalizing native s file with
  | zero => rfl
  | succ fuel ih =>
    unfold loop survey
    by_cases hnil : file = []
    · rw [hnil]
      rfl
    rw [if_neg hnil]
    by_cases hshort : file.length < traceSize
    · rw [if_pos hshort, if_pos hshort]
      rfl
    rw [if_neg hshort, if_neg hshort]
    dsimp only
    split_ifs
    · exact ih _ _ _
    · rfl
    · rfl
    · exact ih _ _ _

end Blktrace.Blkrawverify
