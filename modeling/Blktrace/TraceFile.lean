import Blktrace.Image
import Blktrace.Blkparse.Basic

/-!
# Files of trace records

The record that stands in front of a file, as a reader of either byte order sees it, and files that are
whole records one after another.
-/

namespace Blktrace

open Bytes
open Blkparse (lookNative)

theorem onto_headerLayout (big : Bool) : (headerLayout big).Onto := by
  have h16 : (u16 big).Onto := onto_word (fun _ hn => UInt16.toNat_ofNat_of_lt' hn) big
  have h32 : (u32 big).Onto := onto_word (fun _ hn => UInt32.toNat_ofNat_of_lt' hn) big
  have h64 : (u64 big).Onto := onto_word (fun _ hn => UInt64.toNat_ofNat_of_lt' hn) big
  exact h32.prod <| h32.prod <| h64.prod <| h64.prod <| h32.prod <| h32.prod <| h32.prod <|
    h32.prod <| h32.prod <| h16.prod h16

/-! ## The record in front -/

/-- The record in front of a file, for a reader that takes it for native or not. -/
def recordAt (native : Bool) (file : List UInt8) : BlkIoTrace :=
  let t := traceToCpu native (loadTrace file)
  { t with pdu := (file.drop traceSize).take t.pduLen.toNat }

/-- The length of that record. -/
def recordSize (native : Bool) (file : List UInt8) : ℕ :=
  traceSize + (traceToCpu native (loadTrace file)).pduLen.toNat

/-- A record with all of its payload. -/
def BlkIoTrace.Complete (t : BlkIoTrace) : Prop := t.pdu.length = t.pduLen.toNat

instance (t : BlkIoTrace) : Decidable t.Complete := inferInstanceAs (Decidable (_ = _))

/-- A whole valid record. -/
structure Whole (t : BlkIoTrace) : Prop where
  complete : t.Complete
  valid : verifyTrace t = false

theorem verifyTrace_eq_false {t : BlkIoTrace} :
    verifyTrace t = false ↔ checkMagic t.magic = true ∧ t.magic &&& 0xff = supportedVersion := by
  simp [verifyTrace]

theorem recordAt_header {native : Bool} {file : List UInt8} (h : traceSize ≤ file.length) :
    (recordAt native file).header = (headerLayout (!native)).load file := by
  cases native with
  | true => rfl
  | false =>
    have hload := traceToCpu_loadTrace h
    unfold recordAt
    rw [hload]
    rfl

/-- **A file in which a whole record stands** begins with it. -/
theorem image_recordAt {native : Bool} {file : List UInt8} (h : recordSize native file ≤ file.length) :
    (recordAt native file).image (!native) = file.take (recordSize native file) := by
  have hhead : traceSize ≤ file.length := le_trans (Nat.le_add_right _ _) h
  have hstore := onto_headerLayout (!native) file (by simpa using hhead)
  rw [headerLayout_size] at hstore
  rw [BlkIoTrace.image, recordAt_header hhead, hstore, recordSize, List.take_add]
  rfl

theorem image_append_drop {native : Bool} {file : List UInt8}
    (h : recordSize native file ≤ file.length) :
    (recordAt native file).image (!native) ++ file.drop (recordSize native file) = file := by
  rw [image_recordAt h, List.take_append_drop]

theorem complete_recordAt {native : Bool} {file : List UInt8}
    (h : recordSize native file ≤ file.length) : (recordAt native file).Complete := by
  have hpdu : (recordAt native file).pdu.length = (traceToCpu native (loadTrace file)).pduLen.toNat := by
    apply List.length_take_of_le
    rw [List.length_drop]
    unfold recordSize at h
    omega
  exact hpdu

theorem traceToCpu_image_native (native : Bool) (t : BlkIoTrace) (rest : List UInt8) :
    traceToCpu native (loadTrace (t.image (!native) ++ rest)) = { t with pdu := [] } := by
  have h := traceToCpu_image (!native) t rest
  rwa [Bool.not_not] at h

theorem recordSize_image (native : Bool) {t : BlkIoTrace} (ht : t.Complete) (rest : List UInt8) :
    recordSize native (t.image (!native) ++ rest) = (t.image (!native)).length := by
  rw [recordSize, traceToCpu_image_native, length_image, ht]

theorem recordAt_image (native : Bool) {t : BlkIoTrace} (ht : t.Complete) (rest : List UInt8) :
    recordAt native (t.image (!native) ++ rest) = t := by
  have hdrop : (t.image (!native) ++ rest).drop traceSize = t.pdu ++ rest := by
    rw [BlkIoTrace.image, List.append_assoc]
    exact Layout.drop_store (headerLayout (!native)) t.header (t.pdu ++ rest)
  unfold recordAt
  rw [traceToCpu_image_native, hdrop]
  show { t with pdu := (t.pdu ++ rest).take t.pduLen.toNat } = t
  rw [← ht, List.take_left]

/-! ## The byte order -/

/-- The byte order `n` is decided, or can be yet. -/
def Admits (native : Option Bool) (n : Bool) : Prop := ∀ b ∈ native, b = n

theorem verifyTrace_loadTrace {n : Bool} {t : BlkIoTrace} (h : verifyTrace t = false)
    (rest : List UInt8) :
    verifyTrace (traceToCpu n (loadTrace (t.image (!n) ++ rest))) = false := by
  rw [traceToCpu_image_native]
  exact h

/-- A valid record decides the byte order. -/
theorem lookNative_image {native : Option Bool} {n : Bool} (hn : Admits native n) {t : BlkIoTrace}
    (h : verifyTrace t = false) (rest : List UInt8) :
    lookNative native (loadTrace (t.image (!n) ++ rest)).magic = some n := by
  cases native with
  | none => exact checkDataEndianness_of_valid (verifyTrace_loadTrace h rest)
  | some b => rw [hn b rfl]; rfl

theorem Admits.of_lookNative {native : Option Bool} {magic : UInt32} {n : Bool}
    (h : lookNative native magic = some n) : Admits native n := by
  intro b hb
  rw [Option.mem_def.mp hb] at h
  exact Option.some.inj h

/-! ## Files of whole records -/

/-- The file of these records. -/
def fileOf (big : Bool) (ts : List BlkIoTrace) : List UInt8 := ts.flatMap (BlkIoTrace.image big)

@[simp] theorem fileOf_nil (big : Bool) : fileOf big [] = [] := rfl

@[simp] theorem fileOf_cons (big : Bool) (t : BlkIoTrace) (ts : List BlkIoTrace) :
    fileOf big (t :: ts) = t.image big ++ fileOf big ts := rfl

theorem length_fileOf (big : Bool) (ts : List BlkIoTrace) : ts.length ≤ (fileOf big ts).length := by
  induction ts with
  | nil => exact Nat.le_refl 0
  | cons t ts ih =>
    rw [List.length_cons, fileOf_cons, List.length_append, length_image]
    unfold traceSize
    omega

end Blktrace
