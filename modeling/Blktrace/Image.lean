import Blktrace.Api
import Blktrace.Lib.Bytes

/-!
# The trace record in memory

The 48 bytes of `struct blk_io_trace`, as a machine of either byte order writes them, and what a
little-endian host finds when it reads them as the structure. `bswap16`, `bswap32` and `bswap64`
are the reversals of a word's bytes, so that `trace_to_cpu` undoes the writer's byte order.
-/

namespace Blktrace

open Bytes

/-! ## Swapped words -/

theorem ofNat_bswap16 (x : UInt16) : ofNat 2 (bswap16 x).toNat = (ofNat 2 x.toNat).reverse := by
  apply ofNat_eq_reverse
  intro k hk i hi
  show (bswap16 x).toBitVec.getLsbD _ = x.toBitVec.getLsbD _
  interval_cases k <;> interval_cases i <;> simp [bswap16]

/-- Where bit `j` of a swapped word comes from. -/
theorem getLsbD_bswap32 (x : UInt32) {j : ℕ} (hj : j < 32) :
    (bswap32 x).toBitVec.getLsbD j = x.toBitVec.getLsbD (8 * (3 - j / 8) + j % 8) := by
  interval_cases j <;> simp [bswap32]

theorem getLsbD_bswap64 (x : UInt64) {j : ℕ} (hj : j < 64) :
    (bswap64 x).toBitVec.getLsbD j = x.toBitVec.getLsbD (8 * (7 - j / 8) + j % 8) := by
  have hor : (bswap64 x).toBitVec.getLsbD j =
      (decide (32 ≤ j) && (bswap32 x.toUInt32).toBitVec.getLsbD (j - 32) ||
        (bswap32 (x >>> 32).toUInt32).toBitVec.getLsbD j) := by
    by_cases hlow : j < 32
    · simp [bswap64, hj, hlow]
    · simp [bswap64, hj, hlow, not_lt.mp hlow]
  rw [hor]
  by_cases hlow : j < 32
  · rw [getLsbD_bswap32 _ hlow]
    have hbyte : 8 * (3 - j / 8) + j % 8 < 32 := by omega
    have hbit : 8 * (7 - j / 8) + j % 8 = 32 + (8 * (3 - j / 8) + j % 8) := by omega
    rw [hbit]
    simp [hlow, hbyte]
  · rw [getLsbD_bswap32 _ (show j - 32 < 32 by omega)]
    have hhigh : (bswap32 (x >>> 32).toUInt32).toBitVec.getLsbD j = false :=
      BitVec.getLsbD_of_ge _ _ (not_lt.mp hlow)
    have hbyte : 8 * (3 - (j - 32) / 8) + (j - 32) % 8 = 8 * (7 - j / 8) + j % 8 := by omega
    have hlt : 8 * (7 - j / 8) + j % 8 < 32 := by omega
    rw [hhigh, hbyte]
    simp [not_lt.mp hlow, hlt]

theorem ofNat_bswap32 (x : UInt32) : ofNat 4 (bswap32 x).toNat = (ofNat 4 x.toNat).reverse := by
  apply ofNat_eq_reverse
  intro k hk i hi
  show (bswap32 x).toBitVec.getLsbD _ = x.toBitVec.getLsbD _
  rw [getLsbD_bswap32 x (by omega)]
  congr 1
  omega

theorem ofNat_bswap64 (x : UInt64) : ofNat 8 (bswap64 x).toNat = (ofNat 8 x.toNat).reverse := by
  apply ofNat_eq_reverse
  intro k hk i hi
  show (bswap64 x).toBitVec.getLsbD _ = x.toBitVec.getLsbD _
  rw [getLsbD_bswap64 x (by omega)]
  congr 1
  omega

theorem u16_load_true {bs : List UInt8} (h : 2 ≤ bs.length) :
    (u16 true).load bs = bswap16 ((u16 false).load bs) :=
  word_load_true (fun _ hn => UInt16.toNat_ofNat_of_lt' hn) ofNat_bswap16 h

theorem u32_load_true {bs : List UInt8} (h : 4 ≤ bs.length) :
    (u32 true).load bs = bswap32 ((u32 false).load bs) :=
  word_load_true (fun _ hn => UInt32.toNat_ofNat_of_lt' hn) ofNat_bswap32 h

theorem u64_load_true {bs : List UInt8} (h : 8 ≤ bs.length) :
    (u64 true).load bs = bswap64 ((u64 false).load bs) :=
  word_load_true (fun _ hn => UInt64.toNat_ofNat_of_lt' hn) ofNat_bswap64 h

/-! ## The record -/

/-- The members of the structure in order; there is no padding between them. -/
abbrev Header :=
  UInt32 × UInt32 × UInt64 × UInt64 × UInt32 × UInt32 × UInt32 × UInt32 × UInt32 × UInt16 × UInt16

def headerLayout (big : Bool) : Layout Header :=
  (u32 big).prod <| (u32 big).prod <| (u64 big).prod <| (u64 big).prod <| (u32 big).prod <|
    (u32 big).prod <| (u32 big).prod <| (u32 big).prod <| (u32 big).prod <|
    (u16 big).prod (u16 big)

/-- `sizeof(struct blk_io_trace)`. -/
def traceSize : ℕ := 48

@[simp] theorem headerLayout_size (big : Bool) : (headerLayout big).size = traceSize := rfl

def BlkIoTrace.header (t : BlkIoTrace) : Header :=
  (t.magic, t.sequence, t.time, t.sector, t.bytes, t.action, t.pid, t.device, t.cpu, t.error,
    t.pduLen)

def Header.record : Header → BlkIoTrace
  | (magic, sequence, time, sector, bytes, action, pid, device, cpu, error, pduLen) =>
    { magic, sequence, time, sector, bytes, action, pid, device, cpu, error, pduLen, pdu := [] }

/-- The record as a machine writes it, `big` a big-endian one, with its payload behind it. -/
def BlkIoTrace.image (big : Bool) (t : BlkIoTrace) : List UInt8 :=
  (headerLayout big).store t.header ++ t.pdu

/-- What the host sees in the first bytes of a buffer. -/
def loadTrace (bs : List UInt8) : BlkIoTrace := Header.record ((headerLayout false).load bs)

@[simp] theorem record_header (t : BlkIoTrace) : t.header.record = { t with pdu := [] } := rfl

@[simp] theorem length_image (big : Bool) (t : BlkIoTrace) :
    (t.image big).length = traceSize + t.pdu.length := by
  rw [BlkIoTrace.image, List.length_append, Layout.length_store, headerLayout_size]

/-- A converted header is the header as the other byte order lays it out. -/
theorem traceToCpu_loadTrace {bs : List UInt8} (h : traceSize ≤ bs.length) :
    traceToCpu false (loadTrace bs) = Header.record ((headerLayout true).load bs) := by
  unfold traceSize at h
  have hlen : ∀ n, n ≤ 44 → 4 ≤ (bs.drop n).length := by
    intro n hn
    rw [List.length_drop]
    omega
  have hlen' : ∀ n, n ≤ 40 → 8 ≤ (bs.drop n).length := by
    intro n hn
    rw [List.length_drop]
    omega
  have hlast : 2 ≤ (bs.drop 46).length := by
    rw [List.length_drop]
    omega
  simp only [loadTrace, headerLayout, Layout.prod, Header.record, traceToCpu, u16_size, u32_size,
    u64_size, List.drop_drop, Nat.reduceAdd]
  rw [u32_load_true (by omega), u32_load_true (hlen 4 (by omega)), u64_load_true (hlen' 8 (by omega)),
    u64_load_true (hlen' 16 (by omega)), u32_load_true (hlen 24 (by omega)),
    u32_load_true (hlen 28 (by omega)), u32_load_true (hlen 32 (by omega)),
    u32_load_true (hlen 36 (by omega)), u32_load_true (hlen 40 (by omega)),
    u16_load_true (le_trans (by omega) (hlen 44 (by omega))), u16_load_true hlast]
  rfl

/-- **`trace_to_cpu` undoes the byte order of the writer.** -/
theorem traceToCpu_image (big : Bool) (t : BlkIoTrace) (rest : List UInt8) :
    traceToCpu (!big) (loadTrace (t.image big ++ rest)) = { t with pdu := [] } := by
  cases big with
  | false =>
    show Header.record ((headerLayout false).load _) = _
    rw [BlkIoTrace.image, List.append_assoc, Layout.load_store, record_header]
  | true =>
    show traceToCpu false _ = _
    rw [traceToCpu_loadTrace (by simp; omega), BlkIoTrace.image, List.append_assoc,
      Layout.load_store, record_header]

end Blktrace
