import Blktrace.Btt.Mmap
import Blktrace.TraceFile

/-!
# `btt/mmap.c`: the window

`next_trace` reads the record at `cur` through a window that is mapped. It moves the window to the page
of `cur` when less than 512 bytes of it are left, which need not be all of the record. What it reads
is taken from the file here, behind whose end there are zeros, and `Read` says whether it was mapped.
-/

namespace Blktrace.Btt

/-- `DEF_LEN`. -/
def defLen : ℕ := 16 * 1024 * 1024

/-- The static variables, without those that do not change; `len` is `curMax - curMin`. -/
structure Window where
  native : Option Bool := none
  cur : ℕ := 0
  curMin : ℕ := 0
  curMax : ℕ := 0

/-- `cur & ~(pgsz-1)`, where a page has `2 ^ page` bytes. -/
def pageBase (page cur : ℕ) : ℕ := cur / 2 ^ page * 2 ^ page

/-- An `off_t` that is taken for a `size_t`. -/
def sizeT (x : ℤ) : ℕ := if 0 ≤ x then x.toNat else (x + 2 ^ 64).toNat

/-- `move_map`, with what it returns. -/
def Window.moveMap (page total : ℕ) (s : Window) : Window × Bool :=
  let curMin := pageBase page s.cur
  let len := min defLen (sizeT ((total : ℤ) - curMin))
  if len < traceSize then ({ s with curMin }, false)
  else ({ s with curMin, curMax := curMin + len }, s.cur < curMin + len)

/-- `setup_ifile`; `none` where it exits. -/
def setupIfile (page total : ℕ) : Option Window :=
  match Window.moveMap page total {} with
  | (s, true) => some s
  | (_, false) => none

/-- The bytes a call reads, and the window it reads them through. -/
structure Read where
  start : ℕ
  stop : ℕ
  curMin : ℕ
  curMax : ℕ
deriving DecidableEq

/-- `next_trace`: the record it stores and the bytes it reads for it, `none` where it returns 0. -/
def nextTrace (page : ℕ) (file : List UInt8) (s : Window) : Window × Option (BlkIoTrace × Read) :=
  let moved := if s.curMax < s.cur + 512 then s.moveMap page file.length else (s, true)
  let s := moved.1
  if !moved.2 then (s, none)
  else
    let (native, t, thisLen) := convertToCpu s.native (file.drop s.cur)
    ({ s with native, cur := s.cur + thisLen }, some (t, ⟨s.cur, s.cur + thisLen, s.curMin, s.curMax⟩))

/-- So many calls: the records, what was read, and whether a call returned 0. -/
def calls (page : ℕ) (file : List UInt8) : ℕ → Window → List BlkIoTrace × List Read × Bool
  | 0, _ => ([], [], false)
  | n + 1, s =>
    match nextTrace page file s with
    | (_, none) => ([], [], true)
    | (s, some (t, read)) =>
      let rest := calls page file n s
      (t :: rest.1, read :: rest.2.1, rest.2.2)

def Read.Mapped (r : Read) : Prop := r.curMin ≤ r.start ∧ r.stop ≤ r.curMax

/-! ## One call -/

theorem pageBase_le (page cur : ℕ) : pageBase page cur ≤ cur := Nat.div_mul_le_self _ _

theorem sizeT_sub {total base : ℕ} (h : base ≤ total) : sizeT ((total : ℤ) - base) = total - base := by
  unfold sizeT
  rw [if_pos (by omega)]
  omega

/-- Where the window ends when the record at `cur` is read. -/
def windowEnd (page total curMax cur : ℕ) : ℕ :=
  if curMax < cur + 512 then min (pageBase page cur + defLen) total else curMax

/-- The call goes on to read the record: it does not move the window, or the moved one has a header's
length and gets to the record. -/
def Opens (page total curMax cur : ℕ) : Prop :=
  curMax < cur + 512 →
    traceSize ≤ total - pageBase page cur ∧ cur < min (pageBase page cur + defLen) total

instance (page total curMax cur : ℕ) : Decidable (Opens page total curMax cur) := by
  unfold Opens
  infer_instance

theorem moveMap_eq {page total : ℕ} {s : Window} (h : s.cur ≤ total) :
    (s.moveMap page total).2 = decide (traceSize ≤ total - pageBase page s.cur ∧
      s.cur < min (pageBase page s.cur + defLen) total) ∧
    ((s.moveMap page total).2 = true → (s.moveMap page total).1 =
      { s with
        curMin := pageBase page s.cur
        curMax := min (pageBase page s.cur + defLen) total }) := by
  have hbase := pageBase_le page s.cur
  have hmax : pageBase page s.cur + min defLen (total - pageBase page s.cur) =
      min (pageBase page s.cur + defLen) total := by omega
  unfold Window.moveMap
  dsimp only
  rw [sizeT_sub (hbase.trans h), hmax]
  have hlen : traceSize ≤ defLen := by decide
  split_ifs with hshort
  · refine ⟨(decide_eq_false fun hopen => ?_).symm, nofun⟩
    have hlong := hopen.1
    omega
  · refine ⟨decide_eq_decide.mpr ⟨fun hlt => ⟨?_, hlt⟩, And.right⟩, fun _ => rfl⟩
    omega

/-- The window of a call that reads. -/
theorem nextTrace_of_opens {page : ℕ} {file : List UInt8} {s : Window} (hcur : s.cur ≤ file.length)
    (h : Opens page file.length s.curMax s.cur) :
    ∃ curMin, (s.curMin ≤ s.cur → curMin ≤ s.cur) ∧
      nextTrace page file s =
        let read := convertToCpu s.native (file.drop s.cur)
        let curMax := windowEnd page file.length s.curMax s.cur
        ({ native := read.1, cur := s.cur + read.2.2, curMin, curMax },
          some (read.2.1, ⟨s.cur, s.cur + read.2.2, curMin, curMax⟩)) := by
  unfold nextTrace windowEnd
  by_cases hmove : s.curMax < s.cur + 512
  · obtain ⟨hret, hwindow⟩ := @moveMap_eq page file.length s hcur
    have htrue : (s.moveMap page file.length).2 = true := by
      rw [hret]
      exact decide_eq_true (h hmove)
    refine ⟨pageBase page s.cur, fun _ => pageBase_le page s.cur, ?_⟩
    simp only [if_pos hmove, htrue, hwindow htrue, Bool.not_true, Bool.false_eq_true, if_false]
  · refine ⟨s.curMin, id, ?_⟩
    simp only [if_neg hmove, Bool.not_true, Bool.false_eq_true, if_false]

theorem nextTrace_of_not_opens {page : ℕ} {file : List UInt8} {s : Window}
    (hcur : s.cur ≤ file.length) (h : ¬ Opens page file.length s.curMax s.cur) :
    (nextTrace page file s).2 = none := by
  obtain ⟨hmove, hshut⟩ := Classical.not_imp.mp h
  obtain ⟨hret, -⟩ := @moveMap_eq page file.length s hcur
  unfold nextTrace
  simp only [if_pos hmove]
  rw [hret, decide_eq_false hshut]
  rfl

/-! ## The record that is read -/

/-- A record of the other byte order comes back with the upper half of its CPU number. -/
def asRead (big : Bool) (t : BlkIoTrace) : BlkIoTrace :=
  if big then { t with cpu := t.cpu >>> 16 } else t

theorem getLsbD_bswap16 (x : UInt16) {j : ℕ} (hj : j < 16) :
    (bswap16 x).toBitVec.getLsbD j = x.toBitVec.getLsbD (8 * (1 - j / 8) + j % 8) := by
  interval_cases j <;> simp [bswap16]

/-- The upper half of a swapped number, swapped as a number of 16 bits. -/
theorem bswap16_bswap32 (x : UInt32) : (bswap16 (bswap32 x).toUInt16).toUInt32 = x >>> 16 := by
  apply UInt32.toBitVec_inj.mp
  apply BitVec.eq_of_getLsbD_eq
  intro i hi
  have hshift : (x >>> 16).toBitVec.getLsbD i = x.toBitVec.getLsbD (16 + i) := by simp
  rw [hshift, UInt16.toBitVec_toUInt32, BitVec.getLsbD_setWidth]
  by_cases hlow : i < 16
  · rw [getLsbD_bswap16 _ hlow, UInt32.toBitVec_toUInt16, BitVec.getLsbD_setWidth,
      getLsbD_bswap32 _ (by omega)]
    have hbit : 8 * (3 - (8 * (1 - i / 8) + i % 8) / 8) + (8 * (1 - i / 8) + i % 8) % 8 = 16 + i := by
      omega
    have hin : 8 * (1 - i / 8) + i % 8 < 16 := by omega
    rw [hbit]
    simp [hi, hin]
  · rw [BitVec.getLsbD_of_ge _ _ (not_lt.mp hlow), BitVec.getLsbD_of_ge _ _ (by omega)]
    simp

theorem asRead_eq_iff {big : Bool} {t : BlkIoTrace} :
    asRead big t = t ↔ big = true → t.cpu = 0 := by
  cases big with
  | false => exact iff_of_true rfl nofun
  | true =>
    constructor
    · intro h _
      have hcpu : t.cpu >>> 16 = t.cpu := congrArg (·.cpu) h
      rw [← UInt32.toNat_inj, UInt32.toNat_shiftRight] at hcpu
      rw [← UInt32.toNat_inj]
      have hdiv : t.cpu.toNat / 2 ^ 16 = t.cpu.toNat := (Nat.shiftRight_eq_div_pow _ 16).symm.trans hcpu
      show t.cpu.toNat = 0
      omega
    · intro h
      show { t with cpu := t.cpu >>> 16 } = t
      rw [h rfl]
      have hzero : (0 : UInt32) >>> 16 = t.cpu := (h rfl).symm
      rw [hzero]

/-- From the header `trace_to_cpu` would give. -/
theorem convertHeader_eq {big : Bool} {t u : BlkIoTrace} (h : traceToCpu (!big) t = u) :
    convertHeader (!big) t = asRead big u := by
  subst h
  cases big with
  | false => rfl
  | true =>
    have hcpu : (bswap16 t.cpu.toUInt16).toUInt32 = bswap32 t.cpu >>> 16 := by
      rw [← bswap16_bswap32, bswap32_bswap32]
    simp only [convertHeader, asRead, traceToCpu, Bool.not_true, Bool.false_eq_true, if_false, if_true,
      hcpu]

/-- The header that is converted, in a byte order that is decided or can be. -/
theorem convertHeader_image {native : Option Bool} {big : Bool} (hn : Admits native !big)
    {t : BlkIoTrace} (h : verifyTrace t = false) (rest : List UInt8) :
    Blkparse.lookNative native (loadTrace (t.image big ++ rest)).magic = some !big ∧
      convertHeader (!big) (loadTrace (t.image big ++ rest)) = asRead big { t with pdu := [] } := by
  have hlook := lookNative_image hn h rest
  have hload := traceToCpu_image_native (!big) t rest
  rw [Bool.not_not] at hlook hload
  exact ⟨hlook, convertHeader_eq hload⟩

/-- What a header takes up. -/
theorem convertToCpu_header {native : Option Bool} {big : Bool} (hn : Admits native !big)
    {t : BlkIoTrace} (h : verifyTrace t = false) (rest : List UInt8) :
    (convertToCpu native (t.image big ++ rest)).2.2 = traceSize + t.pduLen.toNat := by
  obtain ⟨hlook, hhead⟩ := convertHeader_image hn h rest
  unfold convertToCpu
  dsimp only
  rw [hlook, Option.getD_some, hhead]
  cases big <;> rfl

/-- The number of bytes of a record. -/
def recordLength (t : BlkIoTrace) : ℕ := traceSize + t.pdu.length

/-- **A whole record** is read. -/
theorem convertToCpu_image {native : Option Bool} {big : Bool} (hn : Admits native !big)
    {t : BlkIoTrace} (h : Whole t) (rest : List UInt8) :
    convertToCpu native (t.image big ++ rest) = (some !big, asRead big t, recordLength t) := by
  obtain ⟨hlook, hhead⟩ := convertHeader_image hn h.valid rest
  have hdrop : (t.image big ++ rest).drop traceSize = t.pdu ++ rest := by
    rw [BlkIoTrace.image, List.append_assoc]
    exact Bytes.Layout.drop_store (headerLayout big) t.header (t.pdu ++ rest)
  have hpdu : (asRead big { t with pdu := [] }).pduLen = t.pduLen := by cases big <;> rfl
  have htake : (t.pdu ++ rest).take t.pduLen.toNat = t.pdu := by
    rw [← h.complete, List.take_left]
  unfold convertToCpu recordLength
  dsimp only
  rw [hlook, Option.getD_some, hhead, hdrop, hpdu, htake, h.complete]
  cases big <;> rfl

end Blktrace.Btt
