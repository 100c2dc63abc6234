import Blktrace.Btt.Mmap
import Blktrace.Btreplay.Btrecord

/-!
# The three record decoders

`trace_to_cpu` of `blkparse`, `convert_to_cpu` of `btt` and the branches of `next_io` in
`btrecord` decode the same 48 bytes. They agree on every member but the CPU number, which `btt`
swaps as if it had 16 bits.
-/

namespace Blktrace

open Bytes Btreplay

/-- What the decoders make of one header is the same, for the members each of them has. -/
structure Agree (native : Bool) (hdr : List UInt8) : Prop where
  btt : (Btt.convertToCpu (some native) hdr).2.1 = traceToCpu native (loadTrace hdr)
  btrecord : ioFields native (loadTrace hdr) = ioFields true (traceToCpu native (loadTrace hdr))

/-- The record `r` as a machine of the other byte order writes it is decoded to `r`. -/
structure DecodesBack (r : Header) : Prop where
  blkparse : traceToCpu false (loadTrace ((headerLayout true).store r)) = r.record
  btt : (Btt.convertToCpu (some false) ((headerLayout true).store r)).2.1 = r.record
  btrecord : ioFields false (loadTrace ((headerLayout true).store r)) = ioFields true r.record

/-- Swapped as 16 bits, a CPU number comes out right only if it is 0: the lower half of what is
read holds the upper half of the number. -/
theorem bswap16_eq_bswap32_iff (x : UInt32) :
    (bswap16 x.toUInt16).toUInt32 = bswap32 x ↔ x = 0 := by
  refine ⟨fun h => ?_, fun h => by rw [h]; decide⟩
  have hlow : x.toUInt16 = 0 := by
    apply UInt16.toBitVec_inj.mp
    apply BitVec.eq_of_getLsbD_eq
    intro i hi
    -- bit `i` of `x` is a bit of the upper half of the swapped word
    have hbit := getLsbD_bswap32 x (j := 8 * (3 - i / 8) + i % 8) (by omega)
    rw [← h] at hbit
    have hback : 8 * (3 - (8 * (3 - i / 8) + i % 8) / 8) + (8 * (3 - i / 8) + i % 8) % 8 = i := by
      omega
    have hge : 16 ≤ 8 * (3 - i / 8) + i % 8 := by omega
    have hupper := BitVec.getLsbD_of_ge (bswap16 x.toUInt16).toBitVec _ hge
    rw [hback] at hbit
    simpa [hi, hupper] using hbit.symm
  rw [hlow] at h
  have hzero : bswap32 x = 0 := by
    rw [← h]
    decide
  rw [← bswap32_bswap32 x, hzero]
  decide

theorem convertHeader_eq_iff (native : Bool) (t : BlkIoTrace) :
    Btt.convertHeader native t = traceToCpu native t ↔ native = true ∨ t.cpu = 0 := by
  cases native with
  | true => exact ⟨fun _ => .inl rfl, fun _ => rfl⟩
  | false =>
    rw [← bswap16_eq_bswap32_iff]
    refine ⟨fun h => .inr (congrArg BlkIoTrace.cpu h), fun h => ?_⟩
    have hcpu := h.resolve_left Bool.false_ne_true
    simp only [Btt.convertHeader, traceToCpu, Bool.false_eq_true, if_false, hcpu]

theorem convertHeader_pdu (native : Bool) (t : BlkIoTrace) :
    (Btt.convertHeader native t).pdu = t.pdu := by
  cases native <;> rfl

theorem convertToCpu_record (native : Bool) {hdr : List UInt8} (h : hdr.length = traceSize) :
    (Btt.convertToCpu (some native) hdr).2.1 = Btt.convertHeader native (loadTrace hdr) := by
  have hnil : hdr.drop traceSize = [] := List.drop_of_length_le h.le
  have hpdu : (Btt.convertHeader native (loadTrace hdr)).pdu = [] := convertHeader_pdu _ _
  simp only [Btt.convertToCpu, hnil, List.take_nil, Blkparse.lookNative, Option.getD_some]
  generalize Btt.convertHeader native (loadTrace hdr) = tp at hpdu
  rw [← hpdu]

theorem agree_iff (native : Bool) (hdr : Vector UInt8 traceSize) :
    Agree native hdr.toList ↔ native = true ∨ (loadTrace hdr.toList).cpu = 0 := by
  rw [← convertHeader_eq_iff, ← convertToCpu_record native hdr.length_toList]
  exact ⟨fun h => h.btt, fun h => ⟨h, ioFields_eq native _⟩⟩

theorem bswap32_eq_zero_iff (x : UInt32) : bswap32 x = 0 ↔ x = 0 := by
  have hzero : bswap32 0 = 0 := by decide
  constructor
  · intro h
    rw [← bswap32_bswap32 x, h, hzero]
  · intro h
    rw [h, hzero]

theorem traceToCpu_cpu (t : BlkIoTrace) : (traceToCpu false t).cpu = bswap32 t.cpu := rfl

theorem decodesBack_iff (r : Header) : DecodesBack r ↔ r.record.cpu = 0 := by
  have hstore : ((headerLayout true).store r).length = traceSize := Layout.length_store _ _
  have hback : traceToCpu false (loadTrace ((headerLayout true).store r)) = r.record := by
    rw [traceToCpu_loadTrace hstore.ge, Layout.load_store_self]
  have hbtt := convertHeader_eq_iff false (loadTrace ((headerLayout true).store r))
  rw [hback, ← convertToCpu_record false hstore] at hbtt
  have hcpu : (loadTrace ((headerLayout true).store r)).cpu = 0 ↔ r.record.cpu = 0 := by
    rw [← hback, traceToCpu_cpu, bswap32_eq_zero_iff]
  rw [← hcpu]
  constructor
  · intro h
    exact (hbtt.mp h.btt).resolve_left Bool.false_ne_true
  · intro h
    refine ⟨hback, hbtt.mpr (.inr h), ?_⟩
    rw [ioFields_eq, hback]

/-- **The three decoders agree on a header, and decode what the other byte order wrote, exactly as
far as the CPU number allows it.** -/
theorem decoders_agree (native : Bool) (hdr : Vector UInt8 traceSize) (r : Header) :
    (Agree native hdr.toList ↔ native = true ∨ (loadTrace hdr.toList).cpu = 0) ∧
      (DecodesBack r ↔ r.record.cpu = 0) :=
  ⟨agree_iff native hdr, decodesBack_iff r⟩

/-- A record of CPU 1 from a big-endian machine: `btt` takes it for CPU 0. -/
theorem not_decodesBack_cpu_one :
    ¬DecodesBack (0x65617407, 1, 5, 8, 4096, 0x01110001, 1, 0x800000, 1, 0, 0) := by
  rw [decodesBack_iff]
  decide

end Blktrace
