import Blktrace.Btreplay.Replayed

/-!
# Record, then replay

`btrecord` and `btreplay` together. The header that `stream_close` puts together misses the last
bunch, so it never counts the bunches of the file, and a file of a single bunch is not replayed at
all. What is replayed is what the trace holds, unless a size or a sector is one that `iocb_setup`
does not take.
-/

namespace Blktrace.Btreplay

open Bytes

variable {ndebug : Bool} {lim : Limits} {pad : IoStream → IoSpec → UInt32}
variable {big : Bool} {ts : List BlkIoTrace}

/-! ## The file of a trace -/

/-- The file of the records `ts`, written by a big-endian machine or a little-endian one. -/
def traceImage (big : Bool) (ts : List BlkIoTrace) : List UInt8 :=
  ts.flatMap (BlkIoTrace.image big)

/-- Whole valid records in the order of their times. -/
structure Written (big : Bool) (ts : List BlkIoTrace) : Prop where
  valid : ∀ t ∈ ts, verifyTrace t = false
  whole : ∀ t ∈ ts, t.pdu.length = t.pduLen.toNat
  times : ts.Pairwise fun t t' => t.time ≤ t'.time
  size_lt : (traceImage big ts).length < 2 ^ 63

/-- And the queued sizes are whole sectors below 2 GiB. -/
structure Traced (big : Bool) (ts : List BlkIoTrace) : Prop extends Written big ts where
  sizes : ∀ t ∈ ts, matchAction t.action → 0 < t.bytes.toNat ∧ t.bytes.toNat % 512 = 0 ∧
    t.bytes.toNat < 2 ^ 31

theorem front_image {big : Bool} {t : BlkIoTrace} (hvalid : verifyTrace t = false)
    (hwhole : t.pdu.length = t.pduLen.toNat) {native : Option Bool}
    (hnative : native = none ∨ native = some !big) (rest : List UInt8) :
    front native (t.image big ++ rest) = .whole (some !big) t rest := by
  have hlen : (t.image big ++ rest).length = traceSize + t.pdu.length + rest.length := by
    rw [List.length_append, length_image]
  have hload := traceToCpu_image big t rest
  have hlook : Blkparse.lookNative native (loadTrace (t.image big ++ rest)).magic = some !big := by
    rcases hnative with rfl | rfl
    · apply checkDataEndianness_of_valid
      rw [hload]
      exact hvalid
    · rfl
  have hdrop : (t.image big ++ rest).drop traceSize = t.pdu ++ rest := by
    rw [BlkIoTrace.image, List.append_assoc, ← headerLayout_size big, Layout.drop_store]
  unfold front
  rw [if_neg (by rw [hlen]; omega)]
  simp only [hlook, Option.getD_some, hload, hdrop, ← hwhole]
  rw [if_neg (by rw [List.length_append]; omega), List.take_left, List.drop_left]

theorem readTrace_image {big : Bool} {ts : List BlkIoTrace}
    (hvalid : ∀ t ∈ ts, verifyTrace t = false) (hwhole : ∀ t ∈ ts, t.pdu.length = t.pduLen.toNat)
    {native : Option Bool} (hnative : native = none ∨ native = some !big) {fuel : ℕ}
    (h : ts.length < fuel) :
    readTrace fuel native (traceImage big ts) = ts.map fun t => (some !big, some t) := by
  induction ts generalizing native fuel with
  | nil =>
    obtain ⟨fuel, rfl⟩ := Nat.exists_eq_add_one_of_ne_zero (Nat.ne_of_gt (Nat.zero_lt_of_lt h))
    rfl
  | cons t ts ih =>
    obtain ⟨fuel, rfl⟩ := Nat.exists_eq_add_one_of_ne_zero (Nat.ne_of_gt (Nat.zero_lt_of_lt h))
    have himage : traceImage big (t :: ts) = t.image big ++ traceImage big ts := rfl
    rw [readTrace, himage, front_image (hvalid t List.mem_cons_self)
      (hwhole t List.mem_cons_self) hnative]
    dsimp only
    rw [ih (fun t ht => hvalid t (List.mem_cons_of_mem _ ht))
      (fun t ht => hwhole t (List.mem_cons_of_mem _ ht)) (.inr rfl) (Nat.lt_of_succ_lt_succ h),
      List.map_cons]

theorem length_traceImage (big : Bool) (ts : List BlkIoTrace) :
    ts.length ≤ (traceImage big ts).length := by
  induction ts with
  | nil => exact le_refl _
  | cons t ts ih =>
    show ts.length + 1 ≤ (t.image big ++ traceImage big ts).length
    rw [List.length_append, length_image]
    unfold traceSize
    omega

theorem Written.readTrace (h : Written big ts) :
    Btreplay.readTrace ((traceImage big ts).length + 1) none (traceImage big ts) =
      ts.map fun t => (some !big, some t) :=
  readTrace_image h.valid h.whole (.inl rfl) (Nat.lt_succ_of_le (length_traceImage big ts))

theorem Written.records (h : Written big ts) : traceRecords (traceImage big ts) = ts := by
  unfold traceRecords
  rw [h.readTrace, List.filterMap_map]
  exact List.filterMap_some

/-- `btrecord` comes to its end. -/
theorem Written.process (h : Written big ts) :
    ∃ out, Btreplay.process ndebug lim pad (traceImage big ts) = .ok out := by
  apply process_total
  · rw [h.readTrace]
    intro r hr
    obtain ⟨t, -, rfl⟩ := List.mem_map.mp hr
    rfl
  · rw [h.records]
    unfold queueSpecs
    rw [List.pairwise_map]
    exact h.times.filter _

/-- One IO, and two IOs 20 ms apart, which take two bunches. -/
def oneIo : List BlkIoTrace := [Blkparse.queueRecord 0x800000 0 1 1000]

def twoIos : List BlkIoTrace :=
  [Blkparse.queueRecord 0x800000 0 1 1000, Blkparse.queueRecord 0x800000 0 2 20001000]

theorem traced_oneIo : Traced false oneIo where
  valid := by decide
  whole := by decide
  sizes := by decide
  times := by decide
  size_lt := by decide

theorem traced_twoIos : Traced false twoIos where
  valid := by decide
  whole := by decide
  sizes := by decide
  times := by decide
  size_lt := by decide

/-! ## The file format -/

/-- The bunches that lie in the body of a file, for at most `fuel` of them; an error where bytes
are left over. -/
def bodyBunches : ℕ → List UInt8 → Except Stop (List IoBunch)
  | 0, _ => .ok []
  | fuel + 1, ifd => do
    match ← nextBunch false ifd with
    | none => .ok []
    | some (bunch, ifd) => do
      let bunches ← bodyBunches fuel ifd
      .ok (bunch :: bunches)

theorem bodyBunches_image {bunches : List IoBunch} (hwf : ∀ b ∈ bunches, b.WF) {fuel : ℕ}
    (h : bunches.length < fuel) :
    bodyBunches fuel (bunches.flatMap IoBunch.image) = .ok bunches := by
  induction bunches generalizing fuel with
  | nil =>
    obtain ⟨fuel, rfl⟩ := Nat.exists_eq_add_one_of_ne_zero (Nat.ne_of_gt (Nat.zero_lt_of_lt h))
    rfl
  | cons b bunches ih =>
    obtain ⟨fuel, rfl⟩ := Nat.exists_eq_add_one_of_ne_zero (Nat.ne_of_gt (Nat.zero_lt_of_lt h))
    rw [bodyBunches, List.flatMap_cons, nextBunch_image (hwf b List.mem_cons_self), ok_bind]
    dsimp only
    rw [ih (fun b hb => hwf b (List.mem_cons_of_mem _ hb)) (Nat.lt_of_succ_lt_succ h), ok_bind]

/-- What a reader may expect of a header and the bunches behind it. -/
structure FormatOk (specs : List IoSpec) (hdr : IoFileHdr) (bunches : List IoBunch) : Prop where
  nbunches : hdr.nbunches.toNat = bunches.length
  totalPkts : hdr.totalPkts.toNat = (bunches.map fun b => b.hdr.npkts.toNat).sum
  npkts : ∀ b ∈ bunches, 1 ≤ b.hdr.npkts.toNat ∧ b.hdr.npkts.toNat ≤ btMaxPkts
  genesis : ∀ first ∈ specs.head?, hdr.genesis = first.time

theorem Recorded.npkts {specs : List IoSpec} {hdr : IoFileHdr} {bunches : List IoBunch}
    (h : Recorded lim specs hdr bunches) :
    ∀ b ∈ bunches, 1 ≤ b.hdr.npkts.toNat ∧ b.hdr.npkts.toNat ≤ btMaxPkts := by
  intro b hb
  rw [(h.wf b hb).npkts]
  exact ⟨(h.wf b hb).pos, (h.wf b hb).le⟩

/-- The header counts all the bunches only where there is none. -/
theorem Recorded.formatOk_iff {specs : List IoSpec} {hdr : IoFileHdr} {bunches : List IoBunch}
    (h : Recorded lim specs hdr bunches) : FormatOk specs hdr bunches ↔ specs = [] := by
  constructor
  · intro hok
    by_contra hne
    have hlen : 0 < bunches.length :=
      List.length_pos_of_ne_nil fun hnil => hne (h.empty.mp hnil)
    have hcount := hok.nbunches
    rw [h.nbunches, UInt64.toNat_ofNat'] at hcount
    have hle : (bunches.length - 1) % 2 ^ 64 ≤ bunches.length - 1 := Nat.mod_le _ _
    omega
  · intro hnil
    have hbunches := h.empty.mpr hnil
    subst hnil hbunches
    have hnb := h.nbunches
    have htp := h.totalPkts
    exact ⟨by rw [hnb]; rfl, by rw [htp]; rfl, h.npkts, fun _ hs => by cases hs⟩

/-- **The file `btrecord` writes.** Nothing is left over behind its bunches, each of which holds
between one and `BT_MAX_PKTS` packets; but the header counts all of them only if there is none. -/
theorem process_format {file out : List UInt8} (h : process ndebug lim pad file = .ok out) :
    ∃ bunches, bodyBunches (out.length + 1) (out.drop ioFileHdrLayout.size) = .ok bunches ∧
      (FormatOk (queueSpecs (traceRecords file)) (ioFileHdrLayout.load out) bunches ↔
        queueSpecs (traceRecords file) = []) ∧
      (∀ b ∈ bunches, 1 ≤ b.hdr.npkts.toNat ∧ b.hdr.npkts.toNat ≤ btMaxPkts) ∧
      (ioFileHdrLayout.load out).nbunches = UInt64.ofNat (bunches.length - 1) ∧
      ∀ first rest, queueSpecs (traceRecords file) = first :: rest →
        ((ioFileHdrLayout.load out).genesis = first.time ↔
          first.time ≠ 0 ∨ ∀ s ∈ rest, s.time = 0) := by
  obtain ⟨hdr, bunches, hrec, rfl⟩ := process_ok h
  have hbody := length_body bunches
  rw [Layout.load_store, Layout.drop_store]
  refine ⟨bunches, bodyBunches_image hrec.wf ?_, hrec.formatOk_iff, hrec.npkts, hrec.nbunches, ?_⟩
  · rw [List.length_append]
    omega
  · intro first rest hspecs
    rw [hrec.genesis, hspecs, firstTime_cons]

theorem process_format_twoIos :
    ∃ out bunches, process true defaultLimits (fun _ _ => 0) (traceImage false twoIos) = .ok out ∧
      bodyBunches (out.length + 1) (out.drop ioFileHdrLayout.size) = .ok bunches ∧
      ∀ b ∈ bunches, 1 ≤ b.hdr.npkts.toNat ∧ b.hdr.npkts.toNat ≤ btMaxPkts := by
  obtain ⟨out, hout⟩ := @Written.process true defaultLimits (fun _ _ => 0) _ _ traced_twoIos.toWritten
  obtain ⟨bunches, hbody, -, hnpkts, -⟩ := process_format hout
  exact ⟨out, bunches, hout, hbody, hnpkts⟩

/-- A trace of one IO: the header says there is no bunch, and one follows. -/
theorem not_formatOk_oneIo :
    ∃ out bunches, process true defaultLimits (fun _ _ => 0) (traceImage false oneIo) = .ok out ∧
      bodyBunches (out.length + 1) (out.drop ioFileHdrLayout.size) = .ok bunches ∧
      ¬FormatOk (queueSpecs oneIo) (ioFileHdrLayout.load out) bunches := by
  obtain ⟨out, hout⟩ := @Written.process true defaultLimits (fun _ _ => 0) _ _ traced_oneIo.toWritten
  obtain ⟨hdr, bunches, hrec, rfl⟩ := process_ok hout
  have hbody := length_body bunches
  rw [traced_oneIo.records] at hrec
  refine ⟨_, bunches, hout, ?_, ?_⟩
  · rw [Layout.drop_store]
    exact bodyBunches_image hrec.wf (by rw [List.length_append]; omega)
  · rw [Layout.load_store, hrec.formatOk_iff]
    decide

/-! ## What a replay asserts -/

/-- A size and a sector that `iocb_setup` takes: `n` positive as an `int` and in whole sectors, and
the offset, in 64 bits, not negative. -/
def Replayable (s : IoSpec) : Prop :=
  0 < s.bytes.toNat ∧ s.bytes.toNat % 512 = 0 ∧ s.bytes.toNat < 2 ^ 31 ∧
    s.sector.toNat * 512 % 2 ^ 64 < 2 ^ 63

instance : DecidablePred Replayable := fun s => by
  unfold Replayable
  infer_instance

theorem toNat_offset (s : IoSpec) : (s.sector * nbSec).toNat = s.sector.toNat * 512 % 2 ^ 64 := by
  rw [UInt64.toNat_mul]
  rfl

theorem ready_iff {s : IoSpec} (hrw : s.rw = 0 ∨ s.rw = 1) : Ready s.content ↔ Replayable s := by
  have hbytes : s.bytes.toUInt64.toUInt32 = s.bytes := by simp
  unfold IoSpec.content Ready Replayable
  dsimp only
  rw [hbytes, Word.toInt32_pos_iff, Word.toInt64_nonneg_iff, toNat_offset]
  have hmod : s.bytes.toNat < 2 ^ 31 →
      (s.bytes.toInt32 % 512 = 0 ↔ s.bytes.toNat % 512 = 0) := by
    intro hlt
    have h512 : (512 : Int32).toInt = 512 := by decide
    rw [← Int32.toInt_inj, Int32.toInt_mod, Word.toInt_toInt32 hlt, h512]
    show Int.tmod (s.bytes.toNat : ℤ) ((512 : ℕ) : ℤ) = 0 ↔ _
    rw [← Int.ofNat_tmod]
    omega
  constructor
  · rintro ⟨-, ⟨hpos, hlt⟩, hsec, hoff⟩
    exact ⟨hpos, (hmod hlt).mp hsec, hlt, hoff⟩
  · rintro ⟨hpos, hsec, hlt, hoff⟩
    exact ⟨hrw, ⟨hpos, hlt⟩, (hmod hlt).mpr hsec, hoff⟩

theorem queueSpecs_rw {ts : List BlkIoTrace} {s : IoSpec} (h : s ∈ queueSpecs ts) :
    s.rw = 0 ∨ s.rw = 1 := by
  obtain ⟨t, -, rfl⟩ := List.mem_map.mp h
  unfold IoFields.spec
  dsimp only
  split_ifs
  · exact .inr rfl
  · exact .inl rfl

/-- A trace file: its size is an `off_t`. -/
structure TraceFile where
  bytes : List UInt8
  size_lt : bytes.length < 2 ^ 63

theorem length_readTrace (fuel : ℕ) (native : Option Bool) (ifd : List UInt8) :
    (readTrace fuel native ifd).length ≤ ifd.length := by
  induction fuel generalizing native ifd with
  | zero => exact Nat.zero_le _
  | succ fuel ih =>
    rw [readTrace]
    cases hfront : front native ifd with
    | short => exact Nat.zero_le _
    | cut native' =>
      show 1 ≤ ifd.length
      by_contra hempty
      have hnil : ifd = [] := List.length_eq_zero_iff.mp (by omega)
      subst hnil
      cases hfront
    | whole native' t rest =>
      show (readTrace fuel native' rest).length + 1 ≤ ifd.length
      have hlt := front_length hfront
      exact lt_of_le_of_lt (ih native' rest) hlt

theorem length_queueSpecs (file : List UInt8) :
    (queueSpecs (traceRecords file)).length ≤ file.length := by
  unfold queueSpecs traceRecords
  rw [List.length_map]
  refine (List.length_filter_le _ _).trans ((List.length_filterMap_le _ _).trans ?_)
  exact length_readTrace _ _ _

/-- There are no more bunches than packets. -/
theorem Recorded.length_le {specs : List IoSpec} {hdr : IoFileHdr} {bunches : List IoBunch}
    (h : Recorded lim specs hdr bunches) : bunches.length ≤ specs.length := by
  have hlen : ∀ bs : List IoBunch, (∀ b ∈ bs, b.WF) → bs.length ≤ (contents bs).length := by
    intro bs hwf
    induction bs with
    | nil => exact le_refl _
    | cons b bs ih =>
      have hb := (hwf b List.mem_cons_self).pos
      have hbs := ih fun b hb => hwf b (List.mem_cons_of_mem _ hb)
      show bs.length + 1 ≤ (b.pkts.map IoPkt.content ++ contents bs).length
      rw [List.length_append, List.length_map]
      omega
  have hle := hlen bunches h.wf
  rw [h.content, List.length_map] at hle
  exact hle

theorem submitted_eq_error {cs : List (UInt64 × UInt64 × UInt32)} {writeEnabled : Bool} :
    submitted false writeEnabled cs ≠ .error .assertion ↔ ∀ c ∈ cs, Ready c := by
  unfold submitted assertThat
  by_cases hall : ∀ c ∈ cs, Ready c
  · rw [decide_eq_true hall]
    exact ⟨fun _ => hall, fun _ hc => by cases hc⟩
  · rw [decide_eq_false hall]
    exact ⟨fun hne => absurd rfl hne, fun hready => absurd hready hall⟩

theorem mem_replicate_flatten {α : Type} {n : ℕ} (hn : 0 < n) {as : List α} {a : α} :
    a ∈ (List.replicate n as).flatten ↔ a ∈ as := by
  rw [List.mem_flatten]
  constructor
  · rintro ⟨l, hl, ha⟩
    rwa [List.eq_of_mem_replicate hl] at ha
  · intro ha
    exact ⟨as, List.mem_replicate.mpr ⟨Nat.ne_of_gt hn, rfl⟩, ha⟩

theorem Recorded.replay_asserts {ts : List BlkIoTrace} {hdr : IoFileHdr} {bunches : List IoBunch}
    (h : Recorded lim (queueSpecs ts) hdr bunches) (hfit : bunches.length < 2 ^ 64)
    (o : ReplayOpts) (free : FreeList) :
    replay false o free (ioFileHdrLayout.store hdr ++ bunches.flatMap IoBunch.image) ≠
        .error .assertion ↔
      OneBunch lim (queueSpecs ts) ∨ ∀ s ∈ queueSpecs ts, Replayable s := by
  rw [replay_eq h hfit, ← h.one]
  by_cases hone : bunches.length ≤ 1
  · rw [if_pos hone]
    exact ⟨fun _ => .inl hone, fun _ hc => by cases hc⟩
  · rw [if_neg hone, submitted_eq_error]
    simp only [mem_replicate_flatten o.iterations_pos, List.forall_mem_map, hone, false_or]
    exact forall₂_congr fun s hs => ready_iff (queueSpecs_rw hs)

/-- A file has no more bunches than bytes. -/
theorem Recorded.fits {file : List UInt8} (hsize : file.length < 2 ^ 63) {hdr : IoFileHdr}
    {bunches : List IoBunch} (h : Recorded lim (queueSpecs (traceRecords file)) hdr bunches) :
    bunches.length < 2 ^ 64 := by
  have hspecs := h.length_le.trans (length_queueSpecs file)
  omega

/-- **What `btrecord` accepts, `btreplay` replays without a violated assertion**, exactly where the
file is not replayed at all, or the sizes and sectors are such as `iocb_setup` takes. -/
theorem replay_accepted (file : TraceFile) {out : List UInt8}
    (h : process ndebug lim pad file.bytes = .ok out) (o : ReplayOpts) (free : FreeList) :
    replay false o free out ≠ .error .assertion ↔
      OneBunch lim (queueSpecs (traceRecords file.bytes)) ∨
        ∀ s ∈ queueSpecs (traceRecords file.bytes), Replayable s := by
  obtain ⟨hdr, bunches, hrec, rfl⟩ := process_ok h
  exact hrec.replay_asserts (hrec.fits file.size_lt) o free

/-- A free list that is full whenever it is asked. -/
def fullList : FreeList where
  nfree _ := naios
  listLen _ := naios
  pos _ := by decide
  le_naios _ := le_refl _
  le_listLen _ := le_refl _

theorem replay_accepted_twoIos :
    ∃ out, process true defaultLimits (fun _ _ => 0) (traceImage false twoIos) = .ok out ∧
      replay false {} fullList out ≠ .error .assertion := by
  obtain ⟨out, hout⟩ := @Written.process true defaultLimits (fun _ _ => 0) _ _ traced_twoIos.toWritten
  refine ⟨out, hout, ?_⟩
  rw [replay_accepted ⟨traceImage false twoIos, traced_twoIos.size_lt⟩ hout]
  right
  rw [traced_twoIos.records]
  decide

/-- A flush: a queue record without bytes, after one with. -/
def flushAfterIo : List BlkIoTrace :=
  [Blkparse.queueRecord 0x800000 0 1 1000,
    { Blkparse.queueRecord 0x800000 0 2 20001000 with bytes := 0 }]

/-- `btrecord` accepts a flush, and `btreplay` stops at it. -/
theorem not_replay_flush :
    ∃ out, process false defaultLimits (fun _ _ => 0) (traceImage false flushAfterIo) = .ok out ∧
      replay false {} fullList out = .error .assertion := by
  have hwritten : Written false flushAfterIo :=
    ⟨by decide, by decide, by decide, by decide⟩
  obtain ⟨out, hout⟩ := @Written.process false defaultLimits (fun _ _ => 0) _ _ hwritten
  refine ⟨out, hout, ?_⟩
  obtain ⟨hdr, bunches, hrec, rfl⟩ := process_ok hout
  by_contra hne
  have hready := (hrec.replay_asserts (hrec.fits hwritten.size_lt) {} fullList).mp hne
  rw [hwritten.records] at hready
  revert hready
  decide

/-! ## Round trip -/

/-- A submission is the IO of a specification. -/
structure Submits (s : IoSpec) (i : Iocb) : Prop where
  offset : i.offset.toInt = 512 * s.sector.toNat
  nbytes : i.nbytes.toInt = s.bytes.toNat
  write : i.write = true ↔ s.rw = 0

theorem Traced.replayable_iff (h : Traced big ts) {s : IoSpec} (hs : s ∈ queueSpecs ts) :
    Replayable s ↔ s.sector.toNat * 512 % 2 ^ 64 < 2 ^ 63 := by
  obtain ⟨t, ht, rfl⟩ := List.mem_map.mp hs
  obtain ⟨hmem, hmatch⟩ := List.mem_filter.mp ht
  obtain ⟨hpos, hsec, hlt⟩ := h.sizes t hmem hmatch
  exact ⟨fun hr => hr.2.2.2, fun hoff => ⟨hpos, hsec, hlt, hoff⟩⟩

/-- The iocb of a packet is for the right place if its sector is below 2^54. -/
theorem Traced.submits_iff (h : Traced big ts) {s : IoSpec} (hs : s ∈ queueSpecs ts) :
    Submits s (toIocb true s.content) ↔ s.sector.toNat < 2 ^ 54 := by
  obtain ⟨t, ht, rfl⟩ := List.mem_map.mp hs
  obtain ⟨hmem, hmatch⟩ := List.mem_filter.mp ht
  obtain ⟨-, -, hlt⟩ := h.sizes t hmem hmatch
  generalize hspec : (ioFields true t).spec = s
  replace hlt : s.bytes.toNat < 2 ^ 31 := by rw [← hspec]; exact hlt
  have hbytes : s.bytes.toUInt64.toUInt32 = s.bytes := by simp
  have hoff := toNat_offset s
  constructor
  · intro hsub
    have hplace : (s.sector * nbSec).toInt64.toInt = 512 * s.sector.toNat := hsub.offset
    have hbound := (s.sector * nbSec).toInt64.toInt_lt
    omega
  · intro hsec
    rw [Nat.mod_eq_of_lt (by omega)] at hoff
    refine ⟨?_, ?_, ?_⟩
    · show (s.sector * nbSec).toInt64.toInt = _
      rw [Word.toInt_toInt64 (by omega), hoff]
      push_cast
      ring
    · show s.bytes.toUInt64.toUInt32.toInt32.toInt = _
      rw [hbytes, Word.toInt_toInt32 hlt]
    · show (s.rw == 0 && true) = true ↔ _
      rw [Bool.and_true, beq_iff_eq]

theorem submitted_ok {cs : List (UInt64 × UInt64 × UInt32)} {writeEnabled : Bool}
    {done : List Iocb} (h : submitted ndebug writeEnabled cs = .ok done) :
    done = cs.map (toIocb writeEnabled) := by
  unfold submitted at h
  cases hall : assertThat ndebug (decide (∀ c ∈ cs, Ready c)) with
  | error e =>
    rw [hall] at h
    cases h
  | ok u =>
    rw [hall] at h
    cases h
    rfl

theorem submitted_of_ready {cs : List (UInt64 × UInt64 × UInt32)} {writeEnabled : Bool}
    (h : ∀ c ∈ cs, Ready c) :
    submitted ndebug writeEnabled cs = .ok (cs.map (toIocb writeEnabled)) := by
  unfold submitted
  rw [decide_eq_true h, assertThat_true, ok_bind]

theorem forall₂_submits {specs : List IoSpec} :
    List.Forall₂ Submits specs ((specs.map IoSpec.content).map (toIocb true)) ↔
      ∀ s ∈ specs, Submits s (toIocb true s.content) := by
  rw [List.map_map, List.forall₂_map_right_iff, List.forall₂_same]
  rfl

/-- A replay of what was recorded submits what the trace holds, iteration after iteration. -/
def Replays (ndebug : Bool) (o : ReplayOpts) (free : FreeList) (specs : List IoSpec)
    (out : List UInt8) : Prop :=
  ∃ done, replay ndebug o free out = .ok done ∧
    List.Forall₂ Submits (List.replicate o.iterations specs).flatten done

theorem Traced.replays_iff (h : Traced big ts) {hdr : IoFileHdr} {bunches : List IoBunch}
    (hrec : Recorded lim (queueSpecs ts) hdr bunches) {o : ReplayOpts}
    (hw : o.writeEnabled = true) (free : FreeList) :
    Replays ndebug o free (queueSpecs ts)
        (ioFileHdrLayout.store hdr ++ bunches.flatMap IoBunch.image) ↔
      queueSpecs ts = [] ∨ ¬OneBunch lim (queueSpecs ts) ∧
        ∀ s ∈ queueSpecs ts, s.sector.toNat < 2 ^ 54 := by
  have hfit : bunches.length < 2 ^ 64 := by
    rw [← h.records] at hrec
    exact hrec.fits h.size_lt
  have hmem : ∀ s, s ∈ (List.replicate o.iterations (queueSpecs ts)).flatten ↔
      s ∈ queueSpecs ts := fun s => mem_replicate_flatten o.iterations_pos
  unfold Replays
  rw [replay_eq hrec hfit, ← hrec.one, hw]
  by_cases hone : bunches.length ≤ 1
  · rw [if_pos hone]
    constructor
    · rintro ⟨done, hdone, hsub⟩
      cases hdone
      rw [List.forall₂_nil_right_iff] at hsub
      refine .inl (List.eq_nil_iff_forall_not_mem.mpr fun s hs => ?_)
      rw [← hmem, hsub] at hs
      cases hs
    · rintro (hnil | ⟨hmany, -⟩)
      · refine ⟨[], rfl, ?_⟩
        rw [List.forall₂_nil_right_iff]
        refine List.eq_nil_iff_forall_not_mem.mpr fun s hs => ?_
        rw [hmem, hnil] at hs
        cases hs
      · exact absurd hone hmany
  · have hne : queueSpecs ts ≠ [] := fun hnil => hone (by rw [hrec.empty.mpr hnil]; exact zero_le_one)
    rw [if_neg hone]
    have hflat : (List.replicate o.iterations ((queueSpecs ts).map IoSpec.content)).flatten =
        (List.replicate o.iterations (queueSpecs ts)).flatten.map IoSpec.content := by
      rw [List.map_flatten, List.map_replicate]
    rw [hflat]
    constructor
    · rintro ⟨done, hdone, hsub⟩
      rw [submitted_ok hdone, forall₂_submits] at hsub
      exact .inr ⟨hone, fun s hs => (h.submits_iff hs).mp (hsub s ((hmem s).mpr hs))⟩
    · rintro (hnil | ⟨-, hsec⟩)
      · exact absurd hnil hne
      · refine ⟨_, submitted_of_ready ?_, forall₂_submits.mpr ?_⟩
        · intro c hc
          obtain ⟨s, hs, rfl⟩ := List.mem_map.mp hc
          rw [hmem] at hs
          have hlt := hsec s hs
          rw [ready_iff (queueSpecs_rw hs), h.replayable_iff hs]
          omega
        · intro s hs
          rw [hmem] at hs
          exact (h.submits_iff hs).mpr (hsec s hs)

/-- **Recording and replaying a trace** submits its IOs exactly where there is none or more than
one bunch of them, and no sector is beyond the offsets of 63 bits. -/
theorem record_replay (h : Traced big ts) (lim : Limits) (pad : IoStream → IoSpec → UInt32)
    (ndebug ndebug' : Bool) (o : ReplayOpts) (hw : o.writeEnabled = true) (free : FreeList) :
    ∃ out, Btreplay.process ndebug lim pad (traceImage big ts) = .ok out ∧
      (Replays ndebug' o free (queueSpecs ts) out ↔
        queueSpecs ts = [] ∨ ¬OneBunch lim (queueSpecs ts) ∧
          ∀ s ∈ queueSpecs ts, s.sector.toNat < 2 ^ 54) := by
  obtain ⟨out, hout⟩ := @Written.process ndebug lim pad big ts h.toWritten
  obtain ⟨hdr, bunches, hrec, rfl⟩ := process_ok hout
  rw [h.records] at hrec
  exact ⟨_, hout, h.replays_iff hrec hw free⟩

/-- With writing enabled. -/
def writeOpts : ReplayOpts where
  writeEnabled := true

theorem record_replay_twoIos :
    ∃ out, process true defaultLimits (fun _ _ => 0) (traceImage false twoIos) = .ok out ∧
      Replays true writeOpts fullList (queueSpecs twoIos) out := by
  obtain ⟨out, hout, hreplays⟩ := record_replay traced_twoIos defaultLimits (fun _ _ => 0) true true
    writeOpts rfl fullList
  refine ⟨out, hout, hreplays.mpr (.inr ?_)⟩
  decide

/-- A trace of one IO is recorded, and nothing is replayed. -/
theorem not_replays_oneIo :
    ∃ out, process true defaultLimits (fun _ _ => 0) (traceImage false oneIo) = .ok out ∧
      replay true writeOpts fullList out = .ok [] ∧
      ¬Replays true writeOpts fullList (queueSpecs oneIo) out := by
  obtain ⟨out, hout⟩ := @Written.process true defaultLimits (fun _ _ => 0) _ _ traced_oneIo.toWritten
  obtain ⟨hdr, bunches, hrec, rfl⟩ := process_ok hout
  have hfit := hrec.fits traced_oneIo.size_lt
  rw [traced_oneIo.records] at hrec
  refine ⟨_, hout, ?_, ?_⟩
  · rw [replay_eq hrec hfit, if_pos (hrec.one.mpr (by decide))]
  · rw [traced_oneIo.replays_iff hrec rfl]
    decide

end Blktrace.Btreplay
