import Blktrace.TraceFile
import Blktrace.Blkiomon.Match

/-!
# Driver data

`blkiomon` sends the records of low-level drivers on to another tool, header and payload in two calls of
`fwrite`. That a call has gone well it tells from the number of items, and of items without a byte there
are none.
-/

namespace Blktrace.Blkiomon

open Blkparse (lookNative)

/-! ## The functions -/

/-- `fwrite` of one item, to a file that takes everything: the file, and what is returned. -/
def fwrite (item fp : List UInt8) : List UInt8 × ℕ := (fp ++ item, if item = [] then 0 else 1)

/-- `struct output`, of the driver data: whether there is a name, and what was written. -/
structure Output where
  fn : Bool := true
  fp : List UInt8 := []

/-- `blkiomon_dump_drvdata`: `true` for the 1 it returns. -/
def blkiomonDumpDrvdata (drvdata : Output) (bit : BlkIoTrace) : Output × Bool :=
  if !drvdata.fn then (drvdata, false)
  else
    match fwrite ((headerLayout false).store bit.header) drvdata.fp with
    | (fp, 1) =>
      match fwrite bit.pdu fp with
      | (fp, 1) => ({ drvdata with fp }, false)
      | (fp, _) => ({ fn := false, fp }, true)
    | (fp, _) => ({ fn := false, fp }, true)

/-- What the loop of `blkiomon_do_fifo` keeps. -/
structure Reading where
  fifo : Fifo := {}
  drvdata : Output := {}
  sequence : ℕ := 0

/-- `blkiomon_do_fifo` on the bytes of its input, `none` where a division traps. -/
def readFifo (malloc : Bool) : ℕ → Option Bool → Reading → List UInt8 → Option Reading
  | 0, _, s, _ => some s
  | fuel + 1, native, s, file =>
    if file.length < traceSize then some s
    else
      match lookNative native (loadTrace file).magic with
      | none => some s
      | some native =>
        let bit := recordAt native file
        if verifyTrace bit then some s
        else if file.length < recordSize native file then some s
        else
          let s := { s with sequence := s.sequence + 1 }
          let rest := file.drop (recordSize native file)
          if bit.hasTc blkTcDrvData then
            match blkiomonDumpDrvdata s.drvdata bit with
            | (drvdata, true) => some { s with drvdata }
            | (drvdata, false) => readFifo malloc fuel (some native) { s with drvdata } rest
          else
            match doRecord malloc s.fifo bit with
            | none => none
            | some fifo => readFifo malloc fuel (some native) { s with fifo } rest

/-! ## What there is to send on -/

/-- The records of a stream, up to the first that is bad or not all there. -/
def records : ℕ → Option Bool → List UInt8 → List BlkIoTrace
  | 0, _, _ => []
  | fuel + 1, native, file =>
    if file.length < traceSize then []
    else
      match lookNative native (loadTrace file).magic with
      | none => []
      | some native =>
        if verifyTrace (recordAt native file) then []
        else if file.length < recordSize native file then []
        else recordAt native file :: records fuel (some native) (file.drop (recordSize native file))

/-- The image of the driver data among some records. -/
def drvdataOf (ts : List BlkIoTrace) : List UInt8 :=
  (ts.filter (BlkIoTrace.hasTc · blkTcDrvData)).flatMap (BlkIoTrace.image false)

/-- **All driver data of the stream is sent on**, in order, and nothing keeps the loop from going on to the
records behind it. -/
def SendsOn (malloc : Bool) (file : List UInt8) : Prop :=
  ∃ s, readFifo malloc file.length none {} file = some s ∧
    s.drvdata = { fp := drvdataOf (records file.length none file) } ∧
    s.sequence = (records file.length none file).length ∧
    blkiomonDoFifo malloc {} (records file.length none file) = some s.fifo

/-! ## One record -/

theorem store_header_ne_nil (bit : BlkIoTrace) : (headerLayout false).store bit.header ≠ [] := by
  intro hnil
  have hlen := congrArg List.length hnil
  rw [Bytes.Layout.length_store] at hlen
  exact absurd hlen (by decide)

theorem blkiomonDumpDrvdata_of_ne {drvdata : Output} (hfn : drvdata.fn = true) {bit : BlkIoTrace}
    (h : bit.pdu ≠ []) : blkiomonDumpDrvdata drvdata bit =
      ({ drvdata with fp := drvdata.fp ++ bit.image false }, false) := by
  simp [blkiomonDumpDrvdata, hfn, fwrite, store_header_ne_nil, h, BlkIoTrace.image]

theorem blkiomonDumpDrvdata_of_nil {drvdata : Output} (hfn : drvdata.fn = true) {bit : BlkIoTrace}
    (h : bit.pdu = []) : ∃ fp, blkiomonDumpDrvdata drvdata bit = ({ fn := false, fp }, true) := by
  simp [blkiomonDumpDrvdata, hfn, fwrite, store_header_ne_nil, h]

theorem doRecord_of_drvdata (malloc : Bool) (s : Fifo) {t : BlkIoTrace}
    (ht : t.hasTc blkTcDrvData = true) : doRecord malloc s t = some s := by
  rw [doRecord, if_pos ht]

theorem blkiomonDoFifo_cons (malloc : Bool) (s : Fifo) {t : BlkIoTrace} (ht : verifyTrace t = false)
    (ts : List BlkIoTrace) : blkiomonDoFifo malloc s (t :: ts) =
      (doRecord malloc s t).bind fun s => blkiomonDoFifo malloc s ts := by
  rw [blkiomonDoFifo, ht]
  rfl

theorem drvdataOf_cons (t : BlkIoTrace) (ts : List BlkIoTrace) :
    drvdataOf (t :: ts) = (if t.hasTc blkTcDrvData then t.image false else []) ++ drvdataOf ts := by
  unfold drvdataOf
  rw [List.filter_cons]
  split_ifs <;> rfl

/-! ## A stream -/

/-- What the loop does with records as converted, one after another. -/
def feed (malloc : Bool) (s : Reading) : List BlkIoTrace → Option Reading
  | [] => some s
  | bit :: bits =>
    let s := { s with sequence := s.sequence + 1 }
    if bit.hasTc blkTcDrvData then
      match blkiomonDumpDrvdata s.drvdata bit with
      | (drvdata, true) => some { s with drvdata }
      | (drvdata, false) => feed malloc { s with drvdata } bits
    else
      match doRecord malloc s.fifo bit with
      | none => none
      | some fifo => feed malloc { s with fifo } bits

theorem readFifo_eq (malloc : Bool) (fuel : ℕ) (native : Option Bool) (s : Reading)
    (file : List UInt8) :
    readFifo malloc fuel native s file = feed malloc s (records fuel native file) := by
  induction fuel generalizing native s file with
  | zero => rfl
  | succ fuel ih =>
    rw [readFifo, records]
    split_ifs with hshort
    · rfl
    cases lookNative native (loadTrace file).magic with
    | none => rfl
    | some n =>
      dsimp only
      split_ifs with hbad hcut hdrv
      · rfl
      · rfl
      · rw [feed, if_pos hdrv]
        dsimp only
        rcases blkiomonDumpDrvdata s.drvdata (recordAt n file) with ⟨drvdata, _ | _⟩
        · exact ih _ _ _
        · rfl
      · rw [feed, if_neg hdrv]
        dsimp only
        cases doRecord malloc s.fifo (recordAt n file) with
        | none => rfl
        | some fifo => exact ih _ _ _

/-- What is read is whole. -/
theorem whole_of_mem_records {fuel : ℕ} {native : Option Bool} {file : List UInt8} {t : BlkIoTrace}
    (ht : t ∈ records fuel native file) : Whole t := by
  induction fuel generalizing native file with
  | zero => nomatch ht
  | succ fuel ih =>
    rw [records] at ht
    split_ifs at ht with hshort
    · nomatch ht
    cases hlook : lookNative native (loadTrace file).magic with
    | none => rw [hlook] at ht; nomatch ht
    | some n =>
      rw [hlook] at ht
      dsimp only at ht
      split_ifs at ht with hbad hcut
      · nomatch ht
      · nomatch ht
      rcases List.mem_cons.mp ht with rfl | hrest
      · exact ⟨complete_recordAt (not_lt.mp hcut), (Bool.not_eq_true _).mp hbad⟩
      · exact ih hrest

theorem pdu_eq_nil_iff {t : BlkIoTrace} (h : Whole t) : t.pdu = [] ↔ t.pduLen = 0 := by
  rw [← List.length_eq_zero_iff, h.complete, ← UInt16.toNat_inj]
  rfl

/-- The state behind records that are all taken. -/
def Reading.after (s : Reading) (ts : List BlkIoTrace) (fifo : Fifo) : Reading where
  fifo := fifo
  drvdata := { s.drvdata with fp := s.drvdata.fp ++ drvdataOf ts }
  sequence := s.sequence + ts.length

section Feed

variable {malloc : Bool} {s : Reading} {ts : List BlkIoTrace}

/-- **No driver data without a payload**: the loop takes all records. -/
theorem feed_of_ne (hfn : s.drvdata.fn = true) (hvalid : ∀ t ∈ ts, verifyTrace t = false)
    (h : ∀ t ∈ ts, t.hasTc blkTcDrvData → t.pdu ≠ []) :
    feed malloc s ts = (blkiomonDoFifo malloc s.fifo ts).map (s.after ts) := by
  induction ts generalizing s with
  | nil => simp [feed, blkiomonDoFifo, Reading.after, drvdataOf]
  | cons t ts ih =>
    rw [List.forall_mem_cons] at hvalid h
    rw [feed, blkiomonDoFifo_cons malloc s.fifo hvalid.1]
    by_cases hdrv : t.hasTc blkTcDrvData = true
    · rw [if_pos hdrv, blkiomonDumpDrvdata_of_ne hfn (h.1 hdrv), doRecord_of_drvdata malloc _ hdrv,
        Option.bind_some]
      refine (ih (by exact hfn) hvalid.2 h.2).trans ?_
      congr 1
      funext fifo
      simp [Reading.after, drvdataOf_cons, hdrv, Nat.add_right_comm, Nat.add_assoc]
    · rw [if_neg hdrv]
      dsimp only
      cases doRecord malloc s.fifo t with
      | none => rfl
      | some fifo =>
        refine (ih (by exact hfn) hvalid.2 h.2).trans ?_
        congr 1
        funext fifo'
        simp [Reading.after, drvdataOf_cons, hdrv, Nat.add_right_comm, Nat.add_assoc]

/-- **Driver data without a payload** ends the loop, and the file is closed. -/
theorem feed_of_nil (hfn : s.drvdata.fn = true) {t : BlkIoTrace} (ht : t ∈ ts)
    (hdrv : t.hasTc blkTcDrvData = true) (hnil : t.pdu = []) :
    ∀ s' ∈ feed malloc s ts, s'.drvdata.fn = false := by
  induction ts generalizing s with
  | nil => nomatch ht
  | cons u ts ih =>
    intro s' hs'
    rw [feed] at hs'
    by_cases hu : u.hasTc blkTcDrvData = true
    · rw [if_pos hu] at hs'
      dsimp only at hs'
      by_cases hpdu : u.pdu = []
      · obtain ⟨fp, hdump⟩ := blkiomonDumpDrvdata_of_nil hfn hpdu
        rw [hdump] at hs'
        obtain rfl := Option.some.inj hs'
        rfl
      · rw [blkiomonDumpDrvdata_of_ne hfn hpdu] at hs'
        have hmem : t ∈ ts := List.mem_of_ne_of_mem (by rintro rfl; exact hpdu hnil) ht
        exact ih (by exact hfn) hmem s' hs'
    · rw [if_neg hu] at hs'
      dsimp only at hs'
      have hmem : t ∈ ts := List.mem_of_ne_of_mem (by rintro rfl; exact hu hdrv) ht
      cases hdo : doRecord malloc s.fifo u with
      | none => rw [hdo] at hs'; nomatch hs'
      | some fifo =>
        rw [hdo] at hs'
        exact ih (by exact hfn) hmem s' hs'

end Feed

theorem not_sendsOn_of_mem {malloc : Bool} {file : List UInt8} {t : BlkIoTrace}
    (ht : t ∈ records file.length none file) (hdrv : t.hasTc blkTcDrvData = true)
    (hzero : t.pduLen = 0) : ¬ SendsOn malloc file := by
  rintro ⟨s, hrun, hdrvdata, -⟩
  rw [readFifo_eq] at hrun
  have hnil := (pdu_eq_nil_iff (whole_of_mem_records ht)).mpr hzero
  have hclosed := feed_of_nil rfl ht hdrv hnil s hrun
  rw [hdrvdata] at hclosed
  nomatch hclosed

/-- **The driver data is sent on** just if none of it comes without a payload, and no division traps
before the stream is at its end. -/
theorem sendsOn_iff (malloc : Bool) (file : List UInt8) :
    SendsOn malloc file ↔
      (∀ t ∈ records file.length none file, t.hasTc blkTcDrvData → t.pduLen ≠ 0) ∧
        ∀ k, Apart (arrivals k (records file.length none file)) := by
  have hwhole : ∀ t ∈ records file.length none file, Whole t := fun t ht => whole_of_mem_records ht
  have htraps := blkiomonDoFifo_isSome_iff malloc holds_nil (records file.length none file)
  constructor
  · intro h
    refine ⟨fun t ht hdrv hzero => not_sendsOn_of_mem ht hdrv hzero h, ?_⟩
    obtain ⟨s, -, -, -, hfifo⟩ := h
    exact htraps.mp (by rw [hfifo]; rfl)
  · rintro ⟨hne, hapart⟩
    obtain ⟨fifo, hfifo⟩ := Option.isSome_iff_exists.mp (htraps.mpr hapart)
    have hrun : feed malloc {} (records file.length none file) = _ :=
      feed_of_ne rfl (fun t ht => (hwhole t ht).valid)
        fun t ht hdrv => mt (pdu_eq_nil_iff (hwhole t ht)).mp (hne t ht hdrv)
    rw [hfifo, Option.map_some] at hrun
    exact ⟨_, (readFifo_eq _ _ _ _ _).trans hrun, rfl, Nat.zero_add _, hfifo⟩

/-- A driver's record with nothing behind its header. -/
def bareDrvdata : BlkIoTrace where
  magic := 0x65617407
  sequence := 1
  time := 5000
  sector := 8
  bytes := 4096
  action := 0x40000011
  pid := 1
  device := 0x800000
  cpu := 0
  error := 0
  pduLen := 0
  pdu := []

theorem not_sendsOn : ¬ SendsOn true (fileOf false [bareDrvdata]) :=
  not_sendsOn_of_mem (t := bareDrvdata) (by decide +kernel) rfl rfl

-- with a payload of one byte all of it gets out, and the next one too
example : ((readFifo true 200 none {}
    (fileOf false (List.replicate 2 { bareDrvdata with pduLen := 1, pdu := [7] }))).map fun s =>
      (s.drvdata.fp.length, s.sequence)) = some (98, 2) := by decide +kernel

end Blktrace.Blkiomon
