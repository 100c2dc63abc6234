import Blktrace.Btt.Window

/-!
# What `btt` reads

The records of a file are read whole if none straddles the end of the window it is read through, and a
record that is cut off at the end of the file is left alone only if the last call is not opened for it.
-/

namespace Blktrace.Btt

/-! ## Windows along a file -/

/-- A record does not fit its window: the window is not moved for it, or the moved one is too short. -/
def Straddles (page curMax cur length : ℕ) : Prop :=
  if curMax < cur + 512 then pageBase page cur + defLen < cur + length else curMax < cur + length

instance (page curMax cur length : ℕ) : Decidable (Straddles page curMax cur length) := by
  unfold Straddles
  infer_instance

/-- No record of these lengths straddles. -/
def InWindows (page total : ℕ) : ℕ → ℕ → List ℕ → Prop
  | _, _, [] => True
  | curMax, cur, length :: lengths =>
    ¬ Straddles page curMax cur length ∧
      InWindows page total (windowEnd page total curMax cur) (cur + length) lengths

/-- Where the window ends behind records of these lengths, if they are all read. -/
def windowAfter (page total : ℕ) : ℕ → ℕ → List ℕ → Option ℕ
  | curMax, _, [] => some curMax
  | curMax, cur, length :: lengths =>
    if Opens page total curMax cur then
      windowAfter page total (windowEnd page total curMax cur) (cur + length) lengths
    else none

theorem not_straddles_iff {page total curMax cur length : ℕ} (h : cur + length ≤ total) :
    ¬ Straddles page curMax cur length ↔ cur + length ≤ windowEnd page total curMax cur := by
  unfold Straddles windowEnd
  split_ifs <;> omega

theorem windowEnd_le {page total curMax cur : ℕ} (h : curMax ≤ total) :
    windowEnd page total curMax cur ≤ total := by
  unfold windowEnd
  split_ifs
  · exact Nat.min_le_right _ _
  · exact h

/-- A call is opened for a record that fits its window. -/
theorem opens_of_fits {page total curMax cur length : ℕ} (hlen : traceSize ≤ length)
    (hin : cur + length ≤ total) (h : ¬ Straddles page curMax cur length) :
    Opens page total curMax cur := by
  intro hmove
  rw [Straddles, if_pos hmove] at h
  have hbase := pageBase_le page cur
  unfold traceSize at *
  omega

theorem lt_pageBase_add (page cur : ℕ) : cur < pageBase page cur + 2 ^ page :=
  Nat.lt_div_mul_add (Nat.two_pow_pos page)

/-- Records of at most 512 bytes always fit when a page and a record do in 16 MiB. -/
theorem inWindows_of_short {page total curMax cur : ℕ} {lengths : List ℕ}
    (hpage : 2 ^ page + 512 ≤ defLen) (h : ∀ length ∈ lengths, length ≤ 512) :
    InWindows page total curMax cur lengths := by
  induction lengths generalizing curMax cur with
  | nil => trivial
  | cons length lengths ih =>
    obtain ⟨hfirst, hrest⟩ := List.forall_mem_cons.mp h
    refine ⟨?_, ih hrest⟩
    have hbase := lt_pageBase_add page cur
    unfold Straddles
    split_ifs <;> omega

/-- No call is opened at the end of the file. -/
theorem not_opens_end {page total curMax : ℕ} (h : curMax ≤ total) :
    ¬ Opens page total curMax total := by
  intro hopen
  have hlt := (hopen (by omega)).2
  omega

/-! ## Where a call stands -/

/-- What is left of the file is `rest`, and it is in the given byte order or there is no telling yet. -/
structure At (file : List UInt8) (big : Bool) (s : Window) (rest : List UInt8) : Prop where
  rest : file.drop s.cur = rest
  cur : s.cur ≤ file.length
  curMin : s.curMin ≤ s.cur
  curMax : s.curMax ≤ file.length
  native : Admits s.native !big

theorem At.length {file rest : List UInt8} {big : Bool} {s : Window} (h : At file big s rest) :
    s.cur + rest.length = file.length := by
  have hlen := congrArg List.length h.rest
  rw [List.length_drop] at hlen
  have hcur := h.cur
  omega

theorem length_image_eq (big : Bool) (t : BlkIoTrace) : (t.image big).length = recordLength t :=
  length_image big t

/-- **A call for a whole record.** -/
theorem At.nextTrace {file rest : List UInt8} {big : Bool} {s : Window} {t : BlkIoTrace} {page : ℕ}
    (h : At file big s (t.image big ++ rest)) (ht : Whole t)
    (hopen : Opens page file.length s.curMax s.cur) :
    ∃ s' curMin, Btt.nextTrace page file s = (s', some (asRead big t,
        ⟨s.cur, s.cur + recordLength t, curMin, windowEnd page file.length s.curMax s.cur⟩)) ∧
      curMin ≤ s.cur ∧ At file big s' rest ∧ s'.cur = s.cur + recordLength t ∧
      s'.curMax = windowEnd page file.length s.curMax s.cur := by
  obtain ⟨curMin, hmin, hcall⟩ := nextTrace_of_opens h.cur hopen
  have hlen := h.length
  rw [List.length_append, length_image_eq] at hlen
  rw [h.rest, convertToCpu_image h.native ht] at hcall
  refine ⟨_, curMin, hcall, hmin h.curMin, ⟨?_, ?_, ?_, ?_, ?_⟩, rfl, rfl⟩
  · show file.drop (s.cur + recordLength t) = rest
    rw [← List.drop_drop, h.rest, ← length_image_eq big, List.drop_left]
  · show s.cur + recordLength t ≤ file.length
    omega
  · exact (hmin h.curMin).trans (Nat.le_add_right _ _)
  · exact windowEnd_le h.curMax
  · intro b hb
    exact (Option.some.inj hb).symm

/-! ## Files of whole records -/

variable {page : ℕ} {file : List UInt8} {big : Bool}

theorem calls_succ_none {s s' : Window} (h : nextTrace page file s = (s', none)) (n : ℕ) :
    calls page file (n + 1) s = ([], [], true) := by
  rw [calls, h]

theorem calls_succ_some {s s' : Window} {t : BlkIoTrace} {read : Read}
    (h : nextTrace page file s = (s', some (t, read))) (n : ℕ) :
    calls page file (n + 1) s = (t :: (calls page file n s').1, read :: (calls page file n s').2.1,
      (calls page file n s').2.2) := by
  rw [calls, h]

theorem calls_of_not_opens {s : Window} (hcur : s.cur ≤ file.length)
    (h : ¬ Opens page file.length s.curMax s.cur) (n : ℕ) :
    calls page file (n + 1) s = ([], [], true) := by
  have hnone := nextTrace_of_not_opens hcur h
  obtain ⟨s', hs'⟩ : ∃ s', nextTrace page file s = (s', none) := ⟨_, Prod.ext rfl hnone⟩
  exact calls_succ_none hs' n

/-- The records that fit are read, one call after the other. -/
theorem calls_of_inWindows {s : Window} {ts : List BlkIoTrace} (h : At file big s (fileOf big ts))
    (hts : ∀ t ∈ ts, Whole t)
    (hfit : InWindows page file.length s.curMax s.cur (ts.map recordLength)) :
    ∃ reads, calls page file (ts.length + 1) s = (ts.map (asRead big), reads, true) ∧
      ∀ r ∈ reads, r.Mapped := by
  induction ts generalizing s with
  | nil =>
    have hend : s.cur = file.length := h.length
    have hshut : ¬ Opens page file.length s.curMax s.cur := by
      rw [hend]
      exact not_opens_end h.curMax
    exact ⟨[], calls_of_not_opens h.cur hshut 0, nofun⟩
  | cons t ts ih =>
    obtain ⟨ht, hts⟩ := List.forall_mem_cons.mp hts
    obtain ⟨hfirst, hrest⟩ := hfit
    have hlen := h.length
    rw [fileOf_cons, List.length_append, length_image_eq] at hlen
    have hin : s.cur + recordLength t ≤ file.length := by omega
    have hopen := opens_of_fits (Nat.le_add_right _ _) hin hfirst
    obtain ⟨s', curMin, hcall, hmin, hat, hcur, hmax⟩ := At.nextTrace h ht hopen
    rw [← hcur, ← hmax] at hrest
    obtain ⟨reads, hcalls, hmapped⟩ := ih hat hts hrest
    refine ⟨⟨s.cur, s.cur + recordLength t, curMin, windowEnd page file.length s.curMax s.cur⟩ :: reads,
      ?_, List.forall_mem_cons.mpr ⟨⟨hmin, ?_⟩, hmapped⟩⟩
    · rw [List.length_cons, calls_succ_some hcall, hcalls]
      rfl
    · exact (not_straddles_iff hin).mp hfirst

/-- When as many are read through the windows as there are, they fit and are read as they are. -/
theorem inWindows_of_calls {s : Window} {ts us : List BlkIoTrace} {n : ℕ} {reads : List Read}
    (h : At file big s (fileOf big ts)) (hts : ∀ t ∈ ts, Whole t)
    (hcalls : calls page file n s = (us, reads, true)) (hcount : us.length = ts.length)
    (hmapped : ∀ r ∈ reads, r.Mapped) :
    InWindows page file.length s.curMax s.cur (ts.map recordLength) ∧ us = ts.map (asRead big) := by
  induction ts generalizing s us n reads with
  | nil => exact ⟨trivial, List.length_eq_zero_iff.mp hcount⟩
  | cons t ts ih =>
    obtain ⟨ht, hts⟩ := List.forall_mem_cons.mp hts
    cases n with
    | zero => nomatch (Prod.mk.inj (Prod.mk.inj hcalls).2).2
    | succ n =>
      by_cases hopen : Opens page file.length s.curMax s.cur
      · obtain ⟨s', curMin, hcall, hmin, hat, hcur, hmax⟩ := At.nextTrace h ht hopen
        rw [calls_succ_some hcall] at hcalls
        obtain ⟨rfl, htail⟩ := Prod.mk.inj hcalls
        obtain ⟨rfl, hend⟩ := Prod.mk.inj htail
        obtain ⟨hfirst, hrest⟩ := List.forall_mem_cons.mp hmapped
        obtain ⟨hfit, heq⟩ := ih hat hts (Prod.ext rfl (Prod.ext rfl hend)) (Nat.succ.inj hcount) hrest
        have hlen := h.length
        rw [fileOf_cons, List.length_append, length_image_eq] at hlen
        rw [hcur, hmax] at hfit
        refine ⟨⟨(not_straddles_iff (by omega)).mpr hfirst.2, hfit⟩, ?_⟩
        exact congrArg (asRead big t :: ·) heq
      · rw [calls_of_not_opens h.cur hopen] at hcalls
        obtain rfl := (Prod.mk.inj hcalls).1
        nomatch hcount

/-! ## A file that is cut off -/

/-- No byte behind the end of the file is read. -/
def Stays (page : ℕ) (file : List UInt8) (s : Window) : Prop :=
  ∀ n, ∀ r ∈ (calls page file n s).2.1, r.stop ≤ file.length

theorem stays_of_not_opens {s : Window} (hcur : s.cur ≤ file.length)
    (h : ¬ Opens page file.length s.curMax s.cur) : Stays page file s := by
  intro n
  cases n with
  | zero => nofun
  | succ n =>
    rw [calls_of_not_opens hcur h]
    nofun

theorem stays_succ {s s' : Window} {t : BlkIoTrace} {read : Read}
    (h : nextTrace page file s = (s', some (t, read))) :
    Stays page file s ↔ read.stop ≤ file.length ∧ Stays page file s' := by
  constructor
  · intro hs
    refine ⟨?_, fun n r hr => ?_⟩
    · apply hs 1
      rw [calls_succ_some h]
      exact List.mem_cons_self
    · apply hs (n + 1)
      rw [calls_succ_some h]
      exact List.mem_cons_of_mem _ hr
  · rintro ⟨hread, hs⟩ n
    cases n with
    | zero => nofun
    | succ n =>
      rw [calls_succ_some h]
      exact List.forall_mem_cons.mpr ⟨hread, hs n⟩

/-- The part of a record that is left at the end takes up more than there is. -/
theorem lt_convertToCpu {native : Option Bool} {t : BlkIoTrace} {n : ℕ} (hn : Admits native !big)
    (ht : Whole t) (hcut : n < recordLength t) :
    n < (convertToCpu native ((t.image big).take n)).2.2 := by
  by_cases hhead : n < traceSize
  · exact lt_of_lt_of_le hhead (Nat.le_add_right _ _)
  have hlong : traceSize ≤ n := not_lt.mp hhead
  have htake : (t.image big).take n =
      { t with pdu := t.pdu.take (n - traceSize) }.image big ++ [] := by
    have hsize : ((headerLayout big).store t.header).length = traceSize :=
      (headerLayout big).length_store t.header
    rw [List.append_nil, BlkIoTrace.image, List.take_append, hsize,
      List.take_of_length_le (by rw [hsize]; exact hlong)]
    rfl
  have hvalid : verifyTrace { t with pdu := t.pdu.take (n - traceSize) } = false := ht.valid
  rw [htake, convertToCpu_header hn hvalid]
  show n < traceSize + t.pduLen.toNat
  rw [← ht.complete]
  exact hcut

/-- **What is read of a cut file** stays in it if no call is opened for what is left at the end. -/
theorem stays_iff {s : Window} {ts : List BlkIoTrace} {t : BlkIoTrace} {n : ℕ}
    (h : At file big s (fileOf big ts ++ (t.image big).take n)) (hts : ∀ u ∈ ts, Whole u) (ht : Whole t)
    (hcut : n < recordLength t) : Stays page file s ↔
      ∀ curMax ∈ windowAfter page file.length s.curMax s.cur (ts.map recordLength),
        ¬ Opens page file.length curMax (s.cur + (fileOf big ts).length) := by
  induction ts generalizing s with
  | nil =>
    rw [List.map_nil, windowAfter]
    simp only [Option.mem_some_iff, forall_eq', fileOf_nil, List.length_nil, Nat.add_zero]
    refine ⟨fun hs hopen => ?_, stays_of_not_opens h.cur⟩
    obtain ⟨curMin, -, hcall⟩ := nextTrace_of_opens h.cur hopen
    have hread := ((stays_succ hcall).mp hs).1
    have hrest : file.drop s.cur = (t.image big).take n := h.rest
    have hlen := h.length
    have hmore := lt_convertToCpu h.native ht hcut
    have hlenImage := length_image_eq big t
    rw [fileOf_nil, List.nil_append, List.length_take] at hlen
    rw [hrest] at hread
    dsimp only at hread
    omega
  | cons u us ih =>
    obtain ⟨hu, hus⟩ := List.forall_mem_cons.mp hts
    rw [List.map_cons, windowAfter]
    rw [fileOf_cons, List.append_assoc] at h
    by_cases hopen : Opens page file.length s.curMax s.cur
    · obtain ⟨s', curMin, hcall, hmin, hat, hcur, hmax⟩ := At.nextTrace h hu hopen
      have hlen := h.length
      rw [List.length_append, length_image_eq] at hlen
      rw [if_pos hopen, stays_succ hcall, ih hat hus, hcur, hmax, fileOf_cons, List.length_append,
        length_image_eq, ← Nat.add_assoc]
      exact and_iff_right (show s.cur + recordLength u ≤ file.length by omega)
    · rw [if_neg hopen]
      exact iff_of_true (stays_of_not_opens h.cur hopen) nofun

/-! ## The reader -/

/-- The calls deliver these records and then 0, through the window. A file without records ends the
program before the first call. -/
def Delivered (page : ℕ) (file : List UInt8) (ts : List BlkIoTrace) : Prop :=
  match setupIfile page file.length with
  | none => ts = []
  | some s => ∃ n reads, calls page file n s = (ts, reads, true) ∧ ∀ r ∈ reads, r.Mapped

/-- Whatever the number of calls, they read nothing behind the end of the file. -/
def StaysInside (page : ℕ) (file : List UInt8) : Prop :=
  ∀ s ∈ setupIfile page file.length, Stays page file s

/-- The last record is cut off. -/
structure CutOff (file : List UInt8) (big : Bool) (ts : List BlkIoTrace) (t : BlkIoTrace) (n : ℕ) :
    Prop where
  file : file = fileOf big ts ++ (t.image big).take n
  whole : ∀ u ∈ ts, Whole u
  last : Whole t
  some : 0 < n
  cut : n < recordLength t

/-- **What is expected of the reader.** -/
structure Reads (page : ℕ) (file : List UInt8) : Prop where
  whole : ∀ big ts, file = fileOf big ts → (∀ t ∈ ts, Whole t) → Delivered page file ts
  cut : ∀ big ts t n, CutOff file big ts t n → StaysInside page file

/-- Where the first window ends. -/
def firstEnd (file : List UInt8) : ℕ := min defLen file.length

/-- When it does so: the CPU of every record of the other byte order is 0, no record straddles the end
of its window, and for what is left of a cut record no call is opened. -/
structure Fitting (page : ℕ) (file : List UInt8) : Prop where
  cpu : ∀ ts, file = fileOf true ts → (∀ t ∈ ts, Whole t) → ∀ t ∈ ts, t.cpu = 0
  windows : ∀ big ts, file = fileOf big ts → (∀ t ∈ ts, Whole t) →
    InWindows page file.length (firstEnd file) 0 (ts.map recordLength)
  cut : ∀ big ts t n, CutOff file big ts t n →
    ∀ curMax ∈ windowAfter page file.length (firstEnd file) 0 (ts.map recordLength),
      ¬ Opens page file.length curMax (fileOf big ts).length

theorem setupIfile_eq (page : ℕ) (file : List UInt8) : setupIfile page file.length =
    if traceSize ≤ file.length then some { curMax := firstEnd file } else none := by
  have hbase : pageBase page 0 = 0 := by simp [pageBase]
  have hlen : traceSize ≤ defLen := by decide
  unfold setupIfile
  obtain ⟨hret, hwindow⟩ := @moveMap_eq page file.length {} (Nat.zero_le _)
  simp only [hbase, Nat.sub_zero, Nat.zero_add] at hret hwindow
  by_cases hlong : traceSize ≤ file.length
  · have hpos : 0 < min defLen file.length := by
      unfold traceSize at *
      omega
    rw [decide_eq_true ⟨hlong, hpos⟩] at hret
    rw [if_pos hlong, Prod.eta (Window.moveMap page file.length {}) |>.symm, hret, hwindow hret]
    rfl
  · rw [decide_eq_false fun h => hlong h.1] at hret
    rw [if_neg hlong, Prod.eta (Window.moveMap page file.length {}) |>.symm, hret]

theorem at_first {rest : List UInt8} (h : file = rest) :
    At file big { curMax := firstEnd file } rest :=
  ⟨h, Nat.zero_le _, Nat.le_refl 0, Nat.min_le_right _ _, nofun⟩

/-- **A file of whole records** is delivered if and only if its records fit and their CPUs survive. -/
theorem delivered_iff {ts : List BlkIoTrace} (hfile : file = fileOf big ts) (hts : ∀ t ∈ ts, Whole t) :
    Delivered page file ts ↔ (big = true → ∀ t ∈ ts, t.cpu = 0) ∧
      InWindows page file.length (firstEnd file) 0 (ts.map recordLength) := by
  unfold Delivered
  rw [setupIfile_eq]
  by_cases hlong : traceSize ≤ file.length
  · rw [if_pos hlong]
    have hat : At file big { curMax := firstEnd file } (fileOf big ts) := at_first hfile
    have hsame : ts.map (asRead big) = ts ↔ (big = true → ∀ t ∈ ts, t.cpu = 0) := by
      have hid : ts.map (asRead big) = ts ↔ ∀ t ∈ ts, asRead big t = t := by
        simpa using @List.map_inj_left _ _ ts (asRead big) id
      rw [hid]
      constructor
      · intro h hbig t ht
        exact asRead_eq_iff.mp (h t ht) hbig
      · intro h t ht
        exact asRead_eq_iff.mpr fun hbig => h hbig t ht
    constructor
    · rintro ⟨n, reads, hcalls, hmapped⟩
      obtain ⟨hfit, heq⟩ := inWindows_of_calls hat hts hcalls rfl hmapped
      exact ⟨hsame.mp heq.symm, hfit⟩
    · rintro ⟨hcpu, hfit⟩
      obtain ⟨reads, hcalls, hmapped⟩ := calls_of_inWindows hat hts hfit
      rw [hsame.mpr hcpu] at hcalls
      exact ⟨_, reads, hcalls, hmapped⟩
  · rw [if_neg hlong]
    have hnil : ts = [] := by
      cases ts with
      | nil => rfl
      | cons t ts =>
        rw [hfile, fileOf_cons, List.length_append, length_image] at hlong
        omega
    rw [hnil]
    exact iff_of_true rfl ⟨nofun, trivial⟩

theorem staysInside_iff {ts : List BlkIoTrace} {t : BlkIoTrace} {n : ℕ} (h : CutOff file big ts t n) :
    StaysInside page file ↔
      ∀ curMax ∈ windowAfter page file.length (firstEnd file) 0 (ts.map recordLength),
        ¬ Opens page file.length curMax (fileOf big ts).length := by
  unfold StaysInside
  rw [setupIfile_eq]
  by_cases hlong : traceSize ≤ file.length
  · rw [if_pos hlong]
    simp only [Option.mem_some_iff, forall_eq']
    have hstays := @stays_iff page _ _ _ _ _ _ (at_first h.file) h.whole h.last h.cut
    simpa using hstays
  · rw [if_neg hlong]
    refine iff_of_true nofun fun curMax hafter hopen => ?_
    have hnil : ts = [] := by
      have hlen := congrArg List.length h.file
      cases ts with
      | nil => rfl
      | cons u us =>
        rw [fileOf_cons, List.length_append, List.length_append, length_image] at hlen
        omega
    rw [hnil] at hafter hopen
    obtain rfl := Option.some.inj hafter
    have hmove : firstEnd file < 0 + 512 := by
      unfold firstEnd traceSize at *
      omega
    have hshort := (hopen hmove).1
    omega

theorem reads_iff (page : ℕ) (file : List UInt8) : Reads page file ↔ Fitting page file := by
  constructor
  · intro h
    refine ⟨fun ts hfile hts => ?_, fun big ts hfile hts => ?_, fun big ts t n hcut => ?_⟩
    · exact ((delivered_iff hfile hts).mp (h.whole true ts hfile hts)).1 rfl
    · exact ((delivered_iff hfile hts).mp (h.whole big ts hfile hts)).2
    · exact (staysInside_iff hcut).mp (h.cut big ts t n hcut)
  · intro h
    refine ⟨fun big ts hfile hts => ?_, fun big ts t n hcut => ?_⟩
    · refine (delivered_iff hfile hts).mpr ⟨?_, h.windows big ts hfile hts⟩
      rintro rfl
      exact h.cpu ts hfile hts
    · exact (staysInside_iff hcut).mpr (h.cut big ts t n hcut)

/-! ## What does not fit -/

theorem length_fileOf_eq (big : Bool) (ts : List BlkIoTrace) :
    (fileOf big ts).length = (ts.map recordLength).sum := by
  induction ts with
  | nil => rfl
  | cons t ts ih => rw [fileOf_cons, List.length_append, length_image_eq, ih, List.map_cons, List.sum_cons]

theorem not_reads_of_windows {ts : List BlkIoTrace} (hts : ∀ t ∈ ts, Whole t)
    (h : ¬ InWindows page (fileOf big ts).length (firstEnd (fileOf big ts)) 0 (ts.map recordLength)) :
    ¬ Reads page (fileOf big ts) := by
  intro hreads
  exact h ((delivered_iff rfl hts).mp (hreads.whole big ts rfl hts)).2

/-- A long record 512 bytes before the end of the window, behind short ones. -/
theorem not_inWindows {page total curMax cur count short long : ℕ}
    (hbefore : cur + count * short + 512 ≤ curMax) (hbehind : curMax < cur + count * short + long) :
    ¬ InWindows page total curMax cur (List.replicate count short ++ [long]) := by
  induction count generalizing cur with
  | zero =>
    rintro ⟨hfit, -⟩
    apply hfit
    rw [Straddles, if_neg (by omega)]
    omega
  | succ count ih =>
    rw [Nat.succ_mul] at hbefore hbehind
    rintro ⟨-, hrest⟩
    rw [windowEnd, if_neg (by omega)] at hrest
    exact ih (by omega) (by omega) hrest

/-- A queue record of CPU `cpu` with a payload of zeros. -/
def zeroRecord (cpu : UInt32) (pduLen : UInt16) : BlkIoTrace where
  magic := 0x65617407
  sequence := 1
  time := 1
  sector := 0
  bytes := 4096
  action := 0x01100001
  pid := 1
  device := 1
  cpu := cpu
  error := 0
  pduLen := pduLen
  pdu := List.replicate pduLen.toNat 0

theorem whole_zeroRecord (cpu : UInt32) (pduLen : UInt16) : Whole (zeroRecord cpu pduLen) :=
  ⟨List.length_replicate, verifyTrace_eq_false.mpr ⟨show checkMagic 0x65617407 = true by decide,
    show (0x65617407 : UInt32) &&& 0xff = supportedVersion by decide⟩⟩

theorem length_zeroRecord (cpu : UInt32) (pduLen : UInt16) :
    recordLength (zeroRecord cpu pduLen) = traceSize + pduLen.toNat :=
  congrArg (traceSize + ·) List.length_replicate

/-- 32767 records of 512 bytes and one of 513, which begins 512 bytes before 16 MiB. -/
def straddling : List BlkIoTrace := List.replicate 32767 (zeroRecord 0 464) ++ [zeroRecord 0 465]

theorem whole_straddling : ∀ t ∈ straddling, Whole t := by
  intro t ht
  rcases List.mem_append.mp ht with ht | ht
  · rw [List.eq_of_mem_replicate ht]
    exact whole_zeroRecord 0 464
  · rw [List.mem_singleton.mp ht]
    exact whole_zeroRecord 0 465

theorem lengths_straddling : straddling.map recordLength = List.replicate 32767 512 ++ [513] := by
  have hshort : recordLength (zeroRecord 0 464) = 512 := length_zeroRecord 0 464
  have hlong : recordLength (zeroRecord 0 465) = 513 := length_zeroRecord 0 465
  rw [straddling, List.map_append, List.map_replicate, List.map_singleton, hshort, hlong]

theorem firstEnd_straddling : firstEnd (fileOf false straddling) = defLen := by
  rw [firstEnd, length_fileOf_eq, lengths_straddling, List.sum_append_nat, List.sum_replicate_nat]
  exact Nat.min_eq_left (by unfold defLen; rw [List.sum_singleton]; omega)

/-- With pages of 4096 bytes: a record that straddles the end of the first window, a record of CPU 1 in
the other byte order, and a payload of one byte that is cut off. -/
theorem not_reads :
    ¬ Reads 12 (fileOf false straddling) ∧
    ¬ Reads 12 (fileOf true [zeroRecord 1 0]) ∧
    ¬ Reads 12 (fileOf false [] ++ ((zeroRecord 0 1).image false).take 48) := by
  refine ⟨not_reads_of_windows whole_straddling ?_, fun h => ?_, fun h => ?_⟩
  · have hbefore : 0 + 32767 * 512 + 512 ≤ defLen := by decide
    have hbehind : defLen < 0 + 32767 * 512 + 513 := by decide
    rw [firstEnd_straddling, lengths_straddling]
    exact not_inWindows hbefore hbehind
  · have hwhole : ∀ t ∈ [zeroRecord 1 0], Whole t := by
      intro t ht
      rw [List.mem_singleton.mp ht]
      exact whole_zeroRecord 1 0
    have hcpu := ((delivered_iff rfl hwhole).mp (h.whole true _ rfl hwhole)).1 rfl _ List.mem_cons_self
    revert hcpu
    decide
  · have hcut : CutOff (fileOf false [] ++ ((zeroRecord 0 1).image false).take 48) false []
        (zeroRecord 0 1) 48 := ⟨rfl, nofun, whole_zeroRecord 0 1, by decide, by decide⟩
    have hshut := (staysInside_iff hcut).mp (h.cut false [] _ 48 hcut) _ rfl
    revert hshut
    decide

end Blktrace.Btt
