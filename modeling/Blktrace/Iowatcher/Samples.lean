import Blktrace.Iowatcher.MpstatRead
import Blktrace.Lib.Buffer

/-!
# The samples that `read_trace_events` keeps

The cursor is moved past a line before the samples of the line are stored, and where nothing is behind the
line, `next_mpstat_line` fails. So the last line of a file is dropped if the file ends with it, and the files
behind that one are not read at all.
-/

namespace Blktrace.Iowatcher

open Lines

/-! ## The seconds -/

/-- The samples of some records are stored, from a second on. -/
def KeepsRecords (gld : ℕ → GraphLineData) (T : ℕ) (records : List Record) : Prop :=
  ∀ t rec, records[t]? = some rec → KeepsLines gld (UInt32.ofNat (T + t)) 0 rec.lines

theorem ofNat_ne {T T' : ℕ} (hlt : T < T') (hT : T' < 2 ^ 32) : UInt32.ofNat T ≠ UInt32.ofNat T' := by
  intro heq
  have hval := congrArg UInt32.toNat heq
  rw [UInt32.toNat_ofNat_of_lt' (hlt.trans hT), UInt32.toNat_ofNat_of_lt' hT] at hval
  omega

theorem Listing.text_ne {s : Listing} (h : s.records ≠ [] ∨ s.tail ≠ []) : s.text ≠ [] := by
  rcases h with h | h
  · have hle : s.records.length ≤ s.text.length := length_recordsText _ _ _
    have hpos := List.length_pos_iff.mpr h
    exact List.length_pos_iff.mp (hpos.trans_le hle)
  · exact List.append_ne_nil_of_right_ne_nil _ h

theorem Listing.text_nil {s : Listing} (hs : s.records = []) (htail : s.tail = []) : s.text = [] := by
  rw [Listing.tail, List.append_eq_nil_iff] at htail
  rw [Listing.text, hs, htail.1, htail.2]
  rfl

theorem Listing.exists_head {s : Listing} (h : 0 < s.records.length) : ∃ rec, s.records = rec :: s.next.records := by
  obtain ⟨rec, records, hs⟩ := List.exists_cons_of_length_pos h
  exact ⟨rec, by rw [Listing.records_next, hs, List.tail_cons]⟩

/-- Where a file is when the next record is to be read. -/
structure AtRecord (r : Reading) (s : Listing) (count : ℕ) : Prop where
  done : r.done = false
  length : ∀ rec ∈ s.records, rec.lines.length = count
  cur : ∀ rec ∈ s.records.head?, r.cur = cursorAt rec.lines s.next.text

section

variable {count T left : ℕ} {s : Listing} {r r' : Reading} {rec : Record} {records : List Record}

theorem AtRecord.atLines (hat : AtRecord r s count) (hs : s.records = rec :: records) :
    AtLines r.cur rec.lines s.next.text := by
  have hhead : rec ∈ s.records.head? := by rw [hs]; rfl
  rw [hat.cur rec hhead]
  exact .of_cursorAt (s.lines_ne rec (hs ▸ List.mem_cons_self)) _

theorem AtRecord.length_head (hat : AtRecord r s count) (hs : s.records = rec :: records) :
    count = rec.lines.length := (hat.length rec (hs ▸ List.mem_cons_self)).symm

/-- Behind a record `next_mpstat` finds the next, if there is one. -/
theorem AtRecord.next (hat : AtRecord r s count) {mid : Reading} (hdone : mid.done = false)
    (hcur : mid.cur = s.next.text) :
    (s.next.records = [] ∧ nextMpstat mid.cur = none) ∨
      ∃ cur, nextMpstat mid.cur = some cur ∧ AtRecord { mid with cur } s.next count := by
  have hnext := @nextMpstat_text s.next [] nofun
  rw [unlines_nil, List.nil_append, ← hcur] at hnext
  cases hs : s.next.records with
  | nil =>
    rw [hs] at hnext
    exact .inl ⟨rfl, hnext⟩
  | cons rec records =>
    rw [hs] at hnext
    refine .inr ⟨_, hnext, hdone, fun rec' hrec' => hat.length rec' (List.mem_of_mem_tail hrec'), ?_⟩
    intro rec' hrec'
    rw [hs] at hrec'
    obtain rfl := Option.some.inj hrec'
    have hrest : s.next.next.records = records := by rw [Listing.records_next, hs, List.tail_cons]
    rw [Listing.text, hrest]
    rfl

/-- **The seconds** of a file with more behind them are stored. -/
theorem Reading.seconds_kept (hat : AtRecord r s count) (hleft : left ≤ s.records.length)
    (hmore : left < s.records.length ∨ s.tail ≠ []) (hT : T + left < 2 ^ 32)
    (h : Reading.seconds (lineIndices 0 count) left (UInt32.ofNat T) r = some r') :
    r'.done = false ∧ KeepsRecords r'.gld T (s.records.take left) ∧
      ∀ k u, u < T → (r'.gld k).data (UInt32.ofNat u) = (r.gld k).data (UInt32.ofNat u) := by
  induction left generalizing s T r with
  | zero =>
    obtain rfl : r = r' := Option.some.inj h
    exact ⟨hat.done, fun t rec hrec => (nomatch hrec), fun _ _ _ => rfl⟩
  | succ left ih =>
    obtain ⟨rec, hs⟩ := Listing.exists_head (left.succ_pos.trans_le hleft)
    rw [hs, List.length_cons] at hleft hmore
    have hbehind : s.next.text ≠ [] := by
      refine Listing.text_ne (hmore.imp_left fun hlt => ?_)
      exact List.length_pos_iff.mp (by omega)
    rw [Reading.seconds] at h
    obtain ⟨mid, hmid, h⟩ := Option.bind_eq_some_iff.mp h
    rw [hat.length_head hs] at hmid
    obtain ⟨hdone, hcur, hkept, hframe⟩ := Reading.record_kept (hat.atLines hs) hat.done hbehind hmid
    have hkept' : ∀ gld : ℕ → GraphLineData,
        (∀ k, (gld k).data (UInt32.ofNat T) = (mid.gld k).data (UInt32.ofNat T)) →
          KeepsLines gld (UInt32.ofNat T) 0 rec.lines := by
      intro gld hgld m l hl graph
      rw [hgld]
      exact hkept m l hl graph
    rw [if_neg (ne_true_of_eq_false hdone)] at h
    rcases hat.next hdone hcur with ⟨hnil, hnone⟩ | ⟨cur, hsome, hat'⟩
    -- the record was the last one, and the loop breaks off
    · rw [hnone] at h
      obtain rfl := Option.some.inj h
      refine ⟨hdone, fun t rec' hrec' => ?_, fun k u hu => hframe k _ (.inr (ofNat_ne hu (by omega)))⟩
      rw [hs, List.take_succ_cons, hnil, List.take_nil] at hrec'
      cases t with
      | zero =>
        obtain rfl := Option.some.inj hrec'
        exact hkept' _ fun _ => rfl
      | succ t => nomatch hrec'
    · rw [hsome, ← UInt32.ofNat_one, ← UInt32.ofNat_add] at h
      obtain ⟨hdone', hrest, hframe'⟩ := ih hat' (Nat.le_of_succ_le_succ hleft)
        (hmore.imp_left Nat.lt_of_succ_lt_succ) (by omega) h
      -- the seconds behind write none of the entries of this one
      refine ⟨hdone', fun t rec' hrec' => ?_, fun k u hu => ?_⟩
      · rw [hs, List.take_succ_cons] at hrec'
        cases t with
        | zero =>
          obtain rfl := Option.some.inj hrec'
          exact hkept' _ fun k => hframe' k T (Nat.lt_succ_self T)
        | succ t =>
          have hT : T + (t + 1) = T + 1 + t := by omega
          rw [hT]
          exact hrest t rec' hrec'
      · rw [hframe' k u (by omega)]
        exact hframe k _ (.inr (ofNat_ne hu (by omega)))

/-- The last line of a file with nothing behind it is dropped. -/
theorem Reading.seconds_dropped (hat : AtRecord r s count) (hleft : left = s.records.length)
    (hpos : left ≠ 0) (htail : s.tail = []) (hT : T + left < 2 ^ 32)
    (h : Reading.seconds (lineIndices 0 count) left (UInt32.ofNat T) r = some r') :
    r'.done = true ∧ ∀ k, (count - 1) * mpstatGraphs ≤ k →
      (r'.gld k).data (UInt32.ofNat (T + (left - 1))) = (r.gld k).data (UInt32.ofNat (T + (left - 1))) := by
  induction left generalizing s T r with
  | zero => exact absurd rfl hpos
  | succ left ih =>
    obtain ⟨rec, hs⟩ := Listing.exists_head (left.succ_pos.trans_eq hleft)
    rw [hs, List.length_cons] at hleft
    rw [Reading.seconds] at h
    obtain ⟨mid, hmid, h⟩ := Option.bind_eq_some_iff.mp h
    have hcount := hat.length_head hs
    rw [hcount] at hmid
    -- only the last record has nothing behind it
    cases left with
    | zero =>
      have hnil : s.next.text = [] := by
        exact Listing.text_nil (List.length_eq_zero_iff.mp (by omega)) htail
      obtain ⟨hdone, hframe⟩ := Reading.record_dropped (hnil ▸ hat.atLines hs) hat.done
        (s.lines_ne rec (hs ▸ List.mem_cons_self)) hmid
      rw [if_pos hdone] at h
      obtain rfl := Option.some.inj h
      refine ⟨hdone, fun k hk => hframe k _ (.inl ?_)⟩
      rw [Nat.zero_add, ← hcount]
      exact hk
    | succ left =>
      have hbehind : s.next.text ≠ [] := by
        exact Listing.text_ne (.inl (List.length_pos_iff.mp (by omega)))
      obtain ⟨hdone, hcur, -, hframe⟩ := Reading.record_kept (hat.atLines hs) hat.done hbehind hmid
      rw [if_neg (ne_true_of_eq_false hdone)] at h
      rcases hat.next hdone hcur with ⟨hnil, -⟩ | ⟨cur, hsome, hat'⟩
      · rw [hnil, List.length_nil] at hleft
        omega
      · rw [hsome, ← UInt32.ofNat_one, ← UInt32.ofNat_add] at h
        obtain ⟨hdone', hframe'⟩ := ih hat' (Nat.succ.inj hleft) (Nat.succ_ne_zero _) htail (by omega) h
        refine ⟨hdone', fun k hk => ?_⟩
        have hT' : T + (left + 1 + 1 - 1) = T + 1 + (left + 1 - 1) := by omega
        rw [hT', hframe' k hk]
        exact hframe k _ (.inr (ofNat_ne (by omega) (by omega)).symm)

/-- There is an end to the reading of a file if there is room for its values. -/
theorem Reading.seconds_isSome (hat : AtRecord r s count) (hleft : left ≤ s.records.length)
    (hfits : ∀ rec ∈ s.records.take left, ∀ l ∈ rec.lines, l.Fits) (time : UInt32) :
    (Reading.seconds (lineIndices 0 count) left time r).isSome := by
  induction left generalizing s time r with
  | zero => rfl
  | succ left ih =>
    obtain ⟨rec, hs⟩ := Listing.exists_head (left.succ_pos.trans_le hleft)
    rw [hs, List.take_succ_cons, List.forall_mem_cons] at hfits
    have hread : (r.record time (lineIndices 0 rec.lines.length)).isSome :=
      Reading.record_isSome (hat.atLines hs) hat.done hfits.1
    obtain ⟨mid, hmid⟩ := Option.isSome_iff_exists.mp hread
    rw [Reading.seconds, hat.length_head hs, hmid, Option.bind_some]
    by_cases hbehind : s.next.text = []
    · obtain ⟨hdone, -⟩ := Reading.record_dropped (hbehind ▸ hat.atLines hs) hat.done
        (s.lines_ne rec (hs ▸ List.mem_cons_self)) hmid
      rw [if_pos hdone]
      rfl
    · obtain ⟨hdone, hcur, -⟩ := Reading.record_kept (hat.atLines hs) hat.done hbehind hmid
      rw [if_neg (ne_true_of_eq_false hdone)]
      rcases hat.next hdone hcur with ⟨-, hnone⟩ | ⟨cur, hsome, hat'⟩
      · rw [hnone]
        rfl
      · rw [hsome, ← hat.length_head hs]
        rw [hs, List.length_cons] at hleft
        exact ih hat' (Nat.le_of_succ_le_succ hleft) hfits.2 _

end

/-! ## The files -/

/-- `tf->mpstat_stop_seconds`. -/
def MpstatFile.stop (maxSeconds : UInt32) (f : MpstatFile) : UInt32 :=
  if maxSeconds < UInt32.ofNat f.records.length then maxSeconds else UInt32.ofNat f.records.length

/-- `tf->mpstat_max_seconds`. -/
def MpstatFile.maxSeconds (maxSeconds : UInt32) (f : MpstatFile) : UInt32 :=
  if UInt32.ofNat f.records.length = 0 then 0 else maxSeconds

/-- The series of a file hold the samples of every second before the stop. -/
def Holds (f : MpstatFile) (tf : MpstatTrace) : Prop :=
  ∀ t rec, f.records[t]? = some rec → t < tf.stopSeconds.toNat → ∀ j l, rec.lines[j]? = some l →
    ∀ graph : MpstatGraph, ∃ sum : UInt64,
      (tf.gld (j * mpstatGraphs + graph.index)).data (UInt32.ofNat t) = ⟨1, sum⟩ ∧
        (sum.toNat : ℚ) = l.value graph

/-- **Every sample is read**: those of all files, whatever the others are like. -/
def Sampled (minSeconds maxSeconds : UInt32) (files : List MpstatFile) : Prop :=
  ∃ tfs, Mpstat.readTraceEvents minSeconds maxSeconds (files.map MpstatFile.text) = some tfs ∧
    List.Forall₂ Holds files tfs

/-- A file with room for its arrays: their number and the size of one are `int`s. -/
def MpstatFile.HasRoom (maxSeconds : UInt32) (f : MpstatFile) : Prop :=
  f.numCpus ≠ 0 →
    (f.numCpus + 1) * 5 < 2 ^ 31 ∧ 32 + ((f.maxSeconds maxSeconds).toNat + 1) * 16 < 2 ^ 31

/-- A file of which every sample is kept: it is read at all, the values are whole numbers, and behind the last
line that is read there is something. -/
structure MpstatFile.Kept (maxSeconds : UInt32) (f : MpstatFile) : Prop where
  cpus : f.stop maxSeconds = 0 ∨ f.numCpus ≠ 0
  whole : ∀ rec ∈ f.records.take (f.stop maxSeconds).toNat, ∀ l ∈ rec.lines, ∀ graph,
    ∃ n : ℕ, n < 2 ^ 64 ∧ l.value graph = n
  behind : f.stop maxSeconds ≠ 0 → (f.stop maxSeconds).toNat = f.records.length → f.tail ≠ []

/-- What a file is like when the reading begins. -/
structure Prepared (maxSeconds : UInt32) (f : MpstatFile) (tf : MpstatTrace) : Prop where
  text : tf.text = f.text
  numCpus : tf.numCpus = Int32.ofNat f.numCpus
  stop : tf.stopSeconds = f.stop maxSeconds
  data : ∀ k u, (tf.gld k).data u = {}

theorem sumOf_eq_some {x : ℚ} {sum : UInt64} (h : sumOf (some x) = some sum) :
    (sum.toNat : ℚ) = x ↔ ∃ n : ℕ, n < 2 ^ 64 ∧ x = n := by
  constructor
  · rintro rfl
    exact ⟨sum.toNat, sum.toNat_lt, rfl⟩
  · rintro ⟨n, hn, rfl⟩
    rw [sumOf, Option.bind_some] at h
    split_ifs at h
    obtain rfl := Option.some.inj h
    rw [Nat.floor_natCast, UInt64.toNat_ofNat_of_lt' hn]

theorem sumOf_natCast {n : ℕ} (hn : n < 2 ^ 64) : (sumOf (some (n : ℚ))).isSome := by
  have hneg : (-1 : ℚ) < n := by
    have := Nat.cast_nonneg (α := ℚ) n
    linarith
  have hlt : (n : ℚ) < 2 ^ 64 := by exact_mod_cast hn
  rw [sumOf, Option.bind_some, if_pos ⟨hneg, hlt⟩]
  rfl

theorem numCpus_toInt (f : MpstatFile) : (Int32.ofNat f.numCpus).toInt = f.numCpus :=
  Int32.toInt_ofNat_of_lt f.cpus_lt

theorem numCpus_eq_zero (f : MpstatFile) : Int32.ofNat f.numCpus = 0 ↔ f.numCpus = 0 := by
  rw [← Int32.toInt_inj, numCpus_toInt]
  exact Int.natCast_eq_zero

/-- The trace of a file before its arrays are there. -/
theorem setMinmax_text (minSeconds maxSeconds : UInt32) (f : MpstatFile) :
    Prepared maxSeconds f ((readMpstat f.text).setMinmax minSeconds maxSeconds) ∧
      ((readMpstat f.text).setMinmax minSeconds maxSeconds).maxSeconds = f.maxSeconds maxSeconds := by
  have hmax : (readMpstat f.text).maxSeconds = UInt32.ofNat f.records.length := by
    rw [readMpstat, findLastMpstatTime_text]
    rfl
  have hstop : (readMpstat f.text).stopSeconds = UInt32.ofNat f.records.length := hmax
  have hcpus : (readMpstat f.text).numCpus = Int32.ofNat f.numCpus := countMpstatCpus_text f
  rw [MpstatTrace.setMinmax, MpstatFile.maxSeconds, hmax, hstop]
  by_cases hzero : UInt32.ofNat f.records.length = 0
  · rw [if_neg (not_not_intro hzero), if_pos hzero]
    refine ⟨⟨rfl, hcpus, ?_, fun _ _ => rfl⟩, hmax.trans hzero⟩
    rw [hstop, MpstatFile.stop, hzero, if_neg (by simp)]
  · rw [if_pos hzero, if_neg hzero]
    exact ⟨⟨rfl, hcpus, rfl, fun _ _ => rfl⟩, rfl⟩

/-- There are the arrays, if there is room for them. -/
theorem setup_text {minSeconds maxSeconds : UInt32} {f : MpstatFile} {tf : MpstatTrace}
    (h : ((readMpstat f.text).setMinmax minSeconds maxSeconds).setup = some tf) :
    Prepared maxSeconds f tf ∧ f.HasRoom maxSeconds := by
  obtain ⟨hprepared, hmax⟩ := setMinmax_text minSeconds maxSeconds f
  rw [MpstatTrace.setup, hprepared.numCpus, hmax, numCpus_toInt] at h
  split_ifs at h with hzero hroom
  · obtain rfl := Option.some.inj h
    exact ⟨hprepared, fun hne => absurd ((numCpus_eq_zero f).mp hzero) hne⟩
  · obtain rfl := Option.some.inj h
    exact ⟨⟨hprepared.text, rfl, hprepared.stop, fun _ _ => rfl⟩, fun _ => by omega⟩

theorem setup_isSome {minSeconds maxSeconds : UInt32} {f : MpstatFile} (h : f.HasRoom maxSeconds) :
    ((readMpstat f.text).setMinmax minSeconds maxSeconds).setup.isSome := by
  obtain ⟨hprepared, hmax⟩ := setMinmax_text minSeconds maxSeconds f
  rw [MpstatTrace.setup, hprepared.numCpus, hmax, numCpus_toInt]
  split_ifs with hzero hroom
  · rfl
  · rfl
  · obtain ⟨hcount, hsize⟩ := h fun hcpus => hzero ((numCpus_eq_zero f).mpr hcpus)
    exact absurd ⟨by omega, by omega, hsize⟩ hroom

/-- Where the reading of a file begins. -/
theorem MpstatFile.atRecord (f : MpstatFile) (gld : ℕ → GraphLineData) :
    AtRecord { cur := firstMpstat f.text, gld } f.listing (f.numCpus + 1) := by
  refine ⟨rfl, f.lines_length, fun rec hrec => ?_⟩
  obtain ⟨records, hs⟩ : ∃ records, f.listing.records = rec :: records := by
    cases hs : f.listing.records with
    | nil => rw [hs] at hrec; nomatch hrec
    | cons rec' records =>
      rw [hs] at hrec
      exact ⟨records, by rw [Option.some.inj hrec]⟩
  have hnext := nextMpstat_cons hs f.noHeader_front
  rw [← f.text_eq] at hnext
  change (nextMpstat f.text).getD f.text = _
  rw [hnext]
  rfl

theorem stop_le (maxSeconds : UInt32) (f : MpstatFile) : (f.stop maxSeconds).toNat ≤ f.records.length := by
  have hcount : (UInt32.ofNat f.records.length).toNat ≤ f.records.length := by
    rw [UInt32.toNat_ofNat']
    exact Nat.mod_le _ _
  rw [MpstatFile.stop]
  split_ifs with h
  · exact (UInt32.lt_iff_toNat_lt.mp h).le.trans hcount
  · exact hcount

section

variable {maxSeconds : UInt32} {f : MpstatFile} {tf : MpstatTrace}

/-- The lines of a record have the indices of the loop. -/
theorem Prepared.lines (h : Prepared maxSeconds f tf) : tf.lines = lineIndices 0 (f.numCpus + 1) := by
  have hcount : (((f.numCpus : ℕ) : ℤ) + 1).toNat = f.numCpus + 1 := by omega
  rw [MpstatTrace.lines, h.numCpus, numCpus_toInt, hcount, lineIndices, List.range_eq_range']

theorem Prepared.read_eq (h : Prepared maxSeconds f tf) : tf.read = Reading.seconds
    (lineIndices 0 (f.numCpus + 1)) (f.stop maxSeconds).toNat (UInt32.ofNat 0)
      { cur := firstMpstat f.text, gld := tf.gld } := by
  rw [MpstatTrace.read, h.lines, h.stop, h.text]
  rfl

/-- What is kept of the records is what they hold, if the values are whole numbers. -/
theorem holds_iff (hstop : tf.stopSeconds = f.stop maxSeconds)
    (hkept : KeepsRecords tf.gld 0 (f.records.take (f.stop maxSeconds).toNat)) :
    Holds f tf ↔ ∀ rec ∈ f.records.take (f.stop maxSeconds).toNat, ∀ l ∈ rec.lines, ∀ graph,
      ∃ n : ℕ, n < 2 ^ 64 ∧ l.value graph = n := by
  constructor
  · intro hholds rec hrec l hl graph
    obtain ⟨t, ht⟩ := List.mem_iff_getElem?.mp hrec
    obtain ⟨j, hj⟩ := List.mem_iff_getElem?.mp hl
    obtain ⟨sum, hsum, hpair⟩ := hkept t rec ht j l hj graph
    rw [List.getElem?_take] at ht
    split_ifs at ht with hlt
    obtain ⟨sum', hpair', hvalue⟩ := hholds t rec ht (hstop ▸ hlt) j l hj graph
    rw [Nat.zero_add, Nat.zero_add] at hpair
    rw [hpair, GraphLinePair.mk.injEq] at hpair'
    obtain rfl := hpair'.2
    exact (sumOf_eq_some hsum).mp hvalue
  · intro hwhole t rec hrec hlt j l hl graph
    have htake : (f.records.take (f.stop maxSeconds).toNat)[t]? = some rec := by
      rw [List.getElem?_take, if_pos (hstop ▸ hlt), hrec]
    obtain ⟨sum, hsum, hpair⟩ := hkept t rec htake j l hl graph
    rw [Nat.zero_add, Nat.zero_add] at hpair
    refine ⟨sum, hpair, (sumOf_eq_some hsum).mpr ?_⟩
    exact hwhole rec (List.mem_of_getElem? htake) l (List.mem_of_getElem? hl) graph

/-- **A file** with something behind the last line that is read holds its samples if they are whole numbers,
and the reading goes on. -/
theorem Prepared.read_kept (h : Prepared maxSeconds f tf)
    (hbehind : f.stop maxSeconds ≠ 0 → (f.stop maxSeconds).toNat = f.records.length → f.tail ≠ [])
    {r : Reading} (hread : tf.read = some r) : r.done = false ∧ (Holds f { tf with gld := r.gld } ↔
      ∀ rec ∈ f.records.take (f.stop maxSeconds).toNat, ∀ l ∈ rec.lines, ∀ graph,
        ∃ n : ℕ, n < 2 ^ 64 ∧ l.value graph = n) := by
  rw [h.read_eq] at hread
  by_cases hzero : f.stop maxSeconds = 0
  · rw [hzero] at hread
    obtain rfl := Option.some.inj hread
    refine ⟨rfl, holds_iff h.stop ?_⟩
    rw [hzero]
    intro t rec hrec
    nomatch hrec
  · have hmore : (f.stop maxSeconds).toNat < f.listing.records.length ∨ f.listing.tail ≠ [] :=
      (stop_le maxSeconds f).lt_or_eq.imp_right (hbehind hzero)
    have hlt : 0 + (f.stop maxSeconds).toNat < 2 ^ 32 := by
      rw [Nat.zero_add]
      exact (f.stop maxSeconds).toNat_lt
    obtain ⟨hdone, hkept, -⟩ := Reading.seconds_kept (f.atRecord tf.gld) (stop_le maxSeconds f) hmore hlt hread
    exact ⟨hdone, holds_iff h.stop hkept⟩

/-- **A file** that ends with the last line that is read does not hold its samples. -/
theorem Prepared.read_dropped (h : Prepared maxSeconds f tf) (hstop : f.stop maxSeconds ≠ 0)
    (hlength : (f.stop maxSeconds).toNat = f.records.length) (htail : f.tail = [])
    {r : Reading} (hread : tf.read = some r) : r.done = true ∧ ¬ Holds f { tf with gld := r.gld } := by
  rw [h.read_eq] at hread
  have hne : (f.stop maxSeconds).toNat ≠ 0 := fun hzero => hstop (UInt32.toNat_inj.mp hzero)
  have hlt : 0 + (f.stop maxSeconds).toNat < 2 ^ 32 := by
    rw [Nat.zero_add]
    exact (f.stop maxSeconds).toNat_lt
  obtain ⟨hdone, hframe⟩ := Reading.seconds_dropped (f.atRecord tf.gld) hlength hne htail hlt hread
  refine ⟨hdone, fun hholds => ?_⟩
  -- the entry of the last line is still the first one
  obtain ⟨rec, hrec⟩ : ∃ rec, f.records[(f.stop maxSeconds).toNat - 1]? = some rec :=
    ⟨_, List.getElem?_eq_getElem (by omega)⟩
  have hlines : rec.lines.length = f.numCpus + 1 := f.lines_length rec (List.mem_of_getElem? hrec)
  obtain ⟨l, hl⟩ : ∃ l, rec.lines[f.numCpus]? = some l :=
    ⟨_, List.getElem?_eq_getElem (by omega)⟩
  obtain ⟨sum, hpair, -⟩ := hholds _ rec hrec (by rw [h.stop]; omega) _ l hl .sys
  have hentry := hframe (f.numCpus * mpstatGraphs + MpstatGraph.sys.index) (Nat.le_add_right _ _)
  rw [Nat.zero_add, hpair, h.data] at hentry
  nomatch hentry

theorem Prepared.read_isSome (h : Prepared maxSeconds f tf)
    (hwhole : ∀ rec ∈ f.records.take (f.stop maxSeconds).toNat, ∀ l ∈ rec.lines, ∀ graph,
      ∃ n : ℕ, n < 2 ^ 64 ∧ l.value graph = n) : tf.read.isSome := by
  rw [h.read_eq]
  refine Reading.seconds_isSome (f.atRecord tf.gld) (stop_le maxSeconds f) (fun rec hrec l hl graph => ?_) _
  obtain ⟨n, hn, hvalue⟩ := hwhole rec hrec l hl graph
  rw [hvalue]
  exact sumOf_natCast hn

/-- A file that is passed over holds its samples if it has none. -/
theorem Prepared.holds_skipped (h : Prepared maxSeconds f tf) (hcpus : f.numCpus = 0) :
    Holds f tf ↔ f.stop maxSeconds = 0 := by
  constructor
  · intro hholds
    by_contra hstop
    have hpos : 0 < (f.stop maxSeconds).toNat :=
      Nat.pos_of_ne_zero fun hzero => hstop (UInt32.toNat_inj.mp hzero)
    obtain ⟨rec, hrec⟩ : ∃ rec, f.records[0]? = some rec :=
      ⟨_, List.getElem?_eq_getElem (hpos.trans_le (stop_le maxSeconds f))⟩
    have hlines : rec.lines.length = f.numCpus + 1 := f.lines_length rec (List.mem_of_getElem? hrec)
    obtain ⟨l, hl⟩ : ∃ l, rec.lines[0]? = some l :=
      ⟨_, List.getElem?_eq_getElem (by omega)⟩
    obtain ⟨sum, hpair, -⟩ := hholds 0 rec hrec (h.stop ▸ hpos) 0 l hl .sys
    rw [h.data] at hpair
    nomatch hpair
  · intro hstop t rec _ hlt
    rw [h.stop, hstop] at hlt
    exact absurd hlt (Nat.not_lt_zero _)

end

/-- **The files**, one after the other: what one does not read to its end takes the others with it. -/
theorem readFiles_iff {maxSeconds : UInt32} {files : List MpstatFile} {tfs : List MpstatTrace}
    (h : List.Forall₂ (Prepared maxSeconds) files tfs) :
    (∃ tfs', readFiles tfs = some tfs' ∧ List.Forall₂ Holds files tfs') ↔ ∀ f ∈ files, f.Kept maxSeconds := by
  induction h with
  | nil => exact ⟨fun _ => nofun, fun _ => ⟨[], rfl, .nil⟩⟩
  | @cons f tf files tfs hf _ ih =>
    rw [List.forall_mem_cons, ← ih, readFiles]
    by_cases hcpus : f.numCpus = 0
    · have hzero : tf.numCpus = 0 := hf.numCpus.trans ((numCpus_eq_zero f).mpr hcpus)
      rw [if_pos hzero]
      constructor
      · rintro ⟨tfs', hread, hholds⟩
        obtain ⟨rest, hrest, rfl⟩ := Option.map_eq_some_iff.mp hread
        rw [List.forall₂_cons] at hholds
        have hstop := (hf.holds_skipped hcpus).mp hholds.1
        refine ⟨⟨.inl hstop, ?_, fun hne => absurd hstop hne⟩, rest, hrest, hholds.2⟩
        rw [hstop]
        nofun
      · rintro ⟨hkept, rest, hrest, hholds⟩
        have hstop := hkept.cpus.resolve_right (not_not_intro hcpus)
        exact ⟨tf :: rest, by rw [hrest]; rfl, .cons ((hf.holds_skipped hcpus).mpr hstop) hholds⟩
    · have hne : tf.numCpus ≠ 0 := fun hzero => hcpus ((numCpus_eq_zero f).mp (hf.numCpus.symm.trans hzero))
      rw [if_neg hne]
      constructor
      · rintro ⟨tfs', hread, hholds⟩
        obtain ⟨r, hr, hread⟩ := Option.bind_eq_some_iff.mp hread
        -- otherwise the last sample of this file is missing, whatever becomes of the others
        have hbehind : f.stop maxSeconds ≠ 0 → (f.stop maxSeconds).toNat = f.records.length → f.tail ≠ [] := by
          intro hstop hlength htail
          obtain ⟨hdone, hnot⟩ := hf.read_dropped hstop hlength htail hr
          rw [if_pos hdone] at hread
          obtain rfl := Option.some.inj hread
          exact hnot (List.forall₂_cons.mp hholds).1
        obtain ⟨hdone, hiff⟩ := hf.read_kept hbehind hr
        rw [if_neg (ne_true_of_eq_false hdone)] at hread
        obtain ⟨rest, hrest, rfl⟩ := Option.map_eq_some_iff.mp hread
        rw [List.forall₂_cons] at hholds
        exact ⟨⟨.inr hcpus, hiff.mp hholds.1, hbehind⟩, rest, hrest, hholds.2⟩
      · rintro ⟨hkept, rest, hrest, hholds⟩
        obtain ⟨r, hr⟩ := Option.isSome_iff_exists.mp (hf.read_isSome hkept.whole)
        obtain ⟨hdone, hiff⟩ := hf.read_kept hkept.behind hr
        refine ⟨{ tf with gld := r.gld } :: rest, ?_, .cons (hiff.mpr hkept.whole) hholds⟩
        rw [hr, Option.bind_some, if_neg (ne_true_of_eq_false hdone), hrest]
        rfl

/-- The files before the reading. -/
theorem prepared_of_setup {minSeconds maxSeconds : UInt32} {files : List MpstatFile} {tfs : List MpstatTrace}
    (h : (files.map MpstatFile.text).mapM
      (fun text => ((readMpstat text).setMinmax minSeconds maxSeconds).setup) = some tfs) :
    List.Forall₂ (Prepared maxSeconds) files tfs ∧ ∀ f ∈ files, f.HasRoom maxSeconds := by
  induction files generalizing tfs with
  | nil =>
    obtain rfl := Option.some.inj h
    exact ⟨.nil, nofun⟩
  | cons f files ih =>
    rw [List.map_cons, List.mapM_cons] at h
    obtain ⟨tf, htf, h⟩ := Option.bind_eq_some_iff.mp h
    obtain ⟨rest, hrest, h⟩ := Option.bind_eq_some_iff.mp h
    obtain rfl := Option.some.inj h
    obtain ⟨hf, hroom⟩ := setup_text htf
    obtain ⟨hfiles, hrooms⟩ := ih hrest
    exact ⟨.cons hf hfiles, List.forall_mem_cons.mpr ⟨hroom, hrooms⟩⟩

theorem kept_of_sampled {minSeconds maxSeconds : UInt32} {files : List MpstatFile}
    (h : Sampled minSeconds maxSeconds files) : ∀ f ∈ files, f.HasRoom maxSeconds ∧ f.Kept maxSeconds := by
  obtain ⟨tfs, hread, hholds⟩ := h
  obtain ⟨tfs', hsetup, hread⟩ := Option.bind_eq_some_iff.mp hread
  obtain ⟨hprepared, hroom⟩ := prepared_of_setup hsetup
  have hkept := (readFiles_iff hprepared).mp ⟨tfs, hread, hholds⟩
  exact fun f hf => ⟨hroom f hf, hkept f hf⟩

/-- **The samples of all files are read** just if each file has room for its arrays, is read at all, has whole
numbers, and does not end with the last line that is read. -/
theorem sampled_iff (minSeconds maxSeconds : UInt32) (files : List MpstatFile) :
    Sampled minSeconds maxSeconds files ↔ ∀ f ∈ files, f.HasRoom maxSeconds ∧ f.Kept maxSeconds := by
  refine ⟨kept_of_sampled, fun h => ?_⟩
  have hsome : ((files.map MpstatFile.text).mapM
      (fun text => ((readMpstat text).setMinmax minSeconds maxSeconds).setup)).isSome := by
    rw [Buffer.mapM_isSome, List.forall_mem_map]
    exact fun f hf => setup_isSome (h f hf).1
  obtain ⟨tfs, hsetup⟩ := Option.isSome_iff_exists.mp hsome
  obtain ⟨tfs', hread, hholds⟩ :=
    (readFiles_iff (prepared_of_setup hsetup).1).mpr fun f hf => (h f hf).2
  exact ⟨tfs', by rw [Mpstat.readTraceEvents, hsetup, Option.bind_some, hread], hholds⟩

/-! ## A file of one second -/

/-- `0.00`. -/
def zeroCell : Cell where
  blanks := 3
  whole := [0x30]
  cents := [0x30, 0x30]
  digits := by decide +kernel
  whole_ne := List.cons_ne_nil _ _

/-- A line with nothing but zeros. -/
def idleLine (front : List UInt8) (length_front : front.length = 16)
    (plain_front : PlainLine front) : CpuLine :=
  ⟨front, zeroCell, zeroCell, zeroCell, zeroCell, zeroCell, zeroCell, [zeroCell, zeroCell, zeroCell],
    length_front, plain_front⟩

/-- A second in which a machine with one CPU did nothing. -/
def idleRecord : Record where
  gap := [[]]
  stamp := "09:56:26 AM  ".toUTF8.toList
  lines :=
    [idleLine "09:56:27 AM  all".toUTF8.toList (by decide +kernel) (by decide +kernel),
      idleLine "09:56:27 AM    0".toUTF8.toList (by decide +kernel) (by decide +kernel)]
  noHeader_gap line hline := by
    obtain rfl := List.mem_singleton.mp hline
    exact ⟨nofun, by decide +kernel⟩
  plain_stamp := by decide +kernel

/-- The output of `mpstat -P ALL 1 1`, up to the last line of the second. -/
def idleFile : MpstatFile where
  v2 := false
  system := "Linux 3.6.0 (host)  09/20/12  _x86_64_  ".toUTF8.toList
  cpus := [0x31]
  banner := []
  records := [idleRecord]
  behind := []
  last := []
  cpus_ne := List.cons_ne_nil _ _
  cpus_digits := by decide +kernel
  cpus_lt := by decide +kernel
  unmarked := by decide +kernel
  noHeader_banner := ⟨by decide +kernel, by decide +kernel⟩
  lines_length r hr := by
    obtain rfl := List.mem_singleton.mp hr
    decide
  noHeader_behind := nofun
  plain_last := nofun

theorem not_sampled : ¬ Sampled 0 1 [idleFile] := by
  intro h
  obtain ⟨-, hkept⟩ := kept_of_sampled h idleFile List.mem_cons_self
  exact hkept.behind (by decide) (by decide) rfl

end Blktrace.Iowatcher
