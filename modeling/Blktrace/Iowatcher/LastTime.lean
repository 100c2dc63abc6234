import Blktrace.Iowatcher.Cursor

/-!
# What is found of the last time

The search from behind takes the last place at which an IO event seems to stand that reaches to the end
of the file. In a file of whole records this is the last record, if it is an IO event and nothing in
its payload looks like one; where the search finds nothing the scan has the right time.
-/

namespace Blktrace.Iowatcher

/-- An IO event: no notify, or a message of fio. -/
def IoEvent (t : BlkIoTrace) : Bool := !t.hasTc blkTcNotify || t.isMessage && t.pdu.take 4 == fio

/-- The time of the last IO event. -/
def lastIoTime (ts : List BlkIoTrace) : UInt64 := ((ts.filter IoEvent).getLast?.map (·.time)).getD 0

/-! ## The scan -/

/-- A valid record begins with its version. -/
theorem image_head {t : BlkIoTrace} (h : verifyTrace t = false) : ∃ bs, t.image false = 0x07 :: bs := by
  have hversion := (verifyTrace_eq_false.mp h).2
  have hmod : t.magic.toNat % 256 = 7 := by
    have hand := congrArg UInt32.toNat hversion
    rw [UInt32.toNat_and] at hand
    exact (Nat.and_two_pow_sub_one_eq_mod t.magic.toNat 8).symm.trans hand
  have hbyte : UInt8.ofNat t.magic.toNat = 0x07 := by
    apply UInt8.toNat_inj.mp
    simpa using hmod
  rw [← hbyte]
  exact ⟨_, rfl⟩

/-- Four bytes behind a header are in the payload when they are those of fio. -/
theorem take_fio {pdu : List UInt8} {ts : List BlkIoTrace} (h : ∀ t ∈ ts, Whole t)
    (hlen : 3 ≤ pdu.length) :
    (pdu ++ fileOf false ts).take 4 = fio ↔ pdu.take 4 = fio := by
  by_cases hfour : 4 ≤ pdu.length
  · rw [List.take_append_of_le_length hfour]
  · obtain ⟨a, b, c, rfl⟩ := List.length_eq_three.mp (show pdu.length = 3 by omega)
    cases ts with
    | nil => rfl
    | cons t ts =>
      obtain ⟨bs, hbs⟩ := image_head (h t List.mem_cons_self).valid
      rw [fileOf_cons, hbs]
      simp [fio]

theorem isIoEvent_image {file : List UInt8} {cur : ℕ} {t : BlkIoTrace} {ts : List BlkIoTrace}
    (ht : t.Complete) (hts : ∀ u ∈ ts, Whole u)
    (h : file.drop cur = t.image false ++ fileOf false ts) : isIoEvent file cur = IoEvent t := by
  have hbehind : file.drop (cur + traceSize) = t.pdu ++ fileOf false ts := by
    rw [← List.drop_drop, h, BlkIoTrace.image, List.append_assoc]
    exact Bytes.Layout.drop_store (headerLayout false) t.header _
  unfold isIoEvent IoEvent
  rw [ioAt_image ht h, hbehind]
  dsimp only
  rw [← ht]
  cases t.hasTc blkTcNotify with
  | false => rfl
  | true =>
    cases t.isMessage with
    | false => rfl
    | true =>
      simp only [Bool.not_true, Bool.false_eq_true, if_false, if_true, Bool.false_or, Bool.true_and]
      by_cases hlen : t.pdu.length < 3
      · rw [if_pos hlen]
        symm
        rw [beq_eq_false_iff_ne]
        intro heq
        have hfour := congrArg List.length heq
        rw [List.length_take] at hfour
        simp [fio] at hfour
        omega
      · rw [if_neg hlen, Bool.eq_iff_iff, beq_iff_eq, beq_iff_eq]
        exact take_fio hts (not_lt.mp hlen)

/-- The time of the last IO event, with one found before. -/
theorem getLast?_filter_cons (found : UInt64) (t : BlkIoTrace) (ts : List BlkIoTrace) :
    (((t :: ts).filter IoEvent).getLast?.map (·.time)).getD found =
      ((ts.filter IoEvent).getLast?.map (·.time)).getD (if IoEvent t then t.time else found) := by
  cases h : IoEvent t with
  | false => simp [h]
  | true => cases hlast : (ts.filter IoEvent).getLast? <;> simp [h, List.getLast?_cons, hlast]

theorem scanOn_fileOf {file : List UInt8} {t : BlkIoTrace} {ts : List BlkIoTrace} {cur fuel : ℕ}
    (hfile : file.drop cur = fileOf false (t :: ts)) (h : ∀ u ∈ t :: ts, Whole u)
    (hfuel : ts.length < fuel) (found : UInt64) : scanOn file fuel cur found =
      (((t :: ts).filter IoEvent).getLast?.map (·.time)).getD found := by
  induction ts generalizing t cur fuel found with
  | nil =>
    obtain ⟨fuel, rfl⟩ := Nat.exists_eq_add_of_lt hfuel
    have ht := (h t List.mem_cons_self).complete
    have hnone : ∀ u ∈ ([] : List BlkIoTrace), Whole u := List.forall_mem_nil _
    rw [getLast?_filter_cons, scanOn, isIoEvent_image ht hnone hfile, ioAt_image ht hfile]
    rcases nextRecord_image ht hfile with ⟨-, hend⟩ | ⟨mid, hmid, hrest⟩
    · rw [hend]
      rfl
    · obtain ⟨-, hin⟩ := nextRecord_lt hmid
      have hlen := List.drop_eq_nil_iff.mp hrest
      omega
  | cons u us ih =>
    obtain ⟨fuel, rfl⟩ : ∃ n, fuel = n + 1 := Nat.exists_eq_succ_of_ne_zero (Nat.ne_of_gt
      (Nat.zero_lt_of_lt hfuel))
    have ht := (h t List.mem_cons_self).complete
    have hus : ∀ v ∈ u :: us, Whole v := fun v hv => h v (List.mem_cons_of_mem t hv)
    rw [getLast?_filter_cons, scanOn, isIoEvent_image ht hus hfile, ioAt_image ht hfile]
    rcases nextRecord_image ht hfile with ⟨hnil, -⟩ | ⟨mid, hmid, hrest⟩
    · have hlen := length_fileOf false (u :: us)
      have hzero : (fileOf false (u :: us)).length = 0 := congrArg List.length hnil
      rw [hzero] at hlen
      cases hlen
    · rw [hmid]
      exact ih hrest hus (Nat.lt_of_succ_lt_succ hfuel) _

/-! ## The search -/

theorem looksLast_le {file : List UInt8} {p : ℕ} (h : looksLast file p = true) :
    p + traceSize ≤ file.length := by
  simp only [looksLast, Bool.and_eq_true, beq_iff_eq] at h
  omega

theorem searchBack_some {file : List UInt8} {left p : ℕ} {time : UInt64}
    (h : searchBack file left p = some time) : ∃ q, looksLast file q = true ∧ p < q + left ∧
      (∀ r, q < r → r ≤ p → looksLast file r = false) ∧ (ioAt file q).time = time := by
  induction left generalizing p with
  | zero => nomatch h
  | succ left ih =>
    unfold searchBack at h
    by_cases hp : looksLast file p = true
    · rw [if_pos hp] at h
      refine ⟨p, hp, by omega, fun r hr hle => ?_, Option.some.inj h⟩
      omega
    · rw [if_neg hp] at h
      cases p with
      | zero => nomatch h
      | succ p =>
        obtain ⟨q, hq, hleft, hbelow, htime⟩ := ih h
        refine ⟨q, hq, by omega, fun r hr hle => ?_, htime⟩
        rcases Nat.lt_or_ge p r with hlt | hge
        · obtain rfl : r = p + 1 := by omega
          exact Bool.eq_false_iff.mpr hp
        · exact hbelow r hr hge

theorem searchBack_none {file : List UInt8} {left p q : ℕ} (h : searchBack file left p = none)
    (hle : q ≤ p) (hleft : p < q + left) : looksLast file q = false := by
  induction left generalizing p with
  | zero => omega
  | succ left ih =>
    unfold searchBack at h
    split_ifs at h with hp
    rcases Nat.eq_or_lt_of_le hle with rfl | hlt
    · exact Bool.eq_false_iff.mpr hp
    · cases p with
      | zero => omega
      | succ p => exact ih h (by omega) (by omega)

/-! ## What is promised -/

/-- The last place at which an IO event seems to end the file, where the search gets to it. -/
structure Topmost (file : List UInt8) (p : ℕ) : Prop where
  looks : looksLast file p = true
  reached : file.length ≤ p + traceSize + 8192
  last : ∀ q, p < q → looksLast file q = false

theorem Topmost.unique {file : List UInt8} {p q : ℕ} (hp : Topmost file p) (hq : Topmost file q) :
    p = q := by
  rcases Nat.lt_trichotomy p q with hlt | rfl | hgt
  · exact Bool.noConfusion ((hp.last q hlt).symm.trans hq.looks)
  · rfl
  · exact Bool.noConfusion ((hq.last p hgt).symm.trans hp.looks)

/-- The records are exposed in the file, the iteration ends, and the last time of a file of valid
records is that of its last IO event. -/
structure Served (file : List UInt8) : Prop where
  inside : traceSize ≤ file.length → ∀ k cur, cursor file 0 k = some cur → Inside file cur
  ends : traceSize ≤ file.length → ∃ k, cursor file 0 k = none
  last : ∀ ts, file = fileOf false ts → (∀ t ∈ ts, Whole t) → findLastTime file = lastIoTime ts

/-- No record is cut off, and in a file of valid records nothing that seems to end the file has another
time than the last IO event. -/
structure Plain (file : List UInt8) : Prop where
  whole : traceSize ≤ file.length → ∃ ts, file = fileOf false ts ∧ ∀ t ∈ ts, t.Complete
  looks : ∀ ts, file = fileOf false ts → (∀ t ∈ ts, Whole t) →
    ∀ p, Topmost file p → (ioAt file p).time = lastIoTime ts

theorem inside_iff_whole {file : List UInt8} (hlen : traceSize ≤ file.length) :
    (∀ k cur, cursor file 0 k = some cur → Inside file cur) ↔
      ∃ ts, file = fileOf false ts ∧ ∀ t ∈ ts, t.Complete := by
  constructor
  · intro h
    obtain ⟨ts, hts⟩ := whole_of_inside (Nat.zero_le _) h
    rw [List.drop_zero] at hts
    exact ⟨ts, hts⟩
  · rintro ⟨ts, rfl, hts⟩ k cur hcur
    cases ts with
    | nil => nomatch hlen
    | cons t ts => exact inside_of_whole List.drop_zero hts hcur

/-- **What is returned**: the time at the topmost place, or what the scan finds. -/
theorem findLastTime_eq {file : List UInt8} {ts : List BlkIoTrace} (hfile : file = fileOf false ts)
    (h : ∀ t ∈ ts, Whole t) : (∃ p, Topmost file p ∧ findLastTime file = (ioAt file p).time) ∨
      (∀ p, ¬ Topmost file p) ∧ findLastTime file = lastIoTime ts := by
  cases ts with
  | nil =>
    refine .inr ⟨fun p hp => ?_, by rw [hfile]; rfl⟩
    have hle := looksLast_le hp.looks
    rw [hfile] at hle
    nomatch hle
  | cons t ts =>
    have hdrop : file.drop 0 = fileOf false (t :: ts) := hfile
    have hlen := length_of_drop (h t List.mem_cons_self).complete hdrop
    unfold findLastTime
    rw [if_neg (by omega)]
    cases hsearch : searchBack file 8193 (file.length - traceSize) with
    | some time =>
      obtain ⟨q, hq, hleft, hbelow, htime⟩ := searchBack_some hsearch
      refine .inl ⟨q, ⟨hq, by omega, fun r hr => ?_⟩, htime.symm⟩
      by_contra hlook
      rw [Bool.not_eq_false] at hlook
      have hle := looksLast_le hlook
      exact Bool.noConfusion ((hbelow r hr (by omega)).symm.trans hlook)
    | none =>
      refine .inr ⟨fun p hp => ?_, ?_⟩
      · have hle := looksLast_le hp.looks
        have hreach := hp.reached
        exact Bool.noConfusion ((searchBack_none hsearch (by omega) (by omega)).symm.trans hp.looks)
      · have hcount : ts.length < file.length := by
          have hle := length_fileOf false (t :: ts)
          rw [← hfile, List.length_cons] at hle
          exact hle
        exact scanOn_fileOf hdrop h hcount 0

theorem served_iff (file : List UInt8) : Served file ↔ Plain file := by
  constructor
  · intro h
    refine ⟨fun hlen => (inside_iff_whole hlen).mp (h.inside hlen), fun ts hfile hts p hp => ?_⟩
    rw [← h.last ts hfile hts]
    rcases findLastTime_eq hfile hts with ⟨q, hq, htime⟩ | ⟨hnone, -⟩
    · rw [htime, hp.unique hq]
    · exact absurd hp (hnone p)
  · intro h
    refine ⟨fun hlen => (inside_iff_whole hlen).mpr (h.whole hlen), fun _ => cursor_ends file,
      fun ts hfile hts => ?_⟩
    rcases findLastTime_eq hfile hts with ⟨p, hp, htime⟩ | ⟨-, htime⟩
    · rw [htime]
      exact h.looks ts hfile hts p hp
    · exact htime

/-- A queue record with a payload. -/
def ioRecord (time : UInt64) (pduLen : UInt16) (pdu : List UInt8) : BlkIoTrace where
  magic := 0x65617407
  sequence := 1
  time := time
  sector := 0
  bytes := 4096
  action := 0x01100001
  pid := 1
  device := 1
  cpu := 0
  error := 0
  pduLen := pduLen
  pdu := pdu

/-- A header whose payload is cut off, and a payload that looks like a later record. -/
theorem not_served : ¬ Served ((ioRecord 1 1 []).image false) ∧
    ¬ Served (fileOf false [ioRecord 1 48 ((ioRecord 9 0 []).image false)]) := by
  constructor
  · intro h
    have hin := h.inside (by decide) 0 0 rfl
    revert hin
    unfold Inside
    decide
  · intro h
    have hwhole : Whole (ioRecord 1 48 ((ioRecord 9 0 []).image false)) :=
      ⟨by decide, by decide⟩
    have hlast := h.last _ rfl fun t ht => List.mem_singleton.mp ht ▸ hwhole
    revert hlast
    decide

end Blktrace.Iowatcher
