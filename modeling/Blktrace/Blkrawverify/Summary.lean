import Blktrace.Blkrawverify.Survey

/-!
# The summary of a file

Behind the number of invalid records the summary has a count for each check. Two of the counts are
never bumped: a record without the magic is in none of the others either, and a payload that is cut off
is put down to the sequence numbers.
-/

namespace Blktrace.Blkrawverify

/-- The checks of `process`, by their categories in the summary. -/
inductive Check
  | trace | pdu | cpu | seq | dev | time
deriving DecidableEq

/-- The count that the summary has for a check. -/
def Verify.count (s : Verify) : Check → UInt32
  | .trace => s.nbadTrace
  | .pdu => s.nbadPdu
  | .cpu => s.nbadCpu
  | .seq => s.nbadSeq
  | .dev => s.nbadDev
  | .time => s.nbadTime

/-- The check that a record does not pass. -/
def Verify.fails (cpu : UInt32) (s : Verify) (bit : BlkIoTrace) : Option Check :=
  if bit.cpu ≠ cpu then some .cpu
  else if bit.hasTc blkTcNotify then none
  else if s.ngood ≠ 0 ∧ bit.sequence ≤ s.saveSequence then some .seq
  else if s.ngood ≠ 0 ∧ bit.time ≤ s.saveTime then some .time
  else if s.ngood ≠ 0 ∧ bit.device ≠ s.saveDevice then some .dev
  else none

/-- The checks that an item does not pass, which is one at most. -/
def Verify.rejects (cpu : UInt32) (s : Verify) : Item → List Check
  | .junk => [.trace]
  | .record t => (s.fails cpu t).toList

/-- The checks that are not passed on the way through the items. -/
def rejected (cpu : UInt32) (s : Verify) : List Item → List Check
  | [] => []
  | item :: items => s.rejects cpu item ++ rejected cpu (s.item cpu item) items

/-- A payload that is cut off is not passed over. -/
def Ending.rejects : Ending → List Check
  | .cutPayload => [.pdu]
  | .eof | .cutHeader | .unsupported => []

/-- The checks that are not passed in a file. -/
def rejections (native : Option Bool) (cpu : UInt32) (file : List UInt8) : List Check :=
  rejected cpu {} (survey file.length native file).1 ++ (survey file.length native file).2.rejects

/-- **The summary adds up**: its total is the sum of its counts, and each count is the number of records
that the check has rejected. -/
structure AddsUp (s : Verify) (checks : List Check) : Prop where
  total : s.nbad = s.nbadTrace + s.nbadPdu + s.nbadCpu + s.nbadSeq + s.nbadDev + s.nbadTime
  each : ∀ c, s.count c = UInt32.ofNat (checks.count c)

/-- The summary that `process` gives of a file adds up. -/
def SummaryAddsUp (native : Option Bool) (cpu : UInt32) (file : List UInt8) : Prop :=
  AddsUp (loop cpu file.length native {} file).2 (rejections native cpu file)

def Item.isJunk : Item → Bool
  | .junk => true
  | .record _ => false

/-! ## What is counted -/

/-- The category in which a rejection is counted. -/
def counted : Check → Option Check
  | .trace => none
  | .pdu => some .seq
  | c => some c

/-- The counts, when these checks were not passed. -/
structure Counted (s : Verify) (checks : List Check) : Prop where
  nbad : s.nbad = UInt32.ofNat checks.length
  count : ∀ c, s.count c = UInt32.ofNat (checks.countP fun check => counted check = some c)

theorem counted_nil : Counted {} [] where
  nbad := rfl
  count c := by cases c <;> rfl

theorem Counted.same {s s' : Verify} {checks : List Check} (h : Counted s checks)
    (hnbad : s'.nbad = s.nbad) (hcount : s'.count = s.count) : Counted s' checks where
  nbad := by rw [hnbad, h.nbad]
  count c := by rw [hcount, h.count]

/-- **One rejection** bumps the total, and the count that it goes to. -/
theorem Counted.bump {s s' : Verify} {checks : List Check} (h : Counted s checks) {check : Check}
    (hnbad : s'.nbad = s.nbad + 1)
    (hcount : ∀ c, s'.count c = s.count c + if counted check = some c then 1 else 0) :
    Counted s' (checks ++ [check]) where
  nbad := by
    rw [hnbad, h.nbad, List.length_append, UInt32.ofNat_add]
    rfl
  count c := by
    rw [hcount, h.count, List.countP_append, UInt32.ofNat_add, List.countP_singleton]
    simp only [decide_eq_true_eq]
    split_ifs <;> rfl

theorem Counted.record {s : Verify} {checks : List Check} (h : Counted s checks) (cpu : UInt32)
    (t : BlkIoTrace) : Counted (s.record cpu t) (checks ++ (s.fails cpu t).toList) := by
  unfold Verify.record Verify.fails
  split_ifs with hcpu hnotify hseq htime hdev
  · apply h.bump rfl
    intro c
    cases c <;> simp [Verify.count, Verify.incBad, counted]
  · simpa using h
  · apply h.bump rfl
    intro c
    cases c <;> simp [Verify.count, Verify.incBad, counted]
  · apply h.bump rfl
    intro c
    cases c <;> simp [Verify.count, Verify.incBad, counted]
  · apply h.bump rfl
    intro c
    cases c <;> simp [Verify.count, Verify.incBad, counted]
  · rw [Option.toList_none, List.append_nil]
    exact h.same rfl rfl

theorem Counted.item {s : Verify} {checks : List Check} (h : Counted s checks) (cpu : UInt32)
    (item : Item) : Counted (s.item cpu item) (checks ++ s.rejects cpu item) := by
  cases item with
  | junk =>
    apply h.bump rfl
    intro c
    cases c <;> simp [Verify.count, Verify.incBad, counted, Verify.item]
  | record t => exact h.record cpu t

/-- **Any number of items.** -/
theorem Counted.items {s : Verify} {checks : List Check} (h : Counted s checks) (cpu : UInt32)
    (items : List Item) :
    Counted (items.foldl (Verify.item cpu) s) (checks ++ rejected cpu s items) := by
  induction items generalizing s checks with
  | nil =>
    rw [rejected, List.append_nil]
    exact h
  | cons item items ih =>
    rw [rejected, ← List.append_assoc]
    exact ih (h.item cpu item)

theorem Counted.close {s : Verify} {checks : List Check} (h : Counted s checks) (ending : Ending) :
    Counted (s.close ending) (checks ++ ending.rejects) := by
  cases ending with
  | cutPayload =>
    apply h.bump rfl
    intro c
    cases c <;> simp [Verify.count, Verify.incBad, counted, Verify.close]
  | eof | cutHeader | unsupported =>
    rw [Ending.rejects, List.append_nil]
    exact h

/-- **A file.** -/
theorem counted_loop (native : Option Bool) (cpu : UInt32) (file : List UInt8) :
    Counted (loop cpu file.length native {} file).2 (rejections native cpu file) := by
  have hitems := counted_nil.items cpu (survey file.length native file).1
  rw [loop_eq, rejections]
  exact hitems.close (survey file.length native file).2

/-! ## What is not -/

theorem count_fails (cpu : UInt32) (s : Verify) (t : BlkIoTrace) :
    (s.fails cpu t).toList.count .trace = 0 ∧ (s.fails cpu t).toList.count .pdu = 0 := by
  unfold Verify.fails
  split_ifs <;> exact ⟨rfl, rfl⟩

theorem count_rejected (cpu : UInt32) (s : Verify) (items : List Item) :
    (rejected cpu s items).count .trace = items.countP Item.isJunk ∧
      (rejected cpu s items).count .pdu = 0 := by
  induction items generalizing s with
  | nil => exact ⟨rfl, rfl⟩
  | cons item items ih =>
    obtain ⟨htrace, hpdu⟩ := ih (s.item cpu item)
    rw [rejected, List.count_append, List.count_append, htrace, hpdu, List.countP_cons]
    cases item with
    | junk => exact ⟨Nat.add_comm _ _, rfl⟩
    | record t =>
      obtain ⟨htrace, hpdu⟩ := count_fails cpu s t
      simp [Verify.rejects, Item.isJunk, htrace, hpdu]

theorem count_trace_rejections (native : Option Bool) (cpu : UInt32) (file : List UInt8) :
    (rejections native cpu file).count .trace =
      (survey file.length native file).1.countP Item.isJunk := by
  rw [rejections, List.count_append, (count_rejected _ _ _).1]
  cases (survey file.length native file).2 <;> rfl

theorem count_pdu_rejections (native : Option Bool) (cpu : UInt32) (file : List UInt8) :
    (rejections native cpu file).count .pdu =
      if (survey file.length native file).2 = .cutPayload then 1 else 0 := by
  rw [rejections, List.count_append, (count_rejected _ _ _).2]
  cases (survey file.length native file).2 <;> rfl

/-- Each rejection is in one category. -/
theorem length_eq_counts (checks : List Check) :
    checks.length = checks.count .trace + checks.count .pdu + checks.count .cpu + checks.count .seq +
      checks.count .dev + checks.count .time := by
  induction checks with
  | nil => rfl
  | cons check checks ih =>
    rw [List.length_cons, ih]
    cases check <;> simp <;> omega

/-- What is counted in a category. -/
theorem countP_counted (checks : List Check) (c : Check) :
    checks.countP (fun check => counted check = some c) =
      match c with
      | .trace | .pdu => 0
      | .seq => checks.count .seq + checks.count .pdu
      | c => checks.count c := by
  induction checks with
  | nil => cases c <;> rfl
  | cons check checks ih =>
    rw [List.countP_cons, ih]
    cases c <;> cases check <;> simp [counted] <;> omega

theorem ofNat_eq_zero_iff (n : ℕ) : UInt32.ofNat n = 0 ↔ 2 ^ 32 ∣ n := by
  rw [← UInt32.toNat_inj, UInt32.toNat_ofNat', UInt32.toNat_zero]
  exact Nat.dvd_iff_mod_eq_zero.symm

/-- **The summary adds up** just if every record has the magic, or so many have not that the words wrap
to zero, and no payload is cut off. -/
theorem summaryAddsUp_iff (native : Option Bool) (cpu : UInt32) (file : List UInt8) :
    SummaryAddsUp native cpu file ↔
      2 ^ 32 ∣ (survey file.length native file).1.countP Item.isJunk ∧
        (survey file.length native file).2 ≠ .cutPayload := by
  unfold SummaryAddsUp
  obtain ⟨hnbad, hcount⟩ := counted_loop native cpu file
  have htrace := count_trace_rejections native cpu file
  have hpdu := count_pdu_rejections native cpu file
  generalize (loop cpu file.length native {} file).2 = s at *
  generalize rejections native cpu file = checks at *
  simp only [countP_counted] at hcount
  rw [← htrace]
  constructor
  · intro h
    constructor
    · rw [← ofNat_eq_zero_iff, ← h.each .trace, hcount .trace]
      rfl
    · intro hcut
      have hzero : UInt32.ofNat (checks.count .pdu) = 0 := by
        rw [← h.each .pdu, hcount .pdu]
        rfl
      rw [hpdu, if_pos hcut] at hzero
      exact absurd hzero (by decide)
  · rintro ⟨hjunk, hwhole⟩
    rw [if_neg hwhole] at hpdu
    have heach : ∀ c, s.count c = UInt32.ofNat (checks.count c) := by
      intro c
      rw [hcount]
      cases c with
      | trace => exact ((ofNat_eq_zero_iff _).mpr hjunk).symm
      | pdu => simp [hpdu]
      | seq => simp [hpdu]
      | cpu | dev | time => rfl
    refine ⟨?_, heach⟩
    rw [hnbad, length_eq_counts]
    simp only [UInt32.ofNat_add, ← heach]
    rfl

/-- A header without the magic, and nothing else: one record is invalid, and none of the checks has a
count. -/
theorem not_summaryAddsUp : ¬ SummaryAddsUp none 0 (List.replicate 48 0) := by
  intro h
  exact absurd h.total (by decide +kernel)

end Blktrace.Blkrawverify
