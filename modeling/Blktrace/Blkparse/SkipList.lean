import Blktrace.Lib.Intervals
import Blktrace.Blkparse.Skips

/-!
# What the skip list stands for

`check_sequence` keeps the skip list against the *last* number shown, and `check_current_skips`
loses the upper part of an entry it is to split: it sets `sip->end` before it passes it on. So the
list is the set of the missing numbers as long as every number shown is above all others right
after the largest of them, or fills an end of a hole and is not the next number
(`StepOk`), and as soon as one is not, the list is wrong (`represents_iff`).
-/

namespace Blktrace.Blkparse

/-! ## The numbers of a skip list -/

def SkipInfo.interval (sip : SkipInfo) : ℕ × ℕ := (sip.start.toNat, sip.stop.toNat)

/-- The numbers a skip list stands for. -/
def skipped (sips : List SkipInfo) : Finset ℕ := Intervals.cover (sips.map SkipInfo.interval)

theorem mem_skipped {sips : List SkipInfo} {n : ℕ} :
    n ∈ skipped sips ↔ ∃ sip ∈ sips, sip.start.toNat ≤ n ∧ n ≤ sip.stop.toNat := by
  rw [skipped, Intervals.mem_cover]
  simp [SkipInfo.interval]

/-- `seq_skips` of `collect_pdi_skips`, for one CPU: `skips` is the number of entries. -/
def seqSkips (sips : List SkipInfo) : UInt64 :=
  sips.foldl (fun n sip => n + (sip.stop - sip.start + 1)) 0

/-- A list in good order: the entries apart, and of numbers that a record can carry. -/
structure SkipsOk (sips : List SkipInfo) : Prop where
  separated : Intervals.Separated (sips.map SkipInfo.interval)
  bounded : ∀ n ∈ skipped sips, 0 < n ∧ n < 2 ^ 32

theorem SkipsOk.entry {sips : List SkipInfo} (h : SkipsOk sips) {sip : SkipInfo} (hs : sip ∈ sips) :
    0 < sip.start.toNat ∧ sip.start.toNat ≤ sip.stop.toNat ∧ sip.stop.toNat < 2 ^ 32 ∧
      sip.start.toNat ∈ skipped sips ∧ sip.stop.toNat ∈ skipped sips := by
  have hle := h.separated.nonempty sip.interval (List.mem_map_of_mem hs)
  have hstart : sip.start.toNat ∈ skipped sips := mem_skipped.mpr ⟨sip, hs, le_refl _, hle⟩
  have hstop : sip.stop.toNat ∈ skipped sips := mem_skipped.mpr ⟨sip, hs, hle, le_refl _⟩
  exact ⟨(h.bounded _ hstart).1, hle, (h.bounded _ hstop).2, hstart, hstop⟩

theorem inSkip_iff {sip : SkipInfo} {seq : UInt64} :
    sip.inSkip seq = true ↔ sip.start.toNat ≤ seq.toNat ∧ seq.toNat ≤ sip.stop.toNat := by
  simp [SkipInfo.inSkip, UInt64.le_iff_toNat_le]

theorem toNat_foldl_skips (sips : List SkipInfo) (n : UInt64)
    (h : ∀ sip ∈ sips, sip.start.toNat ≤ sip.stop.toNat) :
    (sips.foldl (fun n sip => n + (sip.stop - sip.start + 1)) n).toNat =
      (n.toNat + (sips.map fun sip => sip.stop.toNat - sip.start.toNat + 1).sum) % 2 ^ 64 := by
  induction sips generalizing n with
  | nil =>
    have hn := n.toNat_lt
    simp only [List.foldl_nil, List.map_nil, List.sum_nil]
    omega
  | cons sip rest ih =>
    obtain ⟨hle, hrest⟩ := List.forall_mem_cons.mp h
    have hsub : (sip.stop - sip.start).toNat = sip.stop.toNat - sip.start.toNat :=
      Word.toNat_sub_of_le (by rwa [UInt64.le_iff_toNat_le])
    rw [List.foldl_cons, ih _ hrest, List.map_cons, List.sum_cons, UInt64.toNat_add,
      UInt64.toNat_add, hsub, UInt64.toNat_one]
    omega

/-- The sum over the entries is a count, if it fits. -/
theorem toNat_seqSkips {sips : List SkipInfo} (hle : ∀ sip ∈ sips, sip.start.toNat ≤ sip.stop.toNat)
    (hsum : (skipped sips).card = (sips.map fun sip => sip.stop.toNat - sip.start.toNat + 1).sum)
    (hlt : (skipped sips).card < 2 ^ 64) : (seqSkips sips).toNat = (skipped sips).card := by
  rw [seqSkips, toNat_foldl_skips sips 0 hle, UInt64.toNat_zero, Nat.zero_add, ← hsum]
  exact Nat.mod_eq_of_lt hlt

/-- **`seq_skips` counts the numbers.** -/
theorem SkipsOk.toNat_seqSkips {sips : List SkipInfo} (h : SkipsOk sips) :
    (seqSkips sips).toNat = (skipped sips).card := by
  have hsub : skipped sips ⊆ Finset.range (2 ^ 32) := fun n hn =>
    Finset.mem_range.mpr (h.bounded n hn).2
  have hcard := Finset.card_le_card hsub
  rw [Finset.card_range] at hcard
  have hsum := h.separated.card_cover
  rw [List.map_map] at hsum
  exact Blkparse.toNat_seqSkips (fun sip hs => (h.entry hs).2.1) hsum (lt_of_le_of_lt hcard (by decide))

/-! ## `insert_skip` -/

theorem joinSkip_eq_none {start stop : UInt64} {sips : List SkipInfo}
    (h : ∀ sip ∈ sips, stop ≠ sip.start - 1 ∧ start ≠ sip.stop + 1) :
    joinSkip start stop sips = none := by
  induction sips with
  | nil => rfl
  | cons sip rest ih =>
    obtain ⟨⟨h1, h2⟩, hrest⟩ := List.forall_mem_cons.mp h
    rw [joinSkip, if_neg h1, if_neg h2, ih hrest]
    rfl

/-- An interval that touches no entry becomes a new one. -/
theorem insertSkip_apart {start stop : UInt64} {sips : List SkipInfo} (h : SkipsOk sips)
    (hlo : ∀ n ∈ skipped sips, n + 1 ≠ start.toNat) (hhi : stop.toNat + 1 ∉ skipped sips) :
    insertSkip start stop sips = ⟨start, stop⟩ :: sips := by
  rw [insertSkip, joinSkip_eq_none]
  · rfl
  · intro sip hs
    obtain ⟨hpos, -, hlt, hstart, hstop⟩ := h.entry hs
    constructor
    · intro heq
      apply hhi
      have hone : (1 : UInt64) ≤ sip.start := by
        rw [UInt64.le_iff_toNat_le]
        exact hpos
      rw [heq, Word.toNat_sub_of_le hone]
      simpa [Nat.sub_add_cancel hpos] using hstart
    · intro heq
      apply hlo _ hstop
      rw [heq, UInt64.toNat_add, UInt64.toNat_one]
      omega

/-! ## `check_current_skips` -/

/-- What becomes of the entry that holds the number. -/
def punchOne (seq : UInt64) (sip : SkipInfo) : List SkipInfo × Option (UInt64 × UInt64) :=
  if sip.start = seq then
    if sip.stop = seq then ([], none) else ([{ sip with start := sip.start + 1 }], none)
  else if sip.stop = seq then ([{ sip with stop := sip.stop - 1 }], none)
  else ([{ sip with stop := seq - 1 }], some (seq + 1, seq - 1))

theorem punchSkip_split {seq : UInt64} {left right : List SkipInfo} {sip : SkipInfo}
    (hleft : ∀ l ∈ left, l.inSkip seq = false) (hin : sip.inSkip seq = true) :
    punchSkip seq (left ++ sip :: right)
      = some (left ++ (punchOne seq sip).1 ++ right, (punchOne seq sip).2) := by
  induction left with
  | nil =>
    rw [List.nil_append, punchSkip, if_pos hin, punchOne]
    split_ifs <;> rfl
  | cons l left ih =>
    obtain ⟨hl, hleft⟩ := List.forall_mem_cons.mp hleft
    rw [List.cons_append, punchSkip, if_neg (by simp [hl]), ih hleft]
    rfl

theorem punchSkip_eq_none {seq : UInt64} {sips : List SkipInfo} (h : seq.toNat ∉ skipped sips) :
    punchSkip seq sips = none := by
  induction sips with
  | nil => rfl
  | cons sip rest ih =>
    have hnot : ¬ sip.inSkip seq = true := fun hin =>
      h (mem_skipped.mpr ⟨sip, List.mem_cons_self, inSkip_iff.mp hin⟩)
    have hrest : seq.toNat ∉ skipped rest := by
      intro hmem
      obtain ⟨s, hs, hlo⟩ := mem_skipped.mp hmem
      exact h (mem_skipped.mpr ⟨s, List.mem_cons_of_mem _ hs, hlo⟩)
    rw [punchSkip, if_neg hnot, ih hrest]
    rfl

/-- The entry that holds a number, between those that do not. -/
theorem exists_split {seq : UInt64} {sips : List SkipInfo} (h : seq.toNat ∈ skipped sips) :
    ∃ left sip right, sips = left ++ sip :: right ∧ (∀ l ∈ left, l.inSkip seq = false) ∧
      sip.inSkip seq = true := by
  obtain ⟨s, hs, hin⟩ := mem_skipped.mp h
  obtain ⟨sip, hfind⟩ := Option.isSome_iff_exists.mp
    (List.find?_isSome.mpr ⟨s, hs, inSkip_iff.mpr hin⟩ : (sips.find? (·.inSkip seq)).isSome)
  obtain ⟨hsip, left, right, heq, hleft⟩ := List.find?_eq_some_iff_append.mp hfind
  exact ⟨left, sip, right, heq, fun l hl => by simpa using hleft l hl, hsip⟩

theorem skipped_append (left right : List SkipInfo) (sip : SkipInfo) {n : ℕ} :
    n ∈ skipped (left ++ sip :: right) ↔
      (sip.start.toNat ≤ n ∧ n ≤ sip.stop.toNat) ∨ n ∈ skipped (left ++ right) := by
  rw [skipped, List.map_append, List.map_cons, Intervals.mem_cover_middle, ← List.map_append]
  rfl

/-- A number that was in one entry only is taken out of that. -/
theorem skipped_shrink {seq : ℕ} {left right : List SkipInfo} {sip sip' : SkipInfo}
    (hother : seq ∉ skipped (left ++ right))
    (hmem : ∀ n, sip'.start.toNat ≤ n ∧ n ≤ sip'.stop.toNat ↔
      (sip.start.toNat ≤ n ∧ n ≤ sip.stop.toNat) ∧ n ≠ seq) :
    skipped (left ++ sip' :: right) = (skipped (left ++ sip :: right)).erase seq := by
  ext n
  rw [Finset.mem_erase, skipped_append, skipped_append, hmem]
  constructor
  · rintro (⟨hn, hne⟩ | hn)
    · exact ⟨hne, .inl hn⟩
    · exact ⟨fun heq => hother (heq ▸ hn), .inr hn⟩
  · rintro ⟨hne, hn | hn⟩
    · exact .inl ⟨hn, hne⟩
    · exact .inr hn

/-- So it is when the entry had no other. -/
theorem skipped_drop {seq : UInt64} {left right : List SkipInfo} {sip : SkipInfo}
    (hother : seq.toNat ∉ skipped (left ++ right)) (hs : sip.start = seq) (he : sip.stop = seq) :
    skipped (left ++ right) = (skipped (left ++ sip :: right)).erase seq.toNat := by
  ext n
  rw [Finset.mem_erase, skipped_append, hs, he]
  constructor
  · intro hn
    exact ⟨fun heq => hother (heq ▸ hn), .inr hn⟩
  · rintro ⟨hne, hn | hn⟩
    · exact absurd (le_antisymm hn.2 hn.1) hne
    · exact hn

/-- What `check_current_skips` does with a number that is inside no entry: the entry that has it at an end
goes, or is one shorter. -/
theorem checkCurrentSkips_split {seq : UInt64} {sips : List SkipInfo} (hin : seq.toNat ∈ skipped sips)
    (hwhole : ∀ sip ∈ sips, ¬ (sip.start < seq ∧ seq < sip.stop)) :
    ∃ left sip right, sips = left ++ sip :: right ∧ (sip.start.toNat ≤ seq.toNat ∧ seq.toNat ≤ sip.stop.toNat) ∧
      ((checkCurrentSkips seq sips = some (left ++ right) ∧ sip.start = seq ∧ sip.stop = seq) ∨
        ∃ sip' : SkipInfo, checkCurrentSkips seq sips = some (left ++ sip' :: right) ∧
          sip'.start.toNat ≤ sip'.stop.toNat ∧
          ∀ n, sip'.start.toNat ≤ n ∧ n ≤ sip'.stop.toNat ↔
            (sip.start.toNat ≤ n ∧ n ≤ sip.stop.toNat) ∧ n ≠ seq.toNat) := by
  obtain ⟨left, sip, right, rfl, hleft, hsip⟩ := exists_split hin
  have hinside := inSkip_iff.mp hsip
  have hbound := sip.stop.toNat_lt
  refine ⟨left, sip, right, rfl, hinside, ?_⟩
  rw [checkCurrentSkips, @punchSkip_split seq left right sip hleft hsip, punchOne, Option.map_some]
  by_cases hs : sip.start = seq
  · have hstart : sip.start.toNat = seq.toNat := congrArg UInt64.toNat hs
    by_cases he : sip.stop = seq
    · rw [if_pos hs, if_pos he]
      exact .inl ⟨by simp, hs, he⟩
    · rw [if_pos hs, if_neg he]
      have hne : sip.stop.toNat ≠ seq.toNat := fun heq => he (UInt64.toNat_inj.mp heq)
      have hnext : (sip.start + 1).toNat = seq.toNat + 1 := by
        rw [hs, UInt64.toNat_add, UInt64.toNat_one]
        omega
      refine .inr ⟨{ sip with start := sip.start + 1 }, by simp, ?_, fun n => ?_⟩
      · show (sip.start + 1).toNat ≤ sip.stop.toNat
        omega
      · show (sip.start + 1).toNat ≤ n ∧ n ≤ sip.stop.toNat ↔ _
        omega
  · have hsne : sip.start.toNat ≠ seq.toNat := fun heq => hs (UInt64.toNat_inj.mp heq)
    by_cases he : sip.stop = seq
    · rw [if_neg hs, if_pos he]
      have hone : (1 : UInt64) ≤ sip.stop := by
        rw [UInt64.le_iff_toNat_le, UInt64.toNat_one]
        omega
      have hstop : sip.stop.toNat = seq.toNat := congrArg UInt64.toNat he
      have hprev : (sip.stop - 1).toNat = seq.toNat - 1 := by
        rw [Word.toNat_sub_of_le hone, UInt64.toNat_one, hstop]
      refine .inr ⟨{ sip with stop := sip.stop - 1 }, by simp, ?_, fun n => ?_⟩
      · show sip.start.toNat ≤ (sip.stop - 1).toNat
        omega
      · show sip.start.toNat ≤ n ∧ n ≤ (sip.stop - 1).toNat ↔ _
        omega
    · have hene : sip.stop.toNat ≠ seq.toNat := fun heq => he (UInt64.toNat_inj.mp heq)
      refine absurd ⟨?_, ?_⟩ (hwhole sip (List.mem_append_right _ List.mem_cons_self))
      · rw [UInt64.lt_iff_toNat_lt]
        exact lt_of_le_of_ne hinside.1 hsne
      · rw [UInt64.lt_iff_toNat_lt]
        exact lt_of_le_of_ne hinside.2 hene.symm

/-- **A number at an end of its entry** is taken out of the list, and nothing else. -/
theorem checkCurrentSkips_edge {seq : UInt64} {sips : List SkipInfo} (h : SkipsOk sips)
    (hin : seq.toNat ∈ skipped sips)
    (hedge : seq.toNat - 1 ∉ skipped sips ∨ seq.toNat + 1 ∉ skipped sips) :
    ∃ sips', checkCurrentSkips seq sips = some sips' ∧ SkipsOk sips' ∧
      skipped sips' = (skipped sips).erase seq.toNat := by
  have hwhole : ∀ sip ∈ sips, ¬ (sip.start < seq ∧ seq < sip.stop) := by
    rintro sip hsip ⟨hlo, hhi⟩
    rw [UInt64.lt_iff_toNat_lt] at hlo hhi
    -- in the middle of the entry its neighbours are skipped too
    rcases hedge with hnot | hnot
    · exact hnot (mem_skipped.mpr ⟨sip, hsip, by omega, by omega⟩)
    · exact hnot (mem_skipped.mpr ⟨sip, hsip, by omega, by omega⟩)
  obtain ⟨left, sip, right, rfl, hinside, hcases⟩ := checkCurrentSkips_split hin hwhole
  have hsep := h.separated
  rw [List.map_append, List.map_cons] at hsep
  -- `seq` is in no other entry
  have hother : seq.toNat ∉ skipped (left ++ right) := by
    rw [skipped, List.map_append]
    exact hsep.not_mem_of_near (Nat.le_succ_of_le hinside.1) (Nat.le_succ_of_le hinside.2)
  rcases hcases with ⟨hcheck, hs, he⟩ | ⟨sip', hcheck, hne, hmem⟩
  · have hset := skipped_drop hother hs he
    refine ⟨_, hcheck, ⟨?_, fun n hn => ?_⟩, hset⟩
    · rw [List.map_append]
      exact hsep.drop
    · rw [hset] at hn
      exact h.bounded n (Finset.mem_of_mem_erase hn)
  · have hset := skipped_shrink hother hmem
    refine ⟨_, hcheck, ⟨?_, fun n hn => ?_⟩, hset⟩
    · rw [List.map_append, List.map_cons]
      have hlo := ((hmem sip'.start.toNat).mp ⟨le_refl _, hne⟩).1.1
      have hhi := ((hmem sip'.stop.toNat).mp ⟨hne, le_refl _⟩).1.2
      exact hsep.shrink hne hlo hhi
    · rw [hset] at hn
      exact h.bounded n (Finset.mem_of_mem_erase hn)

/-- **A number inside an entry** takes the number after it out of the list too. -/
theorem checkCurrentSkips_inside {seq : UInt64} {sips : List SkipInfo} (h : SkipsOk sips)
    (hin : seq.toNat ∈ skipped sips) (hpred : seq.toNat - 1 ∈ skipped sips)
    (hsucc : seq.toNat + 1 ∈ skipped sips) :
    ∃ sips', checkCurrentSkips seq sips = some sips' ∧ seq.toNat + 1 ∉ skipped sips' := by
  obtain ⟨left, sip, right, rfl, hleft, hsip⟩ := exists_split hin
  obtain ⟨hpos, hle, hlt, hstart, hstop⟩ := h.entry (List.mem_append_right left List.mem_cons_self)
  obtain ⟨hlo, hhi⟩ := inSkip_iff.mp hsip
  have hsep := h.separated
  rw [List.map_append, List.map_cons] at hsep
  have hcover : skipped (left ++ sip :: right) = Intervals.cover
      (left.map SkipInfo.interval ++ sip.interval :: right.map SkipInfo.interval) := by
    rw [skipped, List.map_append, List.map_cons]
  have hseq0 := (h.bounded _ hin).1
  have hseqlt := (h.bounded _ hin).2
  -- the two neighbours are in the same entry
  have hlo' : sip.start.toNat ≤ seq.toNat - 1 := by
    rw [hcover] at hpred
    exact hsep.lo_le_of_pred (n := seq.toNat - 1) (by show sip.start.toNat ≤ _; omega)
      (by show _ ≤ sip.stop.toNat; omega) hpred
  have hhi' : seq.toNat + 1 ≤ sip.stop.toNat := by
    rw [hcover] at hsucc
    exact hsep.le_hi_of_succ hlo hhi hsucc
  have hs : ¬ sip.start = seq := by
    rintro rfl
    omega
  have he : ¬ sip.stop = seq := by
    rintro rfl
    omega
  have hcur := @punchSkip_split seq left right sip hleft hsip
  have hone : (1 : UInt64) ≤ seq := by
    rw [UInt64.le_iff_toNat_le, UInt64.toNat_one]
    omega
  have hprev : (seq - 1).toNat = seq.toNat - 1 := Word.toNat_sub_of_le hone
  have hnext : (seq + 1).toNat = seq.toNat + 1 := by
    rw [UInt64.toNat_add, UInt64.toNat_one]
    omega
  have hother : ∀ n, seq.toNat - 1 ≤ n → n ≤ seq.toNat + 1 → n ∉ skipped (left ++ right) := by
    intro n h1 h2
    rw [skipped, List.map_append]
    exact hsep.not_mem_of_near (by show sip.start.toNat ≤ _; omega)
      (by show n ≤ sip.stop.toNat + 1; omega)
  -- the lower part, and then an entry from `seq + 1` down to `seq - 1`
  let low : SkipInfo := { sip with stop := seq - 1 }
  have hlow : ∀ n, n ∈ skipped (left ++ low :: right) ↔
      (sip.start.toNat ≤ n ∧ n ≤ seq.toNat - 1) ∨ n ∈ skipped (left ++ right) := by
    intro n
    rw [skipped_append, ← hprev]
  have hok : SkipsOk (left ++ low :: right) := by
    refine ⟨?_, fun n hn => h.bounded n ?_⟩
    · rw [List.map_append, List.map_cons]
      exact hsep.shrink (by show sip.start.toNat ≤ (seq - 1).toNat; omega) (le_refl _)
        (by show (seq - 1).toNat ≤ sip.stop.toNat; omega)
    · rw [skipped_append]
      exact ((hlow n).mp hn).imp_left fun hn => ⟨hn.1, by omega⟩
  refine ⟨⟨seq + 1, seq - 1⟩ :: (left ++ low :: right), ?_, ?_⟩
  · rw [checkCurrentSkips, hcur, punchOne, if_neg hs, if_neg he, Option.map_some,
      List.append_assoc]
    show some (insertSkip (seq + 1) (seq - 1) (left ++ low :: right)) = _
    rw [insertSkip_apart hok]
    · intro n hn
      rw [hnext]
      intro heq
      have hn' : n = seq.toNat := by omega
      subst hn'
      rcases (hlow _).mp hn with hn | hn
      · omega
      · exact hother _ (by omega) (by omega) hn
    · rw [hprev, Nat.sub_add_cancel hseq0]
      intro hn
      rcases (hlow _).mp hn with hn | hn
      · omega
      · exact hother _ (by omega) (by omega) hn
  · intro hn
    obtain ⟨s, hs, h1, h2⟩ := mem_skipped.mp hn
    rcases List.mem_cons.mp hs with rfl | hs
    · rw [hprev] at h2
      omega
    · rcases (hlow _).mp (mem_skipped.mpr ⟨s, hs, h1, h2⟩) with hn | hn
      · omega
      · exact hother _ (by omega) (le_refl _) hn

/-! ## The numbers that are missing -/

def largest (xs : List ℕ) : ℕ := xs.foldr max 0

theorem largest_cons (x : ℕ) (xs : List ℕ) : largest (x :: xs) = max x (largest xs) := rfl

theorem le_largest {xs : List ℕ} {x : ℕ} (h : x ∈ xs) : x ≤ largest xs := by
  induction xs with
  | nil => cases h
  | cons y ys ih =>
    rw [largest_cons]
    rcases List.mem_cons.mp h with rfl | h
    · exact Nat.le_max_left _ _
    · exact (ih h).trans (Nat.le_max_right _ _)

theorem largest_mem {xs : List ℕ} (h : xs ≠ []) : largest xs ∈ xs := by
  induction xs with
  | nil => exact absurd rfl h
  | cons y ys ih =>
    rw [largest_cons]
    by_cases hy : ys = []
    · subst hy
      simp [largest]
    · rcases max_choice y (largest ys) with heq | heq
      · rw [heq]
        exact List.mem_cons_self
      · rw [heq]
        exact List.mem_cons_of_mem _ (ih hy)

theorem largest_concat (xs : List ℕ) (x : ℕ) : largest (xs ++ [x]) = max (largest xs) x := by
  induction xs with
  | nil => simp [largest]
  | cons y ys ih =>
    rw [List.cons_append, largest_cons, ih, largest_cons, max_assoc]

/-- The numbers strictly between the first shown and the largest that were not shown. -/
def missing (xs : List ℕ) : Finset ℕ :=
  (Finset.Ioo (xs.headD 0) (largest xs)).filter (· ∉ xs)

theorem mem_missing {xs : List ℕ} {n : ℕ} :
    n ∈ missing xs ↔ xs.headD 0 < n ∧ n < largest xs ∧ n ∉ xs := by
  rw [missing, Finset.mem_filter, Finset.mem_Ioo, and_assoc]

theorem headD_concat {xs : List ℕ} (h : xs ≠ []) (x d e : ℕ) :
    (xs ++ [x]).headD d = xs.headD e := by
  cases xs with
  | nil => exact absurd rfl h
  | cons y ys => rfl

theorem headD_mem {xs : List ℕ} (h : xs ≠ []) : xs.headD 0 ∈ xs := by
  cases xs with
  | nil => exact absurd rfl h
  | cons y ys => exact List.mem_cons_self

theorem getLastD_mem {xs : List ℕ} (h : xs ≠ []) : xs.getLastD 0 ∈ xs := by
  rw [List.getLastD_eq_getLast?, List.getLast?_eq_some_getLast h]
  exact List.getLast_mem h

section Concat

variable {xs : List ℕ} {x : ℕ} (hne : xs ≠ [])

include hne

theorem missing_concat_above (h : largest xs < x) (n : ℕ) :
    n ∈ missing (xs ++ [x]) ↔ (largest xs < n ∧ n < x) ∨ n ∈ missing xs := by
  have hhead := le_largest (headD_mem hne)
  rw [mem_missing, mem_missing, headD_concat hne x 0 0, largest_concat, max_eq_right h.le,
    List.mem_append, List.mem_singleton]
  constructor
  · rintro ⟨h1, h2, h3⟩
    by_cases hn : largest xs < n
    · exact Or.inl ⟨hn, h2⟩
    · -- not the largest, for that one was shown
      have hlt : n ≠ largest xs := fun heq => h3 (Or.inl (heq ▸ largest_mem hne))
      exact Or.inr ⟨h1, by omega, fun hmem => h3 (Or.inl hmem)⟩
  · rintro (⟨h1, h2⟩ | ⟨h1, h2, h3⟩)
    · refine ⟨by omega, h2, fun hmem => ?_⟩
      rcases hmem with hmem | hmem
      · exact absurd (le_largest hmem) (by omega)
      · omega
    · refine ⟨h1, by omega, fun hmem => ?_⟩
      rcases hmem with hmem | hmem
      · exact h3 hmem
      · omega

theorem missing_concat_of_le (h : x ≤ largest xs) :
    missing (xs ++ [x]) = (missing xs).erase x := by
  ext n
  rw [Finset.mem_erase, mem_missing, mem_missing, headD_concat hne x 0 0, largest_concat,
    max_eq_left h, List.mem_append, List.mem_singleton]
  tauto

end Concat

/-! ## One number shown -/

/-- The list after `seq` is shown, `last` being the number shown before. -/
def skipStep (last : UInt64) (sips : List SkipInfo) (seq : UInt64) : List SkipInfo :=
  if last + 1 = 0 ∨ seq = last + 1 then sips
  else
    (checkCurrentSkips seq sips).getD
      (if last + 1 < seq then insertSkip (last + 1) (seq - 1) sips else sips)

/-- `last_sequence` and the skip list of a CPU of which these numbers were shown. -/
def skipRun (seqs : List ℕ) : UInt64 × List SkipInfo :=
  seqs.foldl (fun c n => (UInt64.ofNat n, skipStep c.1 c.2 (UInt64.ofNat n)))
    (0xffffffffffffffff, [])

theorem skipRun_concat (xs : List ℕ) (x : ℕ) :
    skipRun (xs ++ [x]) =
      (UInt64.ofNat x, skipStep (skipRun xs).1 (skipRun xs).2 (UInt64.ofNat x)) := by
  rw [skipRun, List.foldl_append]
  rfl

/-- The list is right about the numbers shown. -/
def Represents (xs : List ℕ) : Prop := skipped (skipRun xs).2 = missing xs

/-- **When the list stays right**: `x`, shown after `xs`, is above all of them and the largest was
the last; or it is at an end of a hole and not the next number; or, below the first number, it is
no jump forward. -/
def StepOk (xs : List ℕ) (x : ℕ) : Prop :=
  xs = [] ∨
    if largest xs < x then xs.getLastD 0 = largest xs
    else if xs.headD 0 < x then x ≠ xs.getLastD 0 + 1 ∧ (x - 1 ∈ xs ∨ x + 1 ∈ xs)
    else x ≤ xs.getLastD 0 + 1

instance (xs : List ℕ) (x : ℕ) : Decidable (StepOk xs x) := by
  unfold StepOk
  infer_instance

section Step

variable {xs : List ℕ} {x : ℕ} (hne : xs ≠ []) (hxs : ∀ y ∈ xs, y < 2 ^ 32) (hx : x < 2 ^ 32)

include hne hxs

theorem toNat_skipRun_last : (skipRun xs).1.toNat = xs.getLastD 0 := by
  induction xs using List.reverseRecOn with
  | nil => exact absurd rfl hne
  | append_singleton ys y =>
    have hy := hxs y (List.mem_append_right ys List.mem_cons_self)
    rw [skipRun_concat, Word.toNat_ofNat hy.le]
    simp

include hx

/-- The step in terms of the numbers. -/
theorem skipRun_skips : (skipRun (xs ++ [x])).2 =
    if x = xs.getLastD 0 + 1 then (skipRun xs).2
    else
      (checkCurrentSkips (UInt64.ofNat x) (skipRun xs).2).getD
        (if xs.getLastD 0 + 1 < x then
          insertSkip (UInt64.ofNat (xs.getLastD 0 + 1)) (UInt64.ofNat (x - 1)) (skipRun xs).2
        else (skipRun xs).2) := by
  have hlast := toNat_skipRun_last hne hxs
  have hlt := hxs _ (getLastD_mem hne)
  have hx64 : (UInt64.ofNat x).toNat = x := Word.toNat_ofNat (by omega)
  have hnext : (skipRun xs).1 + 1 = UInt64.ofNat (xs.getLastD 0 + 1) := by
    apply UInt64.toNat_inj.mp
    rw [UInt64.toNat_add, hlast, Word.toNat_ofNat (by omega),
      UInt64.toNat_one]
    omega
  have hnext64 : (UInt64.ofNat (xs.getLastD 0 + 1)).toNat = xs.getLastD 0 + 1 := Word.toNat_ofNat (by omega)
  have hzero : UInt64.ofNat (xs.getLastD 0 + 1) ≠ 0 := by
    intro h0
    rw [h0] at hnext64
    simp at hnext64
  rw [skipRun_concat, skipStep, hnext]
  dsimp only
  by_cases heq : x = xs.getLastD 0 + 1
  · rw [if_pos (Or.inr (congrArg UInt64.ofNat heq)), if_pos heq]
  · have hseq : UInt64.ofNat x ≠ UInt64.ofNat (xs.getLastD 0 + 1) := fun h =>
      heq (by rw [← hx64, h, hnext64])
    rw [if_neg (not_or.mpr ⟨hzero, hseq⟩), if_neg heq]
    by_cases hjump : xs.getLastD 0 + 1 < x
    · have hone : (1 : UInt64) ≤ UInt64.ofNat x := by
        rw [UInt64.le_iff_toNat_le, UInt64.toNat_one, hx64]
        omega
      have hprev : UInt64.ofNat x - 1 = UInt64.ofNat (x - 1) := by
        apply UInt64.toNat_inj.mp
        rw [Word.toNat_sub_of_le hone, hx64,
          Word.toNat_ofNat (by omega), UInt64.toNat_one]
      rw [if_pos hjump, if_pos (by rwa [UInt64.lt_iff_toNat_lt, hnext64, hx64]), hprev]
    · rw [if_neg hjump, if_neg (by rwa [UInt64.lt_iff_toNat_lt, hnext64, hx64])]

/-- A number that is the next, or is neither skipped nor a jump forward, changes nothing. -/
theorem skipRun_same (h : x = xs.getLastD 0 + 1 ∨
    (x ∉ skipped (skipRun xs).2 ∧ x ≤ xs.getLastD 0)) :
    (skipRun (xs ++ [x])).2 = (skipRun xs).2 := by
  have hx64 : (UInt64.ofNat x).toNat = x := Word.toNat_ofNat (by omega)
  rw [skipRun_skips hne hxs hx]
  rcases h with heq | ⟨hnot, hle⟩
  · rw [if_pos heq]
  · rw [if_neg (by omega), checkCurrentSkips, punchSkip_eq_none (by rwa [hx64]),
      if_neg (by omega)]
    rfl

/-- A jump forward to a number that is not skipped adds what lies between. -/
theorem skipRun_ahead (hok : SkipsOk (skipRun xs).2)
    (hlast : xs.getLastD 0 ∉ skipped (skipRun xs).2) (hnot : x ∉ skipped (skipRun xs).2)
    (h : xs.getLastD 0 + 1 < x) :
    (skipRun (xs ++ [x])).2 =
        ⟨UInt64.ofNat (xs.getLastD 0 + 1), UInt64.ofNat (x - 1)⟩ :: (skipRun xs).2 ∧
      ∀ n, n ∈ skipped (skipRun (xs ++ [x])).2 ↔
        (xs.getLastD 0 + 1 ≤ n ∧ n ≤ x - 1) ∨ n ∈ skipped (skipRun xs).2 := by
  have hlt := hxs _ (getLastD_mem hne)
  have hx64 : (UInt64.ofNat x).toNat = x := Word.toNat_ofNat (by omega)
  have hnext : (UInt64.ofNat (xs.getLastD 0 + 1)).toNat = xs.getLastD 0 + 1 := Word.toNat_ofNat (by omega)
  have hprev : (UInt64.ofNat (x - 1)).toNat = x - 1 := Word.toNat_ofNat (by omega)
  have heq : (skipRun (xs ++ [x])).2 =
      ⟨UInt64.ofNat (xs.getLastD 0 + 1), UInt64.ofNat (x - 1)⟩ :: (skipRun xs).2 := by
    rw [skipRun_skips hne hxs hx, if_neg (by omega), checkCurrentSkips,
      punchSkip_eq_none (by rwa [hx64]), if_pos h, Option.map_none, Option.getD_none,
      insertSkip_apart hok]
    · intro n hn
      rw [hnext]
      intro heq
      exact hlast (Nat.succ_injective heq ▸ hn)
    · rwa [hprev, Nat.sub_add_cancel (by omega)]
  refine ⟨heq, fun n => ?_⟩
  have hmem := skipped_append [] (skipRun xs).2
    ⟨UInt64.ofNat (xs.getLastD 0 + 1), UInt64.ofNat (x - 1)⟩ (n := n)
  rw [heq]
  rw [hnext, hprev] at hmem
  exact hmem

variable (hnew : x ∉ xs) (hok : SkipsOk (skipRun xs).2) (hrep : Represents xs)

include hnew hok hrep

/-- **The list stays right.** -/
theorem StepOk.represents (h : StepOk xs x) :
    SkipsOk (skipRun (xs ++ [x])).2 ∧ Represents (xs ++ [x]) := by
  have hx64 : (UInt64.ofNat x).toNat = x := Word.toNat_ofNat hx.le
  have hmem : ∀ n, n ∈ skipped (skipRun xs).2 ↔ n ∈ missing xs := fun n => by rw [hrep]
  have hhead := le_largest (headD_mem hne)
  have hlast := le_largest (getLastD_mem hne)
  have hlastIn := getLastD_mem hne
  have hlastNot : xs.getLastD 0 ∉ skipped (skipRun xs).2 := by
    rw [hmem, mem_missing]
    exact fun h => h.2.2 hlastIn
  have h := h.resolve_left hne
  split at h
  case isTrue habove =>
    have hnot : x ∉ skipped (skipRun xs).2 := by
      rw [hmem, mem_missing]
      exact fun h => absurd h.2.1 (by omega)
    by_cases heq : x = xs.getLastD 0 + 1
    · -- the next number, and nothing between
      have hsame := skipRun_same hne hxs hx (Or.inl heq)
      rw [Represents, hsame]
      refine ⟨hok, ?_⟩
      ext n
      rw [hmem, missing_concat_above hne habove]
      exact ⟨Or.inr, fun hn => hn.resolve_left (by omega)⟩
    · obtain ⟨hlist, hskip⟩ :=
        skipRun_ahead hne hxs hx hok hlastNot hnot (by omega)
      have hset : skipped (skipRun (xs ++ [x])).2 = missing (xs ++ [x]) := by
        ext n
        rw [hskip, missing_concat_above hne habove, hmem]
        apply or_congr_left
        omega
      refine ⟨⟨?_, fun n hn => ?_⟩, hset⟩
      · rw [hlist, List.map_cons]
        refine hok.separated.cons ?_ fun n hn => ?_
        · show (UInt64.ofNat (xs.getLastD 0 + 1)).toNat ≤ (UInt64.ofNat (x - 1)).toNat
          rw [Word.toNat_ofNat (by omega), Word.toNat_ofNat (by omega)]
          omega
        · -- what is skipped already is below the largest
          have hn' := (mem_missing.mp ((hmem n).mp hn)).2.1
          left
          show n + 1 < (UInt64.ofNat (xs.getLastD 0 + 1)).toNat
          rw [Word.toNat_ofNat (by omega)]
          omega
      · rcases (hskip n).mp hn with hn | hn
        · omega
        · exact hok.bounded n hn
  case isFalse habove =>
    have hle : x ≤ largest xs := Nat.le_of_not_lt habove
    rw [Represents, missing_concat_of_le hne hle, ← hrep]
    split at h
    case isTrue hbetween =>
      -- an end of a hole
      obtain ⟨hnext, hedge⟩ := h
      have hne' : x ≠ largest xs := fun heq => hnew (heq ▸ largest_mem hne)
      have hin : (UInt64.ofNat x).toNat ∈ skipped (skipRun xs).2 := by
        rw [hx64, hmem, mem_missing]
        exact ⟨hbetween, by omega, hnew⟩
      obtain ⟨sips', hcheck, hok', hset⟩ := checkCurrentSkips_edge hok hin (by
        rw [hx64, hmem, hmem, mem_missing, mem_missing]
        exact hedge.imp (fun hm h => h.2.2 hm) (fun hm h => h.2.2 hm))
      rw [hx64] at hset
      rw [skipRun_skips hne hxs hx, if_neg hnext, hcheck]
      exact ⟨hok', hset⟩
    case isFalse hbelow =>
      have hnot : x ∉ skipped (skipRun xs).2 := by
        rw [hmem, mem_missing]
        exact fun h => hbelow h.1
      have hsame := skipRun_same hne hxs hx (by
        rcases Nat.lt_or_ge (xs.getLastD 0) x with hlt | hge
        · exact Or.inl (by omega)
        · exact Or.inr ⟨hnot, hge⟩)
      rw [hsame, Finset.erase_eq_of_notMem hnot]
      exact ⟨hok, rfl⟩

/-- **As soon as a step is not of that kind the list is wrong.** -/
theorem StepOk.of_represents (hnext : Represents (xs ++ [x])) : StepOk xs x := by
  have hx64 : (UInt64.ofNat x).toNat = x := Word.toNat_ofNat hx.le
  have hmem : ∀ n, n ∈ skipped (skipRun xs).2 ↔ n ∈ missing xs := fun n => by rw [hrep]
  have hmem' : ∀ n, n ∈ skipped (skipRun (xs ++ [x])).2 ↔ n ∈ missing (xs ++ [x]) :=
    fun n => by rw [hnext]
  have hhead := le_largest (headD_mem hne)
  have hlast := le_largest (getLastD_mem hne)
  have hlastIn := getLastD_mem hne
  have hlastNot : xs.getLastD 0 ∉ skipped (skipRun xs).2 := by
    rw [hmem, mem_missing]
    exact fun h => h.2.2 hlastIn
  right
  split
  case isTrue habove =>
    by_contra hbehind
    have hnot : x ∉ skipped (skipRun xs).2 := by
      rw [hmem, mem_missing]
      exact fun h => absurd h.2.1 (by omega)
    -- the new entry starts behind the largest and covers it
    obtain ⟨-, hskip⟩ := skipRun_ahead hne hxs hx hok hlastNot hnot (by omega)
    have hcover := (hskip (largest xs)).mpr (Or.inl ⟨by omega, by omega⟩)
    have hshown := (mem_missing.mp ((hmem' _).mp hcover)).2.2
    exact hshown (List.mem_append_left _ (largest_mem hne))
  case isFalse habove =>
    have hle : x ≤ largest xs := Nat.le_of_not_lt habove
    have herase := missing_concat_of_le hne hle
    split
    case isTrue hbetween =>
      have hne' : x ≠ largest xs := fun heq => hnew (heq ▸ largest_mem hne)
      have hin : x ∈ missing xs := mem_missing.mpr ⟨hbetween, by omega, hnew⟩
      constructor
      · -- the next number leaves the list as it is
        intro heq
        have hsame := skipRun_same hne hxs hx (Or.inl heq)
        have hstill := (hmem' x).mp (hsame ▸ (hmem x).mpr hin)
        rw [herase] at hstill
        exact Finset.notMem_erase x _ hstill
      · by_contra hinside
        obtain ⟨hpred, hsucc⟩ := not_or.mp hinside
        have hnlast : x ≠ xs.getLastD 0 + 1 := by
          intro heq
          apply hpred
          rw [heq]
          exact hlastIn
        have hp : x - 1 ∈ missing xs := by
          have hph : x - 1 ≠ xs.headD 0 := fun heq => hpred (heq ▸ headD_mem hne)
          exact mem_missing.mpr ⟨by omega, by omega, hpred⟩
        have hs : x + 1 ∈ missing xs := by
          have hsl : x + 1 ≠ largest xs := fun heq => hsucc (heq ▸ largest_mem hne)
          exact mem_missing.mpr ⟨by omega, by omega, hsucc⟩
        obtain ⟨sips', hcheck, hlost⟩ := @checkCurrentSkips_inside (UInt64.ofNat x) _ hok
          (by rw [hx64, hmem]; exact hin) (by rw [hx64, hmem]; exact hp)
          (by rw [hx64, hmem]; exact hs)
        have hlist : (skipRun (xs ++ [x])).2 = sips' := by
          rw [skipRun_skips hne hxs hx, if_neg hnlast, hcheck]
          rfl
        rw [hx64, ← hlist, hmem', herase] at hlost
        exact hlost (Finset.mem_erase.mpr ⟨by omega, hs⟩)
    case isFalse hbelow =>
      by_contra hjump
      have hnot : x ∉ skipped (skipRun xs).2 := by
        rw [hmem, mem_missing]
        exact fun h => hbelow h.1
      -- an entry below the first number
      obtain ⟨-, hskip⟩ := skipRun_ahead hne hxs hx hok hlastNot hnot (by omega)
      have hcover := (hskip (xs.getLastD 0 + 1)).mpr (Or.inl ⟨le_refl _, by omega⟩)
      have hlow := ((hmem' _).mp hcover)
      rw [herase, Finset.mem_erase, mem_missing] at hlow
      omega

end Step

/-! ## All the numbers shown -/

/-- Every number shown is right for those before it. -/
def StepsOk (xs : List ℕ) : Prop := ∀ ys x, ys ++ [x] <+: xs → StepOk ys x

theorem stepsOk_nil : StepsOk [] := fun _ _ hpre => absurd (List.prefix_nil.mp hpre) (by simp)

theorem stepsOk_concat {xs : List ℕ} {x : ℕ} : StepsOk (xs ++ [x]) ↔ StepsOk xs ∧ StepOk xs x := by
  constructor
  · intro h
    exact ⟨fun ys y hpre => h ys y (hpre.trans (List.prefix_append _ _)),
      h xs x (List.prefix_refl _)⟩
  · rintro ⟨hxs, hx⟩ ys y hpre
    rcases List.prefix_concat_iff.mp hpre with heq | hpre
    · obtain ⟨rfl, rfl⟩ := List.append_singleton_inj.mp heq
      exact hx
    · exact hxs ys y hpre

theorem represents_nil : SkipsOk (skipRun []).2 ∧ Represents [] := by
  refine ⟨⟨Intervals.Separated.nil, ?_⟩, ?_⟩
  · simp [skipRun, skipped, Intervals.cover]
  · simp [Represents, skipRun, skipped, Intervals.cover, missing, largest]

theorem represents_singleton (x : ℕ) : SkipsOk (skipRun [x]).2 ∧ Represents [x] := by
  have hlist : (skipRun [x]).2 = [] := by
    rw [← List.nil_append [x], skipRun_concat, skipStep, if_pos]
    · rfl
    · left
      decide
  rw [Represents, hlist]
  refine ⟨⟨Intervals.Separated.nil, by simp [skipped, Intervals.cover]⟩, ?_⟩
  simp [skipped, Intervals.cover, missing, largest]

theorem StepsOk.represents {xs : List ℕ} (hxs : ∀ y ∈ xs, y < 2 ^ 32) (hnd : xs.Nodup)
    (h : StepsOk xs) : SkipsOk (skipRun xs).2 ∧ Represents xs := by
  induction xs using List.reverseRecOn with
  | nil => exact represents_nil
  | append_singleton xs x ih =>
    obtain ⟨hsteps, hstep⟩ := stepsOk_concat.mp h
    obtain ⟨hxs, hx⟩ := List.forall_mem_append.mp hxs
    obtain ⟨hnd, -, hnew⟩ := List.nodup_append.mp hnd
    by_cases hne : xs = []
    · subst hne
      exact represents_singleton x
    · obtain ⟨hok, hrep⟩ := ih hxs hnd hsteps
      exact hstep.represents hne hxs (hx x (List.mem_singleton_self x))
        (fun hmem => hnew x hmem x (List.mem_singleton_self x) rfl) hok hrep

/-- **The list is right all along exactly when every step is.** -/
theorem represents_iff {xs : List ℕ} (hxs : ∀ y ∈ xs, y < 2 ^ 32) (hnd : xs.Nodup) :
    (∀ ys, ys <+: xs → Represents ys) ↔ StepsOk xs := by
  constructor
  · intro h
    induction xs using List.reverseRecOn with
    | nil => exact stepsOk_nil
    | append_singleton xs x ih =>
      obtain ⟨hxs, hx⟩ := List.forall_mem_append.mp hxs
      obtain ⟨hnd, -, hnew⟩ := List.nodup_append.mp hnd
      have hsteps := ih hxs hnd fun ys hpre => h ys (hpre.trans (List.prefix_append _ _))
      refine stepsOk_concat.mpr ⟨hsteps, ?_⟩
      by_cases hne : xs = []
      · exact Or.inl hne
      · obtain ⟨hok, hrep⟩ := hsteps.represents hxs hnd
        exact StepOk.of_represents hne hxs (hx x (List.mem_singleton_self x))
          (fun hmem => hnew x hmem x (List.mem_singleton_self x) rfl) hok hrep
          (h _ (List.prefix_refl _))
  · intro h ys hpre
    refine (StepsOk.represents (fun y hy => hxs y (hpre.subset hy)) (hnd.sublist hpre.sublist)
      fun zs z hz => h zs z (hz.trans hpre)).2

end Blktrace.Blkparse
