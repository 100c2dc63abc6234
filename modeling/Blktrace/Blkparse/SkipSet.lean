import Blktrace.Blkparse.SkipList

/-!
# The skip list as a set

Ranges that may touch: a range that is put in joins one neighbour at most. What `insert_skip` and
`check_current_skips` do is then right but for a number inside a range, with which the rest of the range
goes, and for ranges that reach both ends of the numbers, where `start - 1` or `end + 1` wraps.
-/

namespace Blktrace.Blkparse

/-- No range is empty, and no number is in two of them. -/
def RangesOk (sips : List SkipInfo) : Prop := Intervals.Parted (sips.map SkipInfo.interval)

/-- Numbers of both ends. -/
def BothEnds (set : Finset ℕ) : Prop := 0 ∈ set ∧ 2 ^ 64 - 1 ∈ set

instance (set : Finset ℕ) : Decidable (BothEnds set) := by
  unfold BothEnds
  infer_instance

section

variable {start stop seq : UInt64} {sips left right : List SkipInfo} {sip : SkipInfo}

theorem rangesOk_middle : RangesOk (left ++ sip :: right) ↔
    sip.start.toNat ≤ sip.stop.toNat ∧
      (∀ n ∈ skipped (left ++ right), ¬ (sip.start.toNat ≤ n ∧ n ≤ sip.stop.toNat)) ∧
      RangesOk (left ++ right) := by
  unfold RangesOk skipped
  rw [List.map_append, List.map_cons, Intervals.parted_middle, List.map_append]
  rfl

theorem skipped_cons {n : ℕ} : n ∈ skipped (sip :: sips) ↔
    (sip.start.toNat ≤ n ∧ n ≤ sip.stop.toNat) ∨ n ∈ skipped sips :=
  skipped_append [] sips sip

theorem RangesOk.start_le (h : RangesOk sips) (hs : sip ∈ sips) : sip.start.toNat ≤ sip.stop.toNat :=
  h.nonempty _ (List.mem_map_of_mem hs)

theorem skipped_perm {sips' : List SkipInfo} (h : sips.Perm sips') : skipped sips = skipped sips' := by
  ext n
  simp only [mem_skipped, h.mem_iff]

/-- **`seq_skips` counts the numbers**, as long as they are not all there are. -/
theorem RangesOk.toNat_seqSkips (h : RangesOk sips) (hends : ¬ BothEnds (skipped sips)) :
    (seqSkips sips).toNat = (skipped sips).card := by
  have hsub : skipped sips ⊆ Finset.range (2 ^ 64) := by
    intro n hn
    obtain ⟨sip, -, -, hle⟩ := mem_skipped.mp hn
    exact Finset.mem_range.mpr (lt_of_le_of_lt hle sip.stop.toNat_lt)
  have hne : skipped sips ≠ Finset.range (2 ^ 64) := by
    intro hall
    apply hends
    rw [hall]
    exact ⟨Finset.mem_range.mpr (by norm_num), Finset.mem_range.mpr (by norm_num)⟩
  have hcard := Finset.card_lt_card (hsub.ssubset_of_ne hne)
  rw [Finset.card_range] at hcard
  have hsum := h.card_cover
  rw [List.map_map] at hsum
  exact Blkparse.toNat_seqSkips (fun sip hs => h.start_le hs) hsum hcard

/-! ## `insert_skip` -/

/-- The loop grows the first range that the new one joins on to. -/
theorem joinSkip_some {sips' : List SkipInfo} (h : joinSkip start stop sips = some sips') :
    ∃ left sip right, sips = left ++ sip :: right ∧
      (stop = sip.start - 1 ∧ sips' = left ++ { sip with start := start } :: right ∨
        start = sip.stop + 1 ∧ sips' = left ++ { sip with stop := stop } :: right) := by
  induction sips generalizing sips' with
  | nil => nomatch h
  | cons sip rest ih =>
    rw [joinSkip] at h
    split_ifs at h with hlow hhigh
    · exact ⟨[], sip, rest, rfl, .inl ⟨hlow, (Option.some.inj h).symm⟩⟩
    · exact ⟨[], sip, rest, rfl, .inr ⟨hhigh, (Option.some.inj h).symm⟩⟩
    · obtain ⟨rest', hrest, rfl⟩ := Option.map_eq_some_iff.mp h
      obtain ⟨left, mid, right, rfl, hjoin⟩ := ih hrest
      refine ⟨sip :: left, mid, right, rfl, ?_⟩
      rcases hjoin with ⟨hlow, rfl⟩ | ⟨hhigh, rfl⟩
      · exact .inl ⟨hlow, rfl⟩
      · exact .inr ⟨hhigh, rfl⟩

/-- A range that takes in others that are in no range. -/
theorem RangesOk.grow {sip' : SkipInfo} (h : RangesOk (left ++ sip :: right))
    (haway : ∀ n ∈ skipped (left ++ sip :: right), ¬ (start.toNat ≤ n ∧ n ≤ stop.toNat))
    (hle : sip'.start.toNat ≤ sip'.stop.toNat)
    (hmem : ∀ n, sip'.start.toNat ≤ n ∧ n ≤ sip'.stop.toNat ↔
      (sip.start.toNat ≤ n ∧ n ≤ sip.stop.toNat) ∨ (start.toNat ≤ n ∧ n ≤ stop.toNat)) :
    RangesOk (left ++ sip' :: right) ∧
      skipped (left ++ sip' :: right) =
        skipped (left ++ sip :: right) ∪ Finset.Icc start.toNat stop.toNat := by
  obtain ⟨-, hothers, hrest⟩ := rangesOk_middle.mp h
  constructor
  · refine rangesOk_middle.mpr ⟨hle, fun n hn hin => ?_, hrest⟩
    rcases (hmem n).mp hin with hold | hnew
    · exact hothers n hn hold
    · exact haway n ((skipped_append left right sip).mpr (.inr hn)) hnew
  · ext n
    rw [Finset.mem_union, skipped_append, skipped_append, Finset.mem_Icc, hmem]
    exact or_right_comm

/-- **`insert_skip`** puts a range of new numbers in. -/
theorem RangesOk.insertSkip (h : RangesOk sips) (hle : start.toNat ≤ stop.toNat)
    (haway : ∀ n ∈ skipped sips, ¬ (start.toNat ≤ n ∧ n ≤ stop.toNat))
    (hends : ¬ BothEnds (skipped sips ∪ Finset.Icc start.toNat stop.toNat)) :
    RangesOk (insertSkip start stop sips) ∧
      skipped (insertSkip start stop sips) = skipped sips ∪ Finset.Icc start.toNat stop.toNat := by
  have hbound := stop.toNat_lt
  unfold Blkparse.insertSkip
  cases hjoin : joinSkip start stop sips with
  | none =>
    rw [Option.getD_none]
    constructor
    · exact (@rangesOk_middle [] sips _).mpr ⟨hle, haway, h⟩
    · ext n
      rw [Finset.mem_union, skipped_cons, Finset.mem_Icc]
      exact or_comm
  | some sips' =>
    rw [Option.getD_some]
    obtain ⟨left, sip, right, rfl, hside⟩ := joinSkip_some hjoin
    have hin : sip ∈ left ++ sip :: right := List.mem_append_right _ List.mem_cons_self
    have hsip := h.start_le hin
    have hsipbound := sip.stop.toNat_lt
    have hfirst : sip.start.toNat ∈ skipped (left ++ sip :: right) :=
      mem_skipped.mpr ⟨sip, hin, le_refl _, hsip⟩
    have hlast : sip.stop.toNat ∈ skipped (left ++ sip :: right) :=
      mem_skipped.mpr ⟨sip, hin, hsip, le_refl _⟩
    rcases hside with ⟨hlow, rfl⟩ | ⟨hhigh, rfl⟩
    · -- `start - 1` wraps just for a range from 0 on
      have hpos : 0 < sip.start.toNat := by
        rw [Nat.pos_iff_ne_zero]
        intro hzero
        have hmax : stop.toNat = 2 ^ 64 - 1 := by
          rw [hlow, UInt64.toNat_inj.mp (hzero.trans UInt64.toNat_zero.symm)]
          rfl
        refine hends ⟨Finset.mem_union_left _ (hzero ▸ hfirst), Finset.mem_union_right _ ?_⟩
        rw [Finset.mem_Icc, ← hmax]
        exact ⟨hle, le_refl _⟩
      have hone : (1 : UInt64) ≤ sip.start := UInt64.le_iff_toNat_le.mpr hpos
      have hstop : stop.toNat = sip.start.toNat - 1 := by
        rw [hlow, Word.toNat_sub_of_le hone, UInt64.toNat_one]
      refine h.grow haway ?_ fun n => ?_
      · show start.toNat ≤ sip.stop.toNat
        omega
      · show start.toNat ≤ n ∧ n ≤ sip.stop.toNat ↔ _
        omega
    · -- and `end + 1` for a range to the last number
      have hroom : sip.stop.toNat + 1 < 2 ^ 64 := by
        by_contra hfull
        have hmax : sip.stop.toNat = 2 ^ 64 - 1 := by omega
        have hzero : start.toNat = 0 := by
          rw [hhigh, UInt64.toNat_add, hmax, UInt64.toNat_one]
          norm_num
        refine hends ⟨Finset.mem_union_right _ ?_, Finset.mem_union_left _ (hmax ▸ hlast)⟩
        rw [Finset.mem_Icc, hzero]
        exact ⟨le_refl _, Nat.zero_le _⟩
      have hstart : start.toNat = sip.stop.toNat + 1 := by
        rw [hhigh, UInt64.toNat_add, UInt64.toNat_one, Nat.mod_eq_of_lt hroom]
      refine h.grow haway ?_ fun n => ?_
      · show sip.start.toNat ≤ stop.toNat
        omega
      · show sip.start.toNat ≤ n ∧ n ≤ stop.toNat ↔ _
        omega

/-! ## `check_current_skips` -/

/-- What is left of a range without the number. -/
theorem RangesOk.shrink {sip' : SkipInfo} (h : RangesOk (left ++ sip :: right))
    (hin : sip.start.toNat ≤ seq.toNat ∧ seq.toNat ≤ sip.stop.toNat)
    (hle : sip'.start.toNat ≤ sip'.stop.toNat)
    (hmem : ∀ n, sip'.start.toNat ≤ n ∧ n ≤ sip'.stop.toNat ↔
      (sip.start.toNat ≤ n ∧ n ≤ sip.stop.toNat) ∧ n ≠ seq.toNat) :
    RangesOk (left ++ sip' :: right) ∧
      skipped (left ++ sip' :: right) = (skipped (left ++ sip :: right)).erase seq.toNat := by
  obtain ⟨-, hothers, hrest⟩ := rangesOk_middle.mp h
  have hseq : seq.toNat ∉ skipped (left ++ right) := fun hmem => hothers _ hmem hin
  exact ⟨rangesOk_middle.mpr ⟨hle, fun n hn hn' => hothers n hn ((hmem n).mp hn').1, hrest⟩,
    skipped_shrink hseq hmem⟩

/-- The number is inside one of the ranges, at neither end. -/
def Splits (seq : UInt64) (sips : List SkipInfo) : Prop :=
  ∃ sip ∈ sips, sip.start < seq ∧ seq < sip.stop

/-- **`check_current_skips`** takes out a number that is at an end of its range. -/
theorem RangesOk.checkCurrentSkips (h : RangesOk sips) (hin : seq.toNat ∈ skipped sips)
    (hwhole : ¬ Splits seq sips) :
    ∃ sips', checkCurrentSkips seq sips = some sips' ∧ RangesOk sips' ∧
      skipped sips' = (skipped sips).erase seq.toNat := by
  obtain ⟨left, sip, right, rfl, hinside, hcases⟩ :=
    checkCurrentSkips_split hin fun sip hsip hlt => hwhole ⟨sip, hsip, hlt⟩
  rcases hcases with ⟨hcheck, hs, he⟩ | ⟨sip', hcheck, hle, hmem⟩
  · obtain ⟨-, hothers, hrest⟩ := rangesOk_middle.mp h
    exact ⟨_, hcheck, hrest, skipped_drop (fun hmem => hothers _ hmem hinside) hs he⟩
  · exact ⟨_, hcheck, h.shrink hinside hle hmem⟩

/-- **A number inside a range** takes the next one with it. -/
theorem RangesOk.checkCurrentSkips_of_splits (h : RangesOk sips) (hsplit : Splits seq sips) :
    ∃ sips', Blkparse.checkCurrentSkips seq sips = some sips' ∧ seq.toNat + 1 ∈ skipped sips ∧
      seq.toNat + 1 ∉ skipped sips' := by
  obtain ⟨sip₀, hsip₀, hlo₀, hhi₀⟩ := hsplit
  rw [UInt64.lt_iff_toNat_lt] at hlo₀ hhi₀
  have hseq : seq.toNat ∈ skipped sips := mem_skipped.mpr ⟨sip₀, hsip₀, hlo₀.le, hhi₀.le⟩
  obtain ⟨left, sip, right, rfl, hleft, hsip⟩ := exists_split hseq
  obtain ⟨-, hothers, -⟩ := rangesOk_middle.mp h
  have hinside := inSkip_iff.mp hsip
  -- no other range has the number
  have hsame : sip₀ = sip := by
    rcases List.mem_append.mp hsip₀ with hmem | hmem
    · exact absurd hinside (hothers _ (mem_skipped.mpr ⟨sip₀, List.mem_append_left _ hmem, hlo₀.le, hhi₀.le⟩))
    · rcases List.mem_cons.mp hmem with heq | hmem
      · exact heq
      · exact absurd hinside
          (hothers _ (mem_skipped.mpr ⟨sip₀, List.mem_append_right _ hmem, hlo₀.le, hhi₀.le⟩))
  subst hsame
  have hbound := sip₀.stop.toNat_lt
  have hnext : (seq + 1).toNat = seq.toNat + 1 := by
    rw [UInt64.toNat_add, UInt64.toNat_one]
    omega
  have hone : (1 : UInt64) ≤ seq := by
    rw [UInt64.le_iff_toNat_le, UInt64.toNat_one]
    omega
  have hprev : (seq - 1).toNat = seq.toNat - 1 := by
    rw [Word.toNat_sub_of_le hone, UInt64.toNat_one]
  have hs : sip₀.start ≠ seq := fun heq => absurd (congrArg UInt64.toNat heq) hlo₀.ne
  have he : sip₀.stop ≠ seq := fun heq => absurd (congrArg UInt64.toNat heq) hhi₀.ne'
  -- nor does any of the ranges that are left start or end with it
  have hjoin : joinSkip (seq + 1) (seq - 1) (left ++ { sip₀ with stop := seq - 1 } :: right) = none := by
    have hends : ∀ r ∈ left ++ { sip₀ with stop := seq - 1 } :: right, r.start ≠ seq ∧ r.stop ≠ seq := by
      have hother : ∀ r ∈ left ++ right, r.start ≠ seq ∧ r.stop ≠ seq := by
        intro r hr
        have hle := h.start_le (((List.sublist_cons_self sip₀ right).append_left left).subset hr)
        have hnot := fun hlo hhi => hothers seq.toNat (mem_skipped.mpr ⟨r, hr, hlo, hhi⟩) hinside
        constructor
        · rintro rfl
          exact hnot (le_refl _) hle
        · rintro rfl
          exact hnot hle (le_refl _)
      intro r hr
      rcases List.mem_append.mp hr with hr | hr
      · exact hother r (List.mem_append_left _ hr)
      · rcases List.mem_cons.mp hr with rfl | hr
        · refine ⟨hs, fun heq => ?_⟩
          have hpred := congrArg UInt64.toNat heq
          rw [hprev] at hpred
          omega
        · exact hother r (List.mem_append_right _ hr)
    apply joinSkip_eq_none
    intro r hr
    obtain ⟨hstart, hstop⟩ := hends r hr
    constructor
    · intro heq
      exact hstart (sub_left_injective heq).symm
    · intro heq
      exact hstop (add_left_injective 1 heq).symm
  refine ⟨⟨seq + 1, seq - 1⟩ :: (left ++ { sip₀ with stop := seq - 1 } :: right), ?_, ?_, ?_⟩
  · rw [Blkparse.checkCurrentSkips, punchSkip_split hleft hsip, punchOne, if_neg hs, if_neg he]
    show some (Blkparse.insertSkip (seq + 1) (seq - 1) (left ++ [_] ++ right)) = _
    rw [List.append_assoc, List.singleton_append, Blkparse.insertSkip, hjoin, Option.getD_none]
  · exact (skipped_append left right sip₀).mpr (.inl ⟨by omega, by omega⟩)
  · rw [skipped_cons, skipped_append]
    rintro (hin | hin | hin)
    · rw [hnext, hprev] at hin
      omega
    · rw [hprev] at hin
      omega
    · exact hothers _ hin ⟨by omega, by omega⟩

theorem checkCurrentSkips_none (h : seq.toNat ∉ skipped sips) : checkCurrentSkips seq sips = none := by
  rw [checkCurrentSkips, punchSkip_eq_none h]
  rfl

end

end Blktrace.Blkparse
