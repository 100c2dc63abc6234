import Blktrace.Btt.LifeCycle
import Blktrace.Btt.OutputFrames
import Mathlib.Tactic.FieldSimp

/-!
# `btt`: what a section prints after others

The section about merges raises `n_qs` to `n_ds`, for a ratio that is not below 1, and leaves it so. The section
about active requests divides by `n_qs` later. No other section is disturbed by those before it.
-/

namespace Blktrace.Btt

open SearchTree Sections

/-! ## The raised devices -/

/-- All devices that are listed are raised. -/
def Out.raise (devices : List UInt32) (s : Out) : Out :=
  { s with dips := fun d => if d ∈ devices then (s.dips d).raised else s.dips d }

theorem raised_raised (dip : DipOut) : dip.raised.raised = dip.raised := by
  unfold DipOut.raised
  by_cases hnone : dip.nQs = 0 ∨ dip.nDs = 0
  · rw [if_pos hnone, if_pos hnone]
  · rw [if_neg hnone]
    by_cases hlt : dip.nQs < dip.nDs
    · rw [if_pos hlt]
      simp
    · rw [if_neg hlt, if_neg hnone, if_neg hlt]

theorem raised_tActQ (dip : DipOut) : dip.raised.tActQ = dip.tActQ := by
  unfold DipOut.raised
  split_ifs <;> rfl

/-- The count of a device that had a Q. -/
theorem raised_nQs {dip : DipOut} (h : 0 < dip.nQs) : dip.raised.nQs = max dip.nQs dip.nDs := by
  unfold DipOut.raised
  split_ifs with hnone hlt
  · rcases hnone with hqs | hds
    · rw [hqs] at h
      exact absurd h (lt_irrefl _)
    · rw [hds]
      exact (max_eq_left h.le).symm
  · exact (max_eq_right hlt.le).symm
  · exact (max_eq_left (not_lt.mp hlt)).symm

theorem raised_pos (dip : DipOut) : 0 < dip.raised.nQs ↔ 0 < dip.nQs := by
  constructor
  · intro hpos
    by_contra hzero
    have hnone : dip.nQs = 0 := by simpa [UInt64.lt_iff_toNat_lt, ← UInt64.toNat_inj] using hzero
    have hraised : dip.raised = dip := if_pos (Or.inl hnone)
    rw [hraised] at hpos
    exact hzero hpos
  · intro hpos
    rw [raised_nQs hpos]
    exact hpos.trans_le (le_max_left _ _)

/-- A device once more in front of the list. -/
theorem raise_cons (d : UInt32) (devices : List UInt32) (s : Out) :
    (s.setDip d (s.dips d).raised).raise devices = s.raise (d :: devices) := by
  refine congrArg (fun dips => { s with dips := dips }) (funext fun d' => ?_)
  by_cases hd : d' = d
  · subst hd
    simp [Out.setDip, raised_raised]
  · simp [Out.setDip, hd]

/-- **The section about merges** raises the devices that are listed, and adds to its totals. -/
theorem each_outputDipMergeRatioAt (devices : List UInt32) (s : Out) :
    ∃ n m, (each outputDipMergeRatioAt devices s).1 =
      { s.raise devices with nMerges := n, mergeData := m } := by
  induction devices generalizing s with
  | nil => exact ⟨s.nMerges, s.mergeData, by simp [each, skip, Out.raise]⟩
  | cons d devices ih =>
    obtain ⟨n, m, hstate⟩ := outputDipMergeRatioAt_state d s
    obtain ⟨n', m', hrest⟩ := ih (outputDipMergeRatioAt d s).1
    refine ⟨n', m', hrest.trans ?_⟩
    rw [hstate, ← raise_cons]
    rfl

theorem raised_view (dip : DipOut) :
    (dip.view Sec.actQ.looks).raised.view Sec.actQ.looks = dip.raised.view Sec.actQ.looks := by
  have hqs : (dip.view Sec.actQ.looks).nQs = dip.nQs := rfl
  have hds : (dip.view Sec.actQ.looks).nDs = dip.nDs := rfl
  unfold DipOut.raised
  rw [hqs, hds]
  split_ifs <;> rfl

/-- What the section about active requests looks at of raised devices. -/
theorem view_raise (devices : List UInt32) (s : Out) :
    ((s.view Sec.actQ.looks).raise devices).view Sec.actQ.looks = (s.raise devices).view Sec.actQ.looks := by
  refine congrArg (fun dips => { s.view Sec.actQ.looks with dips := dips }) (funext fun d => ?_)
  dsimp only [Out.raise]
  split_ifs
  · exact raised_view (s.dips d)
  · rfl

/-! ## The lines about active requests -/

/-- The devices that have a line. -/
def shown (devices : List UInt32) (dips : UInt32 → DipOut) : List UInt32 :=
  devices.filter fun d => 0 < (dips d).nQs ∧ remapperDev d = false

/-- The lines, for counts of queued requests. -/
def actQLines (devices : List UInt32) (tActQ nQs : UInt32 → UInt64) : List Line :=
  devices.map (fun d => .actQ (.dip d) (quot (tActQ d).toNat (nQs d).toNat)) ++
    if 1 < devices.length then [.actQ .total (quot (devices.map tActQ).sum.toNat (devices.map nQs).sum.toNat)]
    else []

/-- The line of a device. -/
theorem avg_of_mem {devices : List UInt32} {tActQ nQs : UInt32 → UInt64} {d : UInt32} {avg : Option ℚ}
    (h : .actQ (.dip d) avg ∈ actQLines devices tActQ nQs) : avg = quot (tActQ d).toNat (nQs d).toNat := by
  rw [actQLines, List.mem_append] at h
  rcases h with hdip | hall
  · obtain ⟨d', -, heq⟩ := List.mem_map.mp hdip
    obtain ⟨htitle, rfl⟩ := Line.actQ.inj heq
    rw [Title.dip.inj htitle]
  · split_ifs at hall
    · simp at hall
    · nomatch hall

theorem actQLines_congr {devices : List UInt32} {tActQ tActQ' nQs nQs' : UInt32 → UInt64}
    (ht : ∀ d ∈ devices, tActQ d = tActQ' d) (hn : ∀ d ∈ devices, nQs d = nQs' d) :
    actQLines devices tActQ nQs = actQLines devices tActQ' nQs' := by
  unfold actQLines
  rw [List.map_congr_left ht, List.map_congr_left hn]
  congr 1
  apply List.map_congr_left
  intro d hd
  rw [ht d hd, hn d hd]

theorem each_dipOutputActQAt (devices : List UInt32) (s : Out) :
    each dipOutputActQAt devices s =
      ({ s with
          nActQs := s.nActQs + (shown devices s.dips).length
          actQInfo :=
            { tQs := s.actQInfo.tQs + ((shown devices s.dips).map fun d => (s.dips d).nQs).sum
              tActQs := s.actQInfo.tActQs + ((shown devices s.dips).map fun d => (s.dips d).tActQ).sum } },
        (shown devices s.dips).map fun d =>
          .actQ (.dip d) (quot (s.dips d).tActQ.toNat (s.dips d).nQs.toNat)) := by
  induction devices generalizing s with
  | nil => simp [each, skip, shown]
  | cons d devices ih =>
    rw [each, seq, ih, dipOutputActQAt, onlyIf]
    by_cases hd : 0 < (s.dips d).nQs ∧ remapperDev d = false
    · have hshown : shown (d :: devices) s.dips = d :: shown devices s.dips :=
        List.filter_cons_of_pos (decide_eq_true hd)
      simp [hd, hshown, UInt64.add_assoc, Nat.add_assoc, Nat.add_comm]
    · have hshown : shown (d :: devices) s.dips = shown devices s.dips :=
        List.filter_cons_of_neg (by simpa using hd)
      rw [if_neg hd, hshown]
      simp [skip]

/-- **The lines** that are written when the totals are 0. -/
theorem outputActQInfo_lines (devices : List UInt32) {s : Out} (hn : s.nActQs = 0) (hinfo : s.actQInfo = {}) :
    (outputActQInfo devices s).2 =
      actQLines (shown devices s.dips) (fun d => (s.dips d).tActQ) fun d => (s.dips d).nQs := by
  rw [outputActQInfo, seq, each_dipOutputActQAt, hn, hinfo]
  simp [write, actQLines, dipOutputActQAll]

/-! ## Other counts -/

theorem quot_eq_iff (a b c : ℚ) : quot a b = quot a c ↔ b = c ∨ a = 0 ∧ b ≠ 0 ∧ c ≠ 0 := by
  unfold quot
  split_ifs with hb hc hc
  · simp [hb, hc]
  · simp [hb, Ne.symm hc]
  · simp [hb, hc]
  · rw [Option.some_inj, div_eq_div_iff hb hc]
    constructor
    · intro heq
      rcases mul_eq_mul_left_iff.mp heq with hcb | ha
      · exact Or.inl hcb.symm
      · exact Or.inr ⟨ha, hb, hc⟩
    · rintro (rfl | ⟨rfl, -, -⟩)
      · rfl
      · simp

/-- The same for words. -/
theorem quot_toNat_iff (a b c : UInt64) : quot a.toNat b.toNat = quot a.toNat c.toNat ↔
    b = c ∨ a = 0 ∧ b ≠ 0 ∧ c ≠ 0 := by
  rw [quot_eq_iff]
  simp [← UInt64.toNat_inj]

/-- Lines for other counts are the same just if no quotient changes. -/
theorem actQLines_eq_iff (devices : List UInt32) (tActQ nQs nQs' : UInt32 → UInt64) :
    actQLines devices tActQ nQs = actQLines devices tActQ nQs' ↔
      (∀ d ∈ devices, nQs d = nQs' d ∨ tActQ d = 0 ∧ nQs d ≠ 0 ∧ nQs' d ≠ 0) ∧
        (1 < devices.length → (devices.map nQs).sum = (devices.map nQs').sum ∨
          (devices.map tActQ).sum = 0 ∧ (devices.map nQs).sum ≠ 0 ∧ (devices.map nQs').sum ≠ 0) := by
  have hlength : (devices.map fun d => Line.actQ (.dip d) (quot (tActQ d).toNat (nQs d).toNat)).length =
      (devices.map fun d => Line.actQ (.dip d) (quot (tActQ d).toNat (nQs' d).toNat)).length := by
    rw [List.length_map, List.length_map]
  rw [actQLines, actQLines, List.append_eq_append_iff_of_size_eq_left hlength, List.map_inj_left]
  apply and_congr
  · apply forall₂_congr
    intro d _
    rw [← quot_toNat_iff]
    simp
  · rw [← quot_toNat_iff]
    split_ifs with hmore
    · simp [hmore]
    · simp [hmore]

/-! ## After the section about merges -/

section

variable (o : OutOptions) (e : Ended)

/-- **After the section about merges** the lines about active requests are those for raised devices. -/
theorem actQ_after_merge {pre post : List Sec} (hpre : .actQ ∉ pre) (hmerge : .mergeRatio ∉ pre)
    (hpost : .actQ ∉ post) (hmerge' : .mergeRatio ∉ post) (s : Out) :
    (o.print .actQ (after o.print (pre ++ .mergeRatio :: post) s)).2 = (o.print .actQ (s.raise o.devices)).2 := by
  have hsplit : after o.print (pre ++ .mergeRatio :: post) s =
      after o.print post (o.print .mergeRatio (after o.print pre s)).1 := by
    rw [after, List.foldl_append]
    rfl
  rw [hsplit, print_undisturbed o hpost fun _ => hmerge']
  obtain ⟨n, m, hstate⟩ := each_outputDipMergeRatioAt o.devices (after o.print pre s)
  have hview : (o.print .mergeRatio (after o.print pre s)).1.view Sec.actQ.looks =
      (s.raise o.devices).view Sec.actQ.looks := by
    have hraised : (o.print .mergeRatio (after o.print pre s)).1.view Sec.actQ.looks =
        ((after o.print pre s).raise o.devices).view Sec.actQ.looks := by
      have hview := congrArg (fun x : Out => x.view Sec.actQ.looks) hstate
      exact hview
    rw [hraised, ← view_raise, after_preserves (preserves_others o hpre fun _ => hmerge), view_raise]
  exact ((seesOnly_print o .actQ).congr hview).1

/-! ## What is to be printed -/

/-- Every section prints what it prints alone. The average about active requests of a device is `t_act_q` of
the device by the Q and requeue events that were counted. -/
structure ReportsRight : Prop where
  alone : ∀ k lines, (k, lines) ∈ o.outputAvgs e → lines = (o.print k (.start e)).2
  actQ : ∀ lines, (.actQ, lines) ∈ o.outputAvgs e → ∀ d avg, .actQ (.dip d) avg ∈ lines →
    avg = quot (e.dips d).tActQ.toNat (e.dips d).nQs.toNat

/-- No number of D events that is above the one of Q events makes a difference: a device with such a number never
had an active request when one was queued, and where there is an average of all lines, either the two sums are the
same or there never was an active request at all. -/
structure RaisedUnseen : Prop where
  each : ∀ d ∈ shown o.devices e.dips, (e.dips d).nQs < (e.dips d).nDs → (e.dips d).tActQ = 0
  all : 1 < (shown o.devices e.dips).length →
    ((shown o.devices e.dips).map fun d => max (e.dips d).nQs (e.dips d).nDs).sum =
        ((shown o.devices e.dips).map fun d => (e.dips d).nQs).sum ∨
      ((shown o.devices e.dips).map fun d => (e.dips d).tActQ).sum = 0 ∧
        ((shown o.devices e.dips).map fun d => max (e.dips d).nQs (e.dips d).nDs).sum ≠ 0 ∧
        ((shown o.devices e.dips).map fun d => (e.dips d).nQs).sum ≠ 0

/-- The lines about active requests of raised devices. -/
theorem actQ_raised : (o.print .actQ ((Out.start e).raise o.devices)).2 =
    actQLines (shown o.devices e.dips) (fun d => (e.dips d).tActQ)
      fun d => max (e.dips d).nQs (e.dips d).nDs := by
  have hdips : ∀ d ∈ o.devices, ((Out.start e).raise o.devices).dips d = (e.dips d).raised :=
    fun d hd => if_pos hd
  have hshown : shown o.devices ((Out.start e).raise o.devices).dips = shown o.devices e.dips := by
    apply List.filter_congr
    intro d hd
    rw [hdips d hd, decide_eq_decide, raised_pos]
  refine (outputActQInfo_lines o.devices rfl rfl).trans ?_
  rw [hshown]
  apply actQLines_congr
  · intro d hd
    rw [hdips d (List.mem_filter.mp hd).1, raised_tActQ]
  · intro d hd
    obtain ⟨hmem, hpos⟩ := List.mem_filter.mp hd
    rw [hdips d hmem, raised_nQs (of_decide_eq_true hpos).1]

/-- And of those that are not raised. -/
theorem print_actQ : (o.print .actQ (.start e)).2 =
    actQLines (shown o.devices e.dips) (fun d => (e.dips d).tActQ) fun d => (e.dips d).nQs :=
  outputActQInfo_lines o.devices rfl rfl

theorem raised_lines_iff : (o.print .actQ ((Out.start e).raise o.devices)).2 = (o.print .actQ (.start e)).2 ↔
    RaisedUnseen o e := by
  have heach : ∀ d ∈ shown o.devices e.dips,
      (max (e.dips d).nQs (e.dips d).nDs = (e.dips d).nQs ∨
        (e.dips d).tActQ = 0 ∧ max (e.dips d).nQs (e.dips d).nDs ≠ 0 ∧ (e.dips d).nQs ≠ 0) ↔
      ((e.dips d).nQs < (e.dips d).nDs → (e.dips d).tActQ = 0) := by
    intro d hd
    have hpos : 0 < (e.dips d).nQs := (of_decide_eq_true (List.mem_filter.mp hd).2).1
    have hmax : max (e.dips d).nQs (e.dips d).nDs ≠ 0 := (hpos.trans_le (le_max_left _ _)).ne'
    rw [max_eq_left_iff, ← not_lt]
    constructor
    · rintro (hle | ⟨hzero, -, -⟩) hlt
      · exact absurd hlt hle
      · exact hzero
    · intro hzero
      by_cases hlt : (e.dips d).nQs < (e.dips d).nDs
      · exact Or.inr ⟨hzero hlt, hmax, hpos.ne'⟩
      · exact Or.inl hlt
  rw [actQ_raised, print_actQ, actQLines_eq_iff]
  constructor
  · rintro ⟨hlines, hall⟩
    exact ⟨fun d hd => (heach d hd).mp (hlines d hd), hall⟩
  · rintro ⟨hlines, hall⟩
    exact ⟨fun d hd => (heach d hd).mpr (hlines d hd), hall⟩

theorem nodup_secs : o.secs.Nodup := by
  unfold OutOptions.secs OutOptions.firstSecs OutOptions.lastSecs
  split_ifs <;> decide

/-- Where all is printed right no raised count is seen. -/
theorem ReportsRight.raisedUnseen (h : ReportsRight o e) : RaisedUnseen o e := by
  have hmem : (.actQ, (o.print .actQ (after o.print (o.firstSecs ++ .mergeRatio :: [.q2qSeek, .dipSeek, .plug])
      (.start e))).2) ∈ o.outputAvgs e := mem_outputs.mpr ⟨_, o.lastSecs, rfl, rfl⟩
  have hfirst : .actQ ∉ o.firstSecs ∧ .mergeRatio ∉ o.firstSecs := by
    unfold OutOptions.firstSecs
    split_ifs <;> decide
  have halone := h.alone _ _ hmem
  rw [actQ_after_merge o hfirst.1 hfirst.2 (by decide) (by decide)] at halone
  exact (raised_lines_iff o e).mp halone

/-- **Every section** prints what it prints alone just if no raised count is seen. -/
theorem reportsRight_iff : ReportsRight o e ↔ RaisedUnseen o e := by
  constructor
  · exact ReportsRight.raisedUnseen o e
  · intro h
    have halone : ∀ k lines, (k, lines) ∈ o.outputAvgs e → lines = (o.print k (.start e)).2 := by
      intro k lines hlines
      obtain ⟨pre, post, hsecs, rfl⟩ := mem_outputs.mp hlines
      have hnodup := nodup_secs o
      rw [hsecs] at hnodup
      have hpre : k ∉ pre := fun hk => (List.nodup_append.mp hnodup).2.2 k hk k List.mem_cons_self rfl
      by_cases hmerge : k = .actQ ∧ .mergeRatio ∈ pre
      · obtain ⟨rfl, hmerge⟩ := hmerge
        obtain ⟨first, rest, rfl⟩ := List.append_of_mem hmerge
        have honce := (List.nodup_cons.mp (List.nodup_middle.mp (List.nodup_append.mp hnodup).1)).1
        rw [List.mem_append, not_or] at honce hpre
        have hrest : .actQ ∉ rest := fun hk => hpre.2 (List.mem_cons_of_mem _ hk)
        rw [actQ_after_merge o hpre.1 honce.1 hrest honce.2]
        exact (raised_lines_iff o e).mpr h
      · apply print_undisturbed o hpre
        intro hk hmem
        exact hmerge ⟨hk, hmem⟩
    refine ⟨halone, fun lines hlines d avg havg => ?_⟩
    rw [halone _ _ hlines, print_actQ] at havg
    exact avg_of_mem havg

end

/-! ## From a trace -/

/-- The end of `process`, with what the handlers of the traces leave. -/
def State.ended (s : State) (rest : Ended) : Ended :=
  { rest with
    dips := fun d => { rest.dips d with toDInfo := s.dip d, avgs := fun a => { toAvgInfo := s.dipAvgs d a } }
    allAvgs := fun a => { toAvgInfo := s.allAvgs a } }

/-- Two records are queued, and three requests issued: one was queued before the trace began. -/
def issuedMore : List BlkIoTrace :=
  [recordOf 0x00100001 1 8 8, recordOf 0x00100001 2 64 8, recordOf 0x00400007 3 8 8, recordOf 0x00400007 4 64 8,
    recordOf 0x00400007 5 256 8]

/-- The device had an active request at the second Q, and the average is taken over three. -/
theorem not_reportsRight : ¬ ∀ (ts : List BlkIoTrace) (s : State) (rest : Ended) (o : OutOptions),
    State.addTraces listBalancer plainOptions exactTime {} ts = some s → ReportsRight o (s.ended rest) := by
  intro hall
  have hrun : ((State.addTraces listBalancer plainOptions exactTime {} issuedMore).map fun s =>
      ((s.dip 1).nQs, (s.dip 1).nDs, (s.dip 1).tActQ)) = some (2, 3, 1) := by decide
  obtain ⟨s, hs, hend⟩ := Option.map_eq_some_iff.mp hrun
  obtain ⟨hqs, hrest⟩ := Prod.mk.inj hend
  obtain ⟨hds, hact⟩ := Prod.mk.inj hrest
  have hunseen := (hall issuedMore s {} ⟨false, none, false, [1], []⟩ hs).raisedUnseen
  have hshown : (1 : UInt32) ∈ shown [1] (s.ended {}).dips := by
    apply List.mem_filter.mpr
    refine ⟨List.mem_singleton_self _, decide_eq_true ⟨?_, rfl⟩⟩
    show 0 < (s.dip 1).nQs
    rw [hqs]
    decide
  have hlt : (s.dip 1).nQs < (s.dip 1).nDs := by
    rw [hqs, hds]
    decide
  have hzero : (s.dip 1).tActQ = 0 := hunseen.each 1 hshown hlt
  rw [hact] at hzero
  exact absurd hzero (by decide)

end Blktrace.Btt
