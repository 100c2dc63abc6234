import Blktrace.Btt.PLive
import Mathlib.Algebra.BigOperators.Group.List.Basic
import Mathlib.Tactic.FieldSimp
import Mathlib.Tactic.Linarith

/-!
# `btt`: how much of the time IO was under way

`p_live_get` takes the window from the first start to the last end from a walk over the tree. It starts from
a window that begins at 0, and asks whether a number without sign is below 0.0 to see that there is none
yet; so the window always begins at 0.
-/

namespace Blktrace.Btt

open SearchTree

/-- `struct p_live_info`. -/
structure PLiveInfo where
  nlives : ℕ
  avgLive : ℚ
  avgLull : ℚ
  pLive : ℚ

/-- `struct get_info`, as far as it is not about the file. -/
structure GetInfo where
  nlives : ℕ := 0
  tStart : UInt64 := 0
  tEnd : UInt64 := 0
  totLive : UInt64 := 0

/-- What `p_live_visit` does at a node. -/
def GetInfo.visit (gip : GetInfo) (plp : PLive) : GetInfo where
  nlives := gip.nlives + 1
  totLive := gip.totLive + (plp.ct - plp.dt)
  tStart := if (gip.tStart.toNat : ℚ) < 0 ∨ plp.dt < gip.tStart then plp.dt else gip.tStart
  tEnd := if (gip.tEnd.toNat : ℚ) < 0 ∨ gip.tEnd < plp.ct then plp.ct else gip.tEnd

/-- `p_live_visit`. -/
def pLiveVisit : RbTree PLive → GetInfo → GetInfo
  | .nil, gip => gip
  | .node _ left plp right, gip => pLiveVisit right ((pLiveVisit left gip).visit plp)

/-- `p_live_get`. -/
def pLiveGet (root : RbTree PLive) : PLiveInfo :=
  let gi := pLiveVisit root {}
  if gi.nlives = 0 then ⟨0, 0, 0, 0⟩
  else if gi.nlives = 1 then { nlives := gi.nlives, avgLive := 0, avgLull := 0, pLive := 100 }
  else
    let tTime := exactTime.bitTime (gi.tEnd - gi.tStart)
    let totLive := exactTime.bitTime gi.totLive
    { nlives := gi.nlives
      pLive := 100 * (totLive / tTime)
      avgLive := totLive / gi.nlives
      avgLull := (tTime - totLive) / (gi.nlives - 1 : ℕ) }

/-! ## What is to be reported -/

/-- The time from the start of an interval to its end. -/
def PLive.length (plp : PLive) : ℚ := exactTime.bitTime plp.ct - exactTime.bitTime plp.dt

/-- The total live time. -/
def totalLive (root : RbTree PLive) : ℚ := (root.toList.map PLive.length).sum

/-- The numbers are those of the intervals; `a` is the first start and `b` the last end. -/
structure Reports (root : RbTree PLive) (info : PLiveInfo) : Prop where
  nlives : info.nlives = root.toList.length
  avgLive : info.avgLive = totalLive root / root.toList.length
  window : 2 ≤ root.toList.length → ∀ a b : ℚ,
    IsLeast {x | ∃ plp ∈ root.toList, x = exactTime.bitTime plp.dt} a →
    IsGreatest {x | ∃ plp ∈ root.toList, x = exactTime.bitTime plp.ct} b →
      info.avgLull = ((b - a) - totalLive root) / (root.toList.length - 1 : ℕ) ∧
        info.pLive = 100 * totalLive root / (b - a)

/-- A single interval is empty, and one of several starts at time 0. -/
def StartsAtZero (root : RbTree PLive) : Prop :=
  (∀ plp, root.toList = [plp] → plp.dt = plp.ct) ∧
    (2 ≤ root.toList.length → ∃ plp ∈ root.toList, plp.dt = 0)

/-! ## The walk -/

theorem pLiveVisit_eq (root : RbTree PLive) (gip : GetInfo) :
    pLiveVisit root gip = root.toList.foldl GetInfo.visit gip := by
  induction root generalizing gip with
  | nil => rfl
  | node c left plp right ihl ihr =>
    rw [pLiveVisit, ihl, ihr, RbTree.toList_node, List.foldl_append, List.foldl_cons]

theorem nlives_foldl (l : List PLive) (gip : GetInfo) :
    (l.foldl GetInfo.visit gip).nlives = gip.nlives + l.length := by
  induction l generalizing gip with
  | nil => rfl
  | cons plp l ih =>
    rw [List.foldl_cons, ih, List.length_cons]
    exact Nat.succ_add_eq_add_succ _ _

/-- No number without sign is below 0. -/
theorem tStart_foldl {l : List PLive} {gip : GetInfo} (h : gip.tStart = 0) :
    (l.foldl GetInfo.visit gip).tStart = 0 := by
  induction l generalizing gip with
  | nil => exact h
  | cons plp l ih =>
    refine ih ?_
    dsimp only [GetInfo.visit]
    rw [h, if_neg]
    rintro (hneg | hlt)
    · exact absurd hneg (by norm_num)
    · exact absurd hlt (UInt64.not_lt.mpr (UInt64.zero_le))

theorem GetInfo.tEnd_visit (gip : GetInfo) (plp : PLive) : (gip.visit plp).tEnd = max gip.tEnd plp.ct := by
  have hneg : ¬ (gip.tEnd.toNat : ℚ) < 0 := not_lt.mpr (Nat.cast_nonneg _)
  dsimp only [GetInfo.visit]
  split_ifs with h
  · exact (max_eq_right (h.resolve_left hneg).le).symm
  · exact (max_eq_left (not_lt.mp fun hlt => h (.inr hlt))).symm

/-- The last end is found. -/
theorem tEnd_foldl (l : List PLive) (gip : GetInfo) :
    gip.tEnd ≤ (l.foldl GetInfo.visit gip).tEnd ∧
      (∀ plp ∈ l, plp.ct ≤ (l.foldl GetInfo.visit gip).tEnd) ∧
      ((l.foldl GetInfo.visit gip).tEnd = gip.tEnd ∨ ∃ plp ∈ l, (l.foldl GetInfo.visit gip).tEnd = plp.ct) := by
  induction l generalizing gip with
  | nil => exact ⟨le_refl _, nofun, .inl rfl⟩
  | cons plp l ih =>
    obtain ⟨hle, hall, hsome⟩ := ih (gip.visit plp)
    rw [gip.tEnd_visit] at hle hsome
    rw [List.foldl_cons]
    refine ⟨(le_max_left _ _).trans hle, ?_, ?_⟩
    · intro p hp
      rcases List.mem_cons.mp hp with rfl | hp
      · exact (le_max_right _ _).trans hle
      · exact hall p hp
    · rcases hsome with heq | ⟨p, hp, heq⟩
      · rcases max_choice gip.tEnd plp.ct with hmax | hmax
        · exact .inl (heq.trans hmax)
        · exact .inr ⟨plp, List.mem_cons_self, heq.trans hmax⟩
      · exact .inr ⟨p, List.mem_cons_of_mem _ hp, heq⟩

/-- The live times of intervals that do not meet add up without wrapping. -/
theorem totLive_foldl {l : List PLive} {gip : GetInfo} (hle : ∀ plp ∈ l, plp.dt ≤ plp.ct)
    (hsorted : l.Pairwise fun a b => a.ct < b.dt) (hroom : ∀ plp ∈ l, gip.totLive ≤ plp.dt) :
    exactTime.bitTime (l.foldl GetInfo.visit gip).totLive =
      exactTime.bitTime gip.totLive + (l.map PLive.length).sum := by
  induction l generalizing gip with
  | nil => exact (add_zero _).symm
  | cons plp l ih =>
    obtain ⟨hplp, hle⟩ := List.forall_mem_cons.mp hle
    obtain ⟨hafter, hsorted⟩ := List.pairwise_cons.mp hsorted
    obtain ⟨hfirst, -⟩ := List.forall_mem_cons.mp hroom
    have hsub : (plp.ct - plp.dt).toNat = plp.ct.toNat - plp.dt.toNat := UInt64.toNat_sub_of_le _ _ hplp
    have hplp' := UInt64.le_iff_toNat_le.mp hplp
    have hfirst' := UInt64.le_iff_toNat_le.mp hfirst
    have hlt := plp.ct.toNat_lt
    have hsum : (gip.visit plp).totLive.toNat = gip.totLive.toNat + (plp.ct.toNat - plp.dt.toNat) := by
      show (gip.totLive + (plp.ct - plp.dt)).toNat = _
      rw [UInt64.toNat_add, hsub]
      omega
    have hnext : ∀ p ∈ l, (gip.visit plp).totLive ≤ p.dt := by
      intro p hp
      have hp := UInt64.lt_iff_toNat_lt.mp (hafter p hp)
      rw [UInt64.le_iff_toNat_le, hsum]
      omega
    rw [List.foldl_cons, ih hle hsorted hnext, List.map_cons, List.sum_cons, ← add_assoc]
    congr 1
    show ((gip.visit plp).totLive.toNat : ℚ) / 1000000000 = _
    rw [hsum]
    unfold PLive.length exactTime
    push_cast [Nat.cast_sub hplp']
    ring

/-! ## The report -/

section

variable {root : RbTree PLive}

/-- What the walk over a tree ends with. -/
theorem visit_spec (h : Separate root) :
    (pLiveVisit root {}).nlives = root.toList.length ∧ (pLiveVisit root {}).tStart = 0 ∧
      exactTime.bitTime (pLiveVisit root {}).totLive = totalLive root := by
  rw [pLiveVisit_eq, nlives_foldl, tStart_foldl rfl,
    totLive_foldl h.le h.sorted fun _ _ => UInt64.zero_le]
  refine ⟨Nat.zero_add _, rfl, ?_⟩
  rw [exactTime.bitTime_zero]
  exact zero_add _

theorem isGreatest_tEnd (hne : root ≠ .nil) :
    IsGreatest {x | ∃ plp ∈ root.toList, x = exactTime.bitTime plp.ct}
      (exactTime.bitTime (pLiveVisit root {}).tEnd) := by
  rw [pLiveVisit_eq]
  obtain ⟨-, hall, hsome⟩ := tEnd_foldl root.toList {}
  constructor
  · rcases hsome with hzero | ⟨plp, hplp, heq⟩
    · obtain ⟨plp, hplp⟩ := List.exists_mem_of_ne_nil _ fun hnil => hne (RbTree.eq_nil_of_toList hnil)
      refine ⟨plp, hplp, congrArg exactTime.bitTime ?_⟩
      exact le_antisymm (hzero ▸ UInt64.zero_le) (hall plp hplp)
    · exact ⟨plp, hplp, congrArg exactTime.bitTime heq⟩
  · rintro x ⟨plp, hplp, rfl⟩
    exact exactTime.mono (hall plp hplp)

/-- There is a first start. -/
theorem exists_isLeast (h : Separate root) (hne : root ≠ .nil) :
    ∃ plp ∈ root.toList, IsLeast {x | ∃ plp ∈ root.toList, x = exactTime.bitTime plp.dt}
      (exactTime.bitTime plp.dt) := by
  have hsorted := h.sorted
  have hle := h.le
  cases hlist : root.toList with
  | nil => exact absurd (RbTree.eq_nil_of_toList hlist) hne
  | cons plp rest =>
    rw [hlist] at hsorted hle
    refine ⟨plp, List.mem_cons_self, ⟨plp, List.mem_cons_self, rfl⟩, ?_⟩
    rintro x ⟨p, hp, rfl⟩
    rcases List.mem_cons.mp hp with rfl | hp
    · exact le_refl _
    · have hlt := (List.pairwise_cons.mp hsorted).1 p hp
      exact exactTime.mono ((hle plp List.mem_cons_self).trans hlt.le)

theorem bitTime_eq_zero {t : UInt64} : exactTime.bitTime t = 0 ↔ t = 0 := by
  show (t.toNat : ℚ) / 1000000000 = 0 ↔ _
  rw [div_eq_zero_iff, or_iff_left (by norm_num), Nat.cast_eq_zero]
  exact ⟨fun h => UInt64.toNat_inj.mp h, fun h => h ▸ rfl⟩

theorem bitTime_inj {t t' : UInt64} (h : exactTime.bitTime t = exactTime.bitTime t') : t = t' := by
  have h : (t.toNat : ℚ) / 1000000000 = (t'.toNat : ℚ) / 1000000000 := h
  rw [div_left_inj' (by norm_num), Nat.cast_inj] at h
  exact UInt64.toNat_inj.mp h

theorem pLiveGet_one (h : Separate root) {plp : PLive} (hlist : root.toList = [plp]) :
    pLiveGet root = ⟨1, 0, 0, 100⟩ := by
  have hn : (pLiveVisit root {}).nlives = 1 := by rw [(visit_spec h).1, hlist, List.length_singleton]
  dsimp only [pLiveGet]
  rw [hn, if_neg Nat.one_ne_zero, if_pos rfl]

theorem pLiveGet_several (h : Separate root) (hseveral : 2 ≤ root.toList.length) :
    pLiveGet root =
      { nlives := root.toList.length
        pLive := 100 * (totalLive root / exactTime.bitTime (pLiveVisit root {}).tEnd)
        avgLive := totalLive root / root.toList.length
        avgLull := (exactTime.bitTime (pLiveVisit root {}).tEnd - totalLive root) /
          (root.toList.length - 1 : ℕ) } := by
  obtain ⟨hn, hstart, htot⟩ := visit_spec h
  dsimp only [pLiveGet]
  rw [hn, hstart, htot, UInt64.sub_zero, if_neg (by omega), if_neg (by omega)]

/-- One interval: its average is left at 0. -/
theorem reports_one_iff (h : Separate root) {plp : PLive} (hlist : root.toList = [plp]) :
    Reports root (pLiveGet root) ↔ plp.dt = plp.ct := by
  have htotal : totalLive root = plp.length := by
    rw [totalLive, hlist, List.map_singleton, List.sum_singleton]
  have hlength : root.toList.length = 1 := by rw [hlist, List.length_singleton]
  rw [pLiveGet_one h hlist]
  constructor
  · intro hreports
    have havg : (0 : ℚ) = totalLive root / root.toList.length := hreports.avgLive
    rw [hlength, htotal, Nat.cast_one, div_one] at havg
    exact (bitTime_inj (sub_eq_zero.mp havg.symm)).symm
  · intro hempty
    have hzero : plp.length = 0 := by rw [PLive.length, hempty, sub_self]
    refine ⟨hlength.symm, ?_, fun hseveral => ?_⟩
    · rw [htotal, hzero, zero_div]
    · rw [hlength] at hseveral
      exact absurd hseveral (by decide)

/-- Several intervals: the window is taken to begin at 0. -/
theorem reports_several_iff (h : Separate root) (hseveral : 2 ≤ root.toList.length) :
    Reports root (pLiveGet root) ↔ ∃ plp ∈ root.toList, plp.dt = 0 := by
  have hne : root ≠ .nil := by
    rintro rfl
    exact absurd hseveral (by decide)
  have hlast := isGreatest_tEnd hne
  rw [pLiveGet_several h hseveral]
  constructor
  · intro hreports
    obtain ⟨plp, hplp, hfirst⟩ := exists_isLeast h hne
    have hlull := (hreports.window hseveral _ _ hfirst hlast).1
    have hgaps : ((root.toList.length - 1 : ℕ) : ℚ) ≠ 0 := Nat.cast_ne_zero.mpr (by omega)
    rw [div_left_inj' hgaps] at hlull
    exact ⟨plp, hplp, bitTime_eq_zero.mp (by linarith)⟩
  · rintro ⟨plp, hplp, hstart⟩
    refine ⟨rfl, rfl, fun _ a b ha hb => ?_⟩
    obtain ⟨p, -, hp⟩ := ha.1
    have hle := ha.2 ⟨plp, hplp, rfl⟩
    rw [hstart, exactTime.bitTime_zero] at hle
    have hzero : a = 0 := by
      refine le_antisymm hle ?_
      rw [hp, show (0 : ℚ) = exactTime.bitTime 0 from exactTime.bitTime_zero.symm]
      exact exactTime.mono UInt64.zero_le
    obtain rfl := hb.unique hlast
    rw [hzero, sub_zero]
    exact ⟨rfl, (mul_div_assoc _ _ _).symm⟩

end

/-- **The live statistics** are right just for one empty interval, or for several from time 0 on. -/
theorem reports_iff (root : RbTree PLive) (h : Separate root) (hne : root ≠ .nil) :
    Reports root (pLiveGet root) ↔ StartsAtZero root := by
  cases hlist : root.toList with
  | nil => exact absurd (RbTree.eq_nil_of_toList hlist) hne
  | cons plp rest =>
    cases rest with
    | nil =>
      rw [reports_one_iff h hlist, StartsAtZero, hlist]
      constructor
      · intro hempty
        refine ⟨fun p hp => ?_, fun hseveral => absurd hseveral (by simp)⟩
        obtain rfl := List.singleton_inj.mp hp
        exact hempty
      · intro hright
        exact hright.1 plp rfl
    | cons plp' rest =>
      have hseveral : 2 ≤ root.toList.length := by
        rw [hlist, List.length_cons, List.length_cons]
        omega
      rw [reports_several_iff h hseveral, StartsAtZero]
      constructor
      · intro hstart
        refine ⟨fun p hp => ?_, fun _ => hstart⟩
        rw [hlist] at hp
        exact absurd hp (by simp)
      · intro hright
        exact hright.2 hseveral

/-- From 1 to 3 nanoseconds, and from 5 to 9. -/
def twoLives : RbTree PLive := .node false .nil ⟨0, 1, 3⟩ (.node true .nil ⟨1, 5, 9⟩ .nil)

theorem separate_twoLives : Separate twoLives where
  le := by decide
  sorted := by decide

theorem reports_iff_twoLives : Reports twoLives (pLiveGet twoLives) ↔ StartsAtZero twoLives :=
  reports_iff twoLives separate_twoLives nofun

/-- The lull of 2 nanoseconds is reported as 3. -/
theorem not_reports : ¬ Reports twoLives (pLiveGet twoLives) := by
  rw [reports_several_iff separate_twoLives (by decide)]
  decide

end Blktrace.Btt
