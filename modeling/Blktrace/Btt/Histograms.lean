import Blktrace.Btt.Trace
import Blktrace.Lib.Tallies

/-!
# `btt`: histograms of sizes and of unplugs

An index is formed in an `int` and cut off at the top only. A size below one sector ends up before the array,
and a count of 64 bits loses its upper half before it is cut off.
-/

namespace Blktrace.Btt

open Tallies

/-- What is assigned to an `int`. -/
def toInt (x : UInt64) : ℤ := x.toUInt32.toBitVec.toInt

/-- `N_HIST_BKTS`. -/
def nHistBkts : ℕ := 1025

/-- `histo_idx`. -/
def histoIdx (nbytes : UInt64) : ℤ := min (toInt (nbytes >>> 9 - 1)) (nHistBkts - 1)

def bktWidth : ℤ := 5

def excessBkt : ℤ := 20

/-- `NBKTS * sizeof(int)`: the cells of `hist`. (The file has the first `NBKTS`; only these are set to 0, and the
others stay out of use.) -/
def histCells : ℕ := 84

/-- The index that `unplug_hist_add` adds one at. -/
def unplugIdx (nUnplugs : UInt64) : ℤ :=
  let idx := (toInt nUnplugs).tdiv bktWidth
  if excessBkt < idx then excessBkt else idx

/-- `q_histo`, `d_histo`, and the `hist` of each device. -/
structure Histos where
  qHisto : List ℕ := .replicate nHistBkts 0
  dHisto : List ℕ := .replicate nHistBkts 0
  hist : UInt32 → List ℕ := fun _ => .replicate histCells 0

/-- A record that a histogram counts. -/
inductive Counted
  | q (nbytes : UInt32)
  | d (nbytes : UInt32)
  | unplug (device : UInt32) (nUnplugs : UInt64)
deriving DecidableEq

namespace Histos

/-- `update_q_histo`, `update_d_histo` and `unplug_hist_add`; `none` is a write outside of an array. -/
def add (h : Histos) : Counted → Option Histos
  | .q nbytes => (bump h.qHisto (histoIdx nbytes.toUInt64)).map fun cells => { h with qHisto := cells }
  | .d nbytes => (bump h.dHisto (histoIdx nbytes.toUInt64)).map fun cells => { h with dHisto := cells }
  | .unplug device nUnplugs =>
    (bump (h.hist device) (unplugIdx nUnplugs)).map fun cells =>
      { h with hist := Function.update h.hist device cells }

/-- One record after the other. -/
def addAll (h : Histos) (rs : List Counted) : Option Histos := rs.foldlM add h

end Histos

/-- A sample that goes to a histogram. -/
def Sample.counted (x : Sample) : Option Counted :=
  match x.report with
  | .qHisto => some (.q x.value.toUInt32)
  | .dHisto => some (.d x.value.toUInt32)
  | .unplugHist => some (.unplug x.device x.value)
  | _ => none

/-- The records that `add_trace` has handed to the histograms. -/
def State.counted (s : State) : List Counted := s.samples.filterMap Sample.counted

/-! ## Size classes -/

/-- The size class: one for each number of sectors, and one for all that have more. -/
def sizeClass (nbytes : UInt32) : ℕ := min (nbytes.toNat / 512 - 1) (nHistBkts - 1)

/-- The class of a count: one for each five, and one for 100 and more. -/
def unplugClass (nUnplugs : UInt64) : ℕ := min (nUnplugs.toNat / 5) 20

/-- The sizes in the Q records, and in the D records, and the counts of a device. -/
def queuedSizes (rs : List Counted) : List UInt32 := rs.filterMap fun | .q nbytes => some nbytes | _ => none

def issuedSizes (rs : List Counted) : List UInt32 := rs.filterMap fun | .d nbytes => some nbytes | _ => none

def unplugCounts (device : UInt32) (rs : List Counted) : List UInt64 :=
  rs.filterMap fun
    | .unplug dev nUnplugs => if dev = device then some nUnplugs else none
    | _ => none

/-- An array counts each member of a list in the cell of its class. -/
def Holds {α : Type} (cls : α → ℕ) (l : List α) (cells : List ℕ) : Prop :=
  cells.sum = l.length ∧ ∀ k : ℕ, cells.getD k 0 = l.countP fun a => cls a = k

/-- All writes are within the arrays, and each record is in the cell of its class. -/
def HistosRight (rs : List Counted) : Prop :=
  ∃ h, ({} : Histos).addAll rs = some h ∧ Holds sizeClass (queuedSizes rs) h.qHisto ∧
    Holds sizeClass (issuedSizes rs) h.dHisto ∧
    ∀ device, Holds unplugClass (unplugCounts device rs) (h.hist device)

/-- A size is of a sector or more. A count is one of an `int`, or its lower half is, and is one of those that
have the last class. -/
def Counted.Fits : Counted → Prop
  | .q nbytes => 512 ≤ nbytes
  | .d nbytes => 512 ≤ nbytes
  | .unplug _ nUnplugs => nUnplugs.toNat < 2 ^ 31 ∨
      (100 ≤ nUnplugs.toNat % 2 ^ 32 ∧ nUnplugs.toNat % 2 ^ 32 < 2 ^ 31)

/-! ## The indices -/

theorem toInt_eq (x : UInt64) : toInt x =
    if 2 * (x.toNat % 2 ^ 32) < 2 ^ 32 then ((x.toNat % 2 ^ 32 : ℕ) : ℤ)
    else ((x.toNat % 2 ^ 32 : ℕ) : ℤ) - 2 ^ 32 := by
  have hlow : x.toUInt32.toBitVec.toNat = x.toNat % 2 ^ 32 := UInt64.toNat_toUInt32 x
  rw [toInt, BitVec.toInt_eq_toNat_cond, hlow]
  rfl

theorem toNat_sectors (nbytes : UInt32) : (nbytes.toUInt64 >>> 9).toNat = nbytes.toNat / 512 := by
  rw [UInt64.toNat_shiftRight, UInt32.toNat_toUInt64]
  exact Nat.shiftRight_eq_div_pow _ 9

/-- Below one sector the index is -1. -/
theorem histoIdx_eq (nbytes : UInt32) :
    histoIdx nbytes.toUInt64 = if 512 ≤ nbytes then (sizeClass nbytes : ℤ) else -1 := by
  have hsectors := toNat_sectors nbytes
  have hlt := nbytes.toNat_lt
  unfold histoIdx sizeClass nHistBkts
  split_ifs with h
  · have h : 512 ≤ nbytes.toNat := UInt32.le_iff_toNat_le.mp h
    have hone : (1 : UInt64) ≤ nbytes.toUInt64 >>> 9 := by
      rw [UInt64.le_iff_toNat_le, hsectors]
      show 1 ≤ _
      omega
    have hidx : (nbytes.toUInt64 >>> 9 - 1).toNat = nbytes.toNat / 512 - 1 := by
      rw [UInt64.toNat_sub_of_le _ _ hone, hsectors]
      rfl
    rw [toInt_eq, hidx]
    omega
  · have h : nbytes.toNat < 512 := not_le.mp fun hle => h (UInt32.le_iff_toNat_le.mpr hle)
    have hzero : nbytes.toUInt64 >>> 9 = 0 := by
      rw [← UInt64.toNat_inj, hsectors]
      exact Nat.div_eq_of_lt h
    rw [hzero]
    decide

theorem unplugIdx_eq_iff (device : UInt32) (nUnplugs : UInt64) :
    unplugIdx nUnplugs = unplugClass nUnplugs ↔ (Counted.unplug device nUnplugs).Fits := by
  have hlt := nUnplugs.toNat_lt
  have hidx : unplugIdx nUnplugs =
      if nUnplugs.toNat % 2 ^ 32 < 2 ^ 31 then ((min (nUnplugs.toNat % 2 ^ 32 / 5) 20 : ℕ) : ℤ)
      else -(((2 ^ 32 - nUnplugs.toNat % 2 ^ 32) / 5 : ℕ) : ℤ) := by
    have hint := toInt_eq nUnplugs
    unfold unplugIdx bktWidth excessBkt
    by_cases hsmall : nUnplugs.toNat % 2 ^ 32 < 2 ^ 31
    · rw [if_pos (by omega)] at hint
      rw [if_pos hsmall, hint, Int.tdiv_eq_ediv_of_nonneg (by omega)]
      dsimp only
      split_ifs <;> omega
    · have hneg : ((nUnplugs.toNat % 2 ^ 32 : ℕ) : ℤ) - 2 ^ 32 =
          -((2 ^ 32 - nUnplugs.toNat % 2 ^ 32 : ℕ) : ℤ) := by omega
      rw [if_neg (by omega), hneg] at hint
      rw [if_neg hsmall, hint, Int.neg_tdiv, Int.tdiv_eq_ediv_of_nonneg (by omega)]
      dsimp only
      rw [if_neg (by omega)]
      rfl
  rw [hidx]
  unfold unplugClass Counted.Fits
  split_ifs <;> omega

/-! ## What the handlers hand over -/

section

variable (s : State)

theorem counted_report (r : Report) (device : UInt32) (value : UInt64) :
    (s.report r device value).counted = s.counted ++ (Sample.counted ⟨r, device, value⟩).toList := by
  rw [State.counted, State.counted, State.report, List.filterMap_append, List.filterMap_cons]
  cases Sample.counted ⟨r, device, value⟩ <;> rfl

theorem counted_report_of_none {r : Report} (hr : ∀ device value, Sample.counted ⟨r, device, value⟩ = none)
    (device : UInt32) (value : UInt64) : (s.report r device value).counted = s.counted := by
  rw [counted_report, hr]
  exact List.append_nil _

theorem counted_updateLq {r : Report} (hr : ∀ device value, Sample.counted ⟨r, device, value⟩ = none) (iop : Iop)
    (lastQ : UInt64) : (s.updateLq r iop lastQ).counted = s.counted := by
  rw [State.updateLq]
  split_ifs
  · rfl
  · exact counted_report_of_none s hr _ _
  · exact counted_report_of_none s hr _ _

theorem counted_dipUpdateQ (iop : Iop) : (s.dipUpdateQ iop).counted = s.counted :=
  counted_updateLq s (fun _ _ => rfl) iop (s.dip iop.t.device).lastQ

/-- A Q is counted if it is not one of a remapper. -/
theorem counted_handleQueue (q : Iop) : (s.handleQueue q).counted =
    if remapperDev q.t.device then s.counted else s.counted ++ [.q q.t.bytes] := by
  have hlast : (s.handleQueue q).counted = (if remapperDev q.t.device then
      (s.dipUpdateQ q).updateLq (.allAvg .q2qDm) q (s.dipUpdateQ q).lastQ
    else ((s.dipUpdateQ q).report .qHisto q.t.device q.t.bytes.toUInt64).updateLq (.allAvg .q2q) q
      (s.dipUpdateQ q).lastQ).counted := rfl
  rw [hlast]
  split_ifs
  · rw [counted_updateLq _ fun _ _ => rfl, counted_dipUpdateQ]
  · rw [counted_updateLq _ fun _ _ => rfl, counted_report, counted_dipUpdateQ]
    simp [Sample.counted]

theorem counted_issueOne (outputAllData : Bool) (d q : Iop) :
    (State.issueOne outputAllData d s q).counted = s.counted := by
  have hmerged : (if (s.times q.id).iTime ≠ noTime then
        s.report (.avg .i2d) q.t.device (tdelta (s.times q.id).iTime d.t.time)
      else if (s.times q.id).mTime ≠ noTime then
        s.report (.avg .m2d) q.t.device (tdelta (s.times q.id).mTime d.t.time)
      else s).counted = s.counted := by
    split_ifs
    · exact counted_report_of_none s (fun _ _ => rfl) _ _
    · exact counted_report_of_none s (fun _ _ => rfl) _ _
    · rfl
  refine .trans (counted_report_of_none _ (fun _ _ => rfl) _ _) ?_
  cases outputAllData with
  | true => exact (counted_report_of_none _ (fun _ _ => rfl) _ _).trans hmerged
  | false => exact hmerged

/-- And so is a D. -/
theorem counted_handleIssue (outputAllData : Bool) (d : Iop) : (s.handleIssue outputAllData d).counted =
    if remapperDev d.t.device then s.counted else s.counted ++ [.d d.t.bytes] := by
  have hloop : ∀ (l : List Iop) (s : State),
      (l.foldl (State.issueOne outputAllData d) s).counted = s.counted := by
    intro l
    induction l with
    | nil => exact fun _ => rfl
    | cons q l ih => exact fun s => (ih _).trans (counted_issueOne s outputAllData d q)
  unfold State.handleIssue
  dsimp only
  rw [hloop]
  split_ifs
  · rfl
  · rw [counted_report]
    simp [Sample.counted, State.counted, State.deactivate, State.iostatIssue]

/-- An unplug is counted if its device is there. -/
theorem counted_unplugHistAdd (iop : Iop) (nios : UInt64) : (s.unplugHistAdd iop nios).counted =
    s.counted ++ ((s.dips iop.t.device).map fun _ => .unplug iop.t.device nios).toList := by
  unfold State.unplugHistAdd
  cases s.dips iop.t.device with
  | none => exact (List.append_nil _).symm
  | some dip => exact counted_report s .unplugHist iop.t.device nios

end

/-! ## The arrays -/

/-- The arrays do not depend on one another. -/
theorem addAll_eq_some (h h' : Histos) (rs : List Counted) : h.addAll rs = some h' ↔
    bumps h.qHisto ((queuedSizes rs).map fun nbytes => histoIdx nbytes.toUInt64) = some h'.qHisto ∧
    bumps h.dHisto ((issuedSizes rs).map fun nbytes => histoIdx nbytes.toUInt64) = some h'.dHisto ∧
    ∀ device, bumps (h.hist device) ((unplugCounts device rs).map unplugIdx) = some (h'.hist device) := by
  induction rs generalizing h with
  | nil =>
    constructor
    · intro heq
      obtain rfl := Option.some.inj heq
      exact ⟨rfl, rfl, fun _ => rfl⟩
    · rintro ⟨hq, hd, hu⟩
      have hu : h.hist = h'.hist := funext fun device => Option.some.inj (hu device)
      cases h
      cases h'
      exact congrArg some (Histos.mk.injEq .. |>.mpr ⟨Option.some.inj hq, Option.some.inj hd, hu⟩)
  | cons r rs ih =>
    have hcons : h.addAll (r :: rs) = (h.add r).bind fun h => h.addAll rs := rfl
    rw [hcons]
    cases r with
    | q nbytes =>
      have hsizes : queuedSizes (.q nbytes :: rs) = nbytes :: queuedSizes rs := rfl
      rw [hsizes, List.map_cons, bumps_cons, Histos.add]
      cases bump h.qHisto (histoIdx nbytes.toUInt64) with
      | none => exact iff_of_false (by simp) fun hall => absurd hall.1 (by simp)
      | some cells => exact ih { h with qHisto := cells }
    | d nbytes =>
      have hsizes : issuedSizes (.d nbytes :: rs) = nbytes :: issuedSizes rs := rfl
      rw [hsizes, List.map_cons, bumps_cons, Histos.add]
      cases bump h.dHisto (histoIdx nbytes.toUInt64) with
      | none => exact iff_of_false (by simp) fun hall => absurd hall.2.1 (by simp)
      | some cells => exact ih { h with dHisto := cells }
    | unplug device nUnplugs =>
      have hself : unplugCounts device (.unplug device nUnplugs :: rs) = nUnplugs :: unplugCounts device rs := by
        simp [unplugCounts]
      have hother : ∀ dev ≠ device, unplugCounts dev (.unplug device nUnplugs :: rs) = unplugCounts dev rs := by
        intro dev hne
        simp [unplugCounts, hne.symm]
      rw [Histos.add]
      cases hbump : bump (h.hist device) (unplugIdx nUnplugs) with
      | none =>
        refine iff_of_false (by simp) fun hall => ?_
        have hnone := hall.2.2 device
        rw [hself, List.map_cons, bumps_cons, hbump] at hnone
        exact absurd hnone (by simp)
      | some cells =>
        refine (ih { h with hist := Function.update h.hist device cells }).trans ?_
        refine and_congr_right fun _ => and_congr_right fun _ => forall_congr' fun dev => ?_
        dsimp only
        by_cases hdev : dev = device
        · rw [hdev, Function.update_self, hself, List.map_cons, bumps_cons, hbump]
          rfl
        · rw [Function.update_of_ne hdev, hother dev hdev]

/-- The members of a list of one kind of records. -/
theorem mem_filterMap_iff {α : Type} {f : Counted → Option α} {g : α → Counted}
    (h : ∀ r a, f r = some a ↔ r = g a) {rs : List Counted} {a : α} : a ∈ rs.filterMap f ↔ g a ∈ rs := by
  simp [List.mem_filterMap, h]

theorem mem_queuedSizes {rs : List Counted} {nbytes : UInt32} : nbytes ∈ queuedSizes rs ↔ .q nbytes ∈ rs :=
  mem_filterMap_iff fun r n => by cases r <;> simp

theorem mem_issuedSizes {rs : List Counted} {nbytes : UInt32} : nbytes ∈ issuedSizes rs ↔ .d nbytes ∈ rs :=
  mem_filterMap_iff fun r n => by cases r <;> simp

theorem mem_unplugCounts {rs : List Counted} {device : UInt32} {nUnplugs : UInt64} :
    nUnplugs ∈ unplugCounts device rs ↔ .unplug device nUnplugs ∈ rs :=
  mem_filterMap_iff fun r n => by cases r <;> simp

/-- All records fit, list by list. -/
theorem forall_fits_iff {rs : List Counted} : (∀ r ∈ rs, r.Fits) ↔
    (∀ nbytes ∈ queuedSizes rs, 512 ≤ nbytes) ∧ (∀ nbytes ∈ issuedSizes rs, 512 ≤ nbytes) ∧
    ∀ device, ∀ nUnplugs ∈ unplugCounts device rs, (Counted.unplug device nUnplugs).Fits := by
  constructor
  · intro h
    refine ⟨fun nbytes hq => ?_, fun nbytes hd => ?_, fun device nUnplugs hu => ?_⟩
    · exact h _ (mem_queuedSizes.mp hq)
    · exact h _ (mem_issuedSizes.mp hd)
    · exact h _ (mem_unplugCounts.mp hu)
  · rintro ⟨hq, hd, hu⟩ r hr
    cases r with
    | q nbytes => exact hq nbytes (mem_queuedSizes.mpr hr)
    | d nbytes => exact hd nbytes (mem_issuedSizes.mpr hr)
    | unplug device nUnplugs => exact hu device nUnplugs (mem_unplugCounts.mpr hr)

/-- A size that has a cell is in that of its class, so there is no class that others are taken for. -/
theorem holds_sizes_iff (l : List UInt32) :
    (∃ cells, bumps (.replicate nHistBkts 0) (l.map fun nbytes => histoIdx nbytes.toUInt64) = some cells ∧
      Holds sizeClass l cells) ↔ ∀ nbytes ∈ l, 512 ≤ nbytes := by
  refine (@bumps_iff _ _ _ _ nHistBkts _ (fun nbytes => ?_) (fun nbytes _ hpos hne => ?_)).trans
    (forall₂_congr fun nbytes _ => ?_)
  · exact lt_of_le_of_lt (min_le_right _ _) (Nat.lt_succ_self _)
  · rw [histoIdx_eq] at hpos hne
    split_ifs at hpos hne
    · exact absurd rfl hne
    · exact absurd hpos (by simp)
  · rw [histoIdx_eq]
    split_ifs with h
    · exact iff_of_true rfl h
    · exact iff_of_false id h

/-- A count whose lower half is taken for less than it is has the last class. -/
theorem holds_counts_iff (device : UInt32) (l : List UInt64) :
    (∃ cells, bumps (.replicate histCells 0) (l.map unplugIdx) = some cells ∧ Holds unplugClass l cells) ↔
      ∀ nUnplugs ∈ l, (Counted.unplug device nUnplugs).Fits := by
  refine (@bumps_iff _ _ _ _ 20 _ (fun nUnplugs => ?_) (fun nUnplugs _ hpos hne => ?_)).trans
    (forall₂_congr fun nUnplugs _ => unplugIdx_eq_iff device nUnplugs)
  · exact lt_of_le_of_lt (min_le_right _ _) (by decide)
  · have hfits := mt (unplugIdx_eq_iff device nUnplugs).mpr hne
    rw [Counted.Fits, not_or] at hfits
    unfold unplugClass
    omega

/-- **The histograms**: no write is outside of an array and each record is in the cell of its class, just if the
sizes are of a sector or more and no count changes its class when it is cut to an `int`. -/
theorem histosRight_iff (rs : List Counted) : HistosRight rs ↔ ∀ r ∈ rs, r.Fits := by
  rw [forall_fits_iff, ← holds_sizes_iff, ← holds_sizes_iff,
    forall_congr' fun device => (holds_counts_iff device (unplugCounts device rs)).symm]
  constructor
  · rintro ⟨h, hadd, hq, hd, hu⟩
    obtain ⟨hqs, hds, hus⟩ := (addAll_eq_some _ h rs).mp hadd
    exact ⟨⟨_, hqs, hq⟩, ⟨_, hds, hd⟩, fun device => ⟨_, hus device, hu device⟩⟩
  · rintro ⟨⟨q, hqs, hq⟩, ⟨d, hds, hd⟩, hcounts⟩
    choose u hus hu using hcounts
    exact ⟨⟨q, d, u⟩, (addAll_eq_some _ _ rs).mpr ⟨hqs, hds, hus⟩, hq, hd, hu⟩

/-- A queued request of 256 bytes is added before the array. -/
theorem not_histosRight : ¬ HistosRight [.q 256] := by
  rintro ⟨h, hadd, -⟩
  have hnone : ({} : Histos).addAll [.q 256] = none := rfl
  rw [hnone] at hadd
  exact absurd hadd (by simp)

end Blktrace.Btt
