import Blktrace.Btt.PointQuery
import Mathlib.Algebra.Order.Group.Int
import Mathlib.Data.List.Count
import Mathlib.Data.List.Dedup

/-!
# `btt`: seeks

`seek.c` counts how often each distance occurs, in a tree. `__median` looks for the median on the way down
and adds nothing up on the way, so it ends at a distance that alone makes up half of the seeks, or at
none. `__mode` goes through the whole tree.

A count is a number here; none is above the number of seeks.
-/

namespace Blktrace.Btt

open SearchTree

/-- `struct seek_bkt`. -/
structure SeekBkt where
  sectors : ℤ
  nseeks : ℕ
deriving DecidableEq

/-- `last_start` and `last_end`. -/
structure SeekPos where
  lastStart : ℤ := 0
  lastEnd : ℤ := 0

/-- `struct seeki`, less the files. -/
structure Seeki where
  root : RbTree SeekBkt := .nil
  totSeeks : ℕ := 0
  last : SeekPos := {}

/-- A `long long`; what does not fit is undefined. -/
def longLong (x : ℤ) : Option ℤ := if -2 ^ 63 ≤ x ∧ x < 2 ^ 63 then some x else none

/-- Where an IO is, as `long long`s. -/
def seekPos (iop : Iop) : SeekPos := ⟨iop.bitStart.toInt64.toInt, iop.bitEnd.toInt64.toInt⟩

/-- `seek_dist`, from where the last IO was. -/
def seekDist (seekAbsolute : Bool) (last : SeekPos) (iop : Iop) : Option ℤ :=
  let start := (seekPos iop).lastStart
  let stop := (seekPos iop).lastEnd
  if seekAbsolute then longLong (start - last.lastEnd)
  else if (last.lastStart ≤ start ∧ start ≤ last.lastEnd) ∨
      (last.lastStart ≤ stop ∧ stop ≤ last.lastEnd) then some 0
  else if last.lastEnd < start then longLong (start - last.lastEnd)
  else longLong (start - last.lastStart)

/-- The distance that `seeki_add` counts. -/
def absDist (seekAbsolute : Bool) (last : SeekPos) (iop : Iop) : Option ℤ :=
  (seekDist seekAbsolute last iop).bind fun dist => longLong |dist|

/-- The distances of one IO after the other. -/
def absDists (seekAbsolute : Bool) : SeekPos → List Iop → Option (List ℤ)
  | _, [] => some []
  | last, iop :: iops =>
    (absDist seekAbsolute last iop).bind fun d =>
      (absDists seekAbsolute (seekPos iop) iops).map (d :: ·)

section

variable (bal : Balancer SeekBkt)

/-- `__insert`. -/
def insertSeek (root : RbTree SeekBkt) (sectors : ℤ) : RbTree SeekBkt :=
  match root.link SeekBkt.sectors ⟨sectors, 1⟩ with
  | some root => bal.insertColor ⟨sectors, 1⟩ root
  | none => root.modify SeekBkt.sectors sectors fun sbp => { sbp with nseeks := sbp.nseeks + 1 }

/-- `seeki_add`. -/
def seekiAdd (seekAbsolute : Bool) (sip : Seeki) (iop : Iop) : Option Seeki :=
  (absDist seekAbsolute sip.last iop).map fun dist =>
    { root := insertSeek bal sip.root dist, totSeeks := sip.totSeeks + 1, last := seekPos iop }

/-- `seeki_add` for one IO after the other. -/
def seekiAdds (seekAbsolute : Bool) (iops : List Iop) : Option Seeki :=
  iops.foldlM (seekiAdd bal seekAbsolute) {}

end

/-- `__median`: `none` is the 0 it returns. -/
def median (sofar target : ℕ) : RbTree SeekBkt → Option ℤ
  | .nil => none
  | .node _ left sbp right =>
    if target ≤ sofar + sbp.nseeks then some sbp.sectors
    else (median sofar target left).or (median sofar target right)

/-- `seeki_median`. -/
def seekiMedian (sip : Seeki) : ℤ := (median 0 (sip.totSeeks / 2) sip.root).getD 0

/-- `struct mode`; what was not written to the array yet is `none`. -/
structure Mode where
  mostSeeks : ℕ := 0
  nmds : ℕ := 0
  modes : Option (List (Option ℤ)) := none

/-- `realloc`. -/
def realloc (modes : List (Option ℤ)) (n : ℕ) : List (Option ℤ) :=
  modes.take n ++ .replicate (n - modes.length) none

/-- `mp->modes[mp->nmds++] = sectors`; a write outside of the array is undefined. -/
def Mode.write (sbp : SeekBkt) (modes : List (Option ℤ)) (nmds : ℕ) : Option Mode :=
  if nmds < modes.length then some ⟨sbp.nseeks, nmds + 1, some (modes.set nmds (some sbp.sectors))⟩ else none

/-- What `__mode` does at a node. -/
def Mode.visit (mp : Mode) (sbp : SeekBkt) : Option Mode :=
  match mp.modes with
  | none => write sbp [none] 0
  | some modes =>
    if mp.mostSeeks < sbp.nseeks then write sbp modes 0
    else if sbp.nseeks = mp.mostSeeks then write sbp (realloc modes (mp.nmds + 1)) mp.nmds
    else some mp

/-- `__mode`. -/
def mode : RbTree SeekBkt → Mode → Option Mode
  | .nil, mp => some mp
  | .node _ left sbp right, mp => (mode left mp).bind fun mp => (mode right mp).bind fun mp => mp.visit sbp

/-- `seeki_mode`. -/
def seekiMode (sip : Seeki) : Option Mode := mode sip.root {}

/-! ## The tree of distances -/

/-- The nodes are the distances, each with how often it occurs. -/
structure Buckets (ds : List ℤ) (root : RbTree SeekBkt) : Prop where
  sorted : root.toList.Pairwise fun a b => a.sectors < b.sectors
  count : ∀ sbp ∈ root.toList, sbp.nseeks = ds.count sbp.sectors
  mem : ∀ d, d ∈ ds ↔ ∃ sbp ∈ root.toList, sbp.sectors = d

namespace Buckets

variable {ds : List ℤ} {root : RbTree SeekBkt}

theorem nil : Buckets [] .nil := ⟨.nil, nofun, fun _ => ⟨nofun, fun ⟨_, h, _⟩ => nomatch h⟩⟩

/-- One seek more. -/
theorem insert (bal : Balancer SeekBkt) (h : Buckets ds root) (d : ℤ) :
    Buckets (ds ++ [d]) (insertSeek bal root d) := by
  unfold insertSeek
  cases hlink : root.link SeekBkt.sectors ⟨d, 1⟩ with
  | some root' =>
    obtain ⟨hsorted, hnodes, hfresh⟩ := RbTree.link_spec h.sorted hlink
    have hnot : d ∉ ds := by
      rw [h.mem d]
      rintro ⟨sbp, hsbp, heq⟩
      exact hfresh sbp hsbp heq
    refine ⟨?_, fun sbp hsbp => ?_, fun d' => ?_⟩
    · rw [bal.toList_insertColor]
      exact hsorted
    · rw [bal.toList_insertColor, hnodes] at hsbp
      rw [List.count_append]
      rcases hsbp with rfl | hsbp
      · rw [List.count_eq_zero_of_not_mem hnot, List.count_singleton_self]
      · have hne : d ≠ sbp.sectors := (hfresh sbp hsbp).symm
        rw [h.count sbp hsbp, List.count_singleton, if_neg (by simpa using hne)]
        rfl
    · rw [bal.toList_insertColor, List.mem_append, List.mem_singleton, h.mem d']
      constructor
      · rintro (⟨sbp, hsbp, heq⟩ | rfl)
        · exact ⟨sbp, (hnodes sbp).mpr (.inr hsbp), heq⟩
        · exact ⟨⟨d', 1⟩, (hnodes _).mpr (.inl rfl), rfl⟩
      · rintro ⟨sbp, hsbp, rfl⟩
        rcases (hnodes sbp).mp hsbp with rfl | hsbp
        · exact .inr rfl
        · exact .inl ⟨sbp, hsbp, rfl⟩
  | none =>
    obtain ⟨found, hfound, hd⟩ := (RbTree.link_eq_none h.sorted).mp hlink
    obtain rfl : found.sectors = d := hd
    obtain ⟨hsorted, hnodes⟩ := @RbTree.modify_spec _ _ _ SeekBkt.sectors root h.sorted
      (fun sbp => { sbp with nseeks := sbp.nseeks + 1 }) found hfound rfl
    refine ⟨hsorted, fun sbp hsbp => ?_, fun d' => ?_⟩
    · rw [List.count_append, List.count_singleton]
      rcases (hnodes sbp).mp hsbp with rfl | ⟨hold, hne⟩
      · rw [if_pos (by simp)]
        exact congrArg (· + 1) (h.count found hfound)
      · rw [if_neg (by simpa using hne.symm)]
        exact h.count sbp hold
    · have hin : found.sectors ∈ ds := (h.mem _).mpr ⟨found, hfound, rfl⟩
      rw [List.mem_append, List.mem_singleton, or_iff_left_of_imp (fun heq => heq ▸ hin), h.mem d']
      constructor
      · rintro ⟨sbp, hsbp, rfl⟩
        by_cases hsame : sbp.sectors = found.sectors
        · exact ⟨_, (hnodes _).mpr (.inl rfl), hsame.symm⟩
        · exact ⟨sbp, (hnodes _).mpr (.inr ⟨hsbp, hsame⟩), rfl⟩
      · rintro ⟨sbp, hsbp, rfl⟩
        rcases (hnodes sbp).mp hsbp with rfl | ⟨hold, -⟩
        · exact ⟨found, hfound, rfl⟩
        · exact ⟨sbp, hold, rfl⟩

end Buckets

/-! ## One IO after the other -/

section

variable (bal : Balancer SeekBkt) {seekAbsolute : Bool}

theorem buckets_foldl (ds : List ℤ) : Buckets ds (ds.foldl (insertSeek bal) .nil) := by
  induction ds using List.reverseRecOn with
  | nil => exact .nil
  | append_singleton ds d ih =>
    rw [List.foldl_append]
    exact ih.insert bal d

/-- The distances go to the tree. -/
theorem foldlM_seekiAdd (sip : Seeki) {iops : List Iop} {ds : List ℤ}
    (h : absDists seekAbsolute sip.last iops = some ds) :
    ∃ sip', iops.foldlM (seekiAdd bal seekAbsolute) sip = some sip' ∧
      sip'.root = ds.foldl (insertSeek bal) sip.root ∧ sip'.totSeeks = sip.totSeeks + ds.length := by
  induction iops generalizing sip ds with
  | nil =>
    obtain rfl := Option.some.inj h
    exact ⟨sip, rfl, rfl, rfl⟩
  | cons iop iops ih =>
    obtain ⟨d, hd, hrest⟩ := Option.bind_eq_some_iff.mp h
    obtain ⟨ds, hds, rfl⟩ := Option.map_eq_some_iff.mp hrest
    have hadd : seekiAdd bal seekAbsolute sip iop = some
        { root := insertSeek bal sip.root d, totSeeks := sip.totSeeks + 1, last := seekPos iop } := by
      rw [seekiAdd, hd, Option.map_some]
    obtain ⟨sip', hrun, hroot, htot⟩ := ih ⟨insertSeek bal sip.root d, sip.totSeeks + 1, seekPos iop⟩ hds
    refine ⟨sip', ?_, hroot, ?_⟩
    · rw [List.foldlM_cons, hadd]
      exact hrun
    · rw [htot, List.length_cons]
      exact Nat.succ_add_eq_add_succ _ _

/-- What `seeki_add` leaves. -/
theorem seekiAdds_spec {iops : List Iop} {ds : List ℤ} (h : absDists seekAbsolute {} iops = some ds) :
    ∃ sip, seekiAdds bal seekAbsolute iops = some sip ∧ Buckets ds sip.root ∧ sip.totSeeks = ds.length := by
  obtain ⟨sip, hrun, hroot, htot⟩ := foldlM_seekiAdd bal {} h
  exact ⟨sip, hrun, hroot ▸ buckets_foldl bal ds, htot.trans (Nat.zero_add _)⟩

theorem nonneg_absDists {last : SeekPos} {iops : List Iop} {ds : List ℤ}
    (h : absDists seekAbsolute last iops = some ds) : ∀ d ∈ ds, 0 ≤ d := by
  induction iops generalizing last ds with
  | nil =>
    obtain rfl := Option.some.inj h
    nofun
  | cons iop iops ih =>
    obtain ⟨d, hd, hrest⟩ := Option.bind_eq_some_iff.mp h
    obtain ⟨ds, hds, rfl⟩ := Option.map_eq_some_iff.mp hrest
    obtain ⟨dist, -, habs⟩ := Option.bind_eq_some_iff.mp hd
    rw [longLong, Option.ite_none_right_eq_some] at habs
    obtain rfl := Option.some.inj habs.2
    exact List.forall_mem_cons.mpr ⟨abs_nonneg dist, ih hds⟩

end

/-! ## The median -/

/-- Half of the seeks, rounded down, go no further than `m`, and half go no less far. -/
def IsMedian (ds : List ℤ) (m : ℤ) : Prop :=
  m ∈ ds ∧ ds.length / 2 ≤ ds.countP (· ≤ m) ∧ ds.length / 2 ≤ ds.countP (m ≤ ·)

instance (ds : List ℤ) (m : ℤ) : Decidable (IsMedian ds m) := inferInstanceAs (Decidable (_ ∧ _ ∧ _))

theorem exists_of_median {sofar target : ℕ} {root : RbTree SeekBkt} {m : ℤ}
    (h : median sofar target root = some m) :
    ∃ sbp ∈ root.toList, sbp.sectors = m ∧ target ≤ sofar + sbp.nseeks := by
  induction root with
  | nil => nomatch h
  | node c left sbp right ihl ihr =>
    unfold median at h
    split_ifs at h with hreach
    · obtain rfl := Option.some.inj h
      exact ⟨sbp, List.mem_append_right _ List.mem_cons_self, rfl, hreach⟩
    · rcases Option.or_eq_some_iff.mp h with h | ⟨-, h⟩
      · obtain ⟨b, hb, hfound⟩ := ihl h
        exact ⟨b, List.mem_append_left _ hb, hfound⟩
      · obtain ⟨b, hb, hfound⟩ := ihr h
        exact ⟨b, List.mem_append_right _ (List.mem_cons_of_mem _ hb), hfound⟩

/-- Nothing is added up on the way: a node that is passed over is passed over for its own count. -/
theorem lt_of_median {sofar target : ℕ} {root : RbTree SeekBkt} (h : median sofar target root = none) :
    ∀ sbp ∈ root.toList, sofar + sbp.nseeks < target := by
  induction root with
  | nil => nofun
  | node c left sbp right ihl ihr =>
    unfold median at h
    split_ifs at h with hreach
    obtain ⟨hleft, hright⟩ := Option.or_eq_none_iff.mp h
    intro b hb
    rcases List.mem_append.mp hb with hb | hb
    · exact ihl hleft b hb
    · rcases List.mem_cons.mp hb with rfl | hb
      · exact not_le.mp hreach
      · exact ihr hright b hb

/-- A distance that makes up half of the seeks is in the middle. -/
theorem isMedian_of_count {ds : List ℤ} {m : ℤ} (hm : m ∈ ds) (hhalf : ds.length / 2 ≤ ds.count m) :
    IsMedian ds m := by
  refine ⟨hm, hhalf.trans (List.countP_mono_left ?_), hhalf.trans (List.countP_mono_left ?_)⟩
  · intro d _ heq
    exact decide_eq_true (beq_iff_eq.mp heq).le
  · intro d _ heq
    exact decide_eq_true (beq_iff_eq.mp heq).ge

/-- **The median** is right just if one distance makes up half of the seeks. -/
theorem isMedian_iff (bal : Balancer SeekBkt) (seekAbsolute : Bool) (iops : List Iop) (ds : List ℤ)
    (h : absDists seekAbsolute {} iops = some ds) :
    ∃ sip, seekiAdds bal seekAbsolute iops = some sip ∧
      (IsMedian ds (seekiMedian sip) ↔ ∃ d ∈ ds, ds.length / 2 ≤ ds.count d) := by
  obtain ⟨sip, hrun, hbuckets, htot⟩ := seekiAdds_spec bal h
  refine ⟨sip, hrun, ?_⟩
  rw [seekiMedian, htot]
  cases hmedian : median 0 (ds.length / 2) sip.root with
  | some m =>
    obtain ⟨sbp, hsbp, rfl, hreach⟩ := exists_of_median hmedian
    have hmem := (hbuckets.mem _).mpr ⟨sbp, hsbp, rfl⟩
    rw [Nat.zero_add, hbuckets.count sbp hsbp] at hreach
    exact iff_of_true (isMedian_of_count hmem hreach) ⟨sbp.sectors, hmem, hreach⟩
  | none =>
    have hfew : ¬ ∃ d ∈ ds, ds.length / 2 ≤ ds.count d := by
      rintro ⟨d, hd, hhalf⟩
      obtain ⟨sbp, hsbp, rfl⟩ := (hbuckets.mem d).mp hd
      have hlt := lt_of_median hmedian sbp hsbp
      rw [Nat.zero_add, hbuckets.count sbp hsbp] at hlt
      exact absurd hhalf (not_le.mpr hlt)
    refine iff_of_false ?_ hfew
    rintro ⟨hzero, hbelow, -⟩
    -- no distance is below the 0 that is returned, so half of them would have to be 0
    refine hfew ⟨0, hzero, hbelow.trans (List.countP_mono_left ?_)⟩
    intro d hd hle
    exact beq_iff_eq.mpr (le_antisymm (of_decide_eq_true hle) (nonneg_absDists h d hd))

/-- Reads of eight sectors, each further away. -/
def spread : List Iop :=
  [queuedRead 1 8 4096, queuedRead 2 32 4096, queuedRead 3 64 4096, queuedRead 4 104 4096]

theorem isMedian_iff_spread : ∃ sip, seekiAdds (.plain SeekBkt) false spread = some sip ∧
    (IsMedian [8, 16, 24, 32] (seekiMedian sip) ↔
      ∃ d ∈ [8, 16, 24, 32], [8, 16, 24, 32].length / 2 ≤ ([8, 16, 24, 32] : List ℤ).count d) :=
  isMedian_iff _ false spread _ (by decide)

/-- Four distances, 8, 16, 24 and 32: the median is said to be 0. -/
theorem not_isMedian : absDists false {} spread = some [8, 16, 24, 32] ∧
    ∃ sip, seekiAdds (.plain SeekBkt) false spread = some sip ∧
      ¬ IsMedian [8, 16, 24, 32] (seekiMedian sip) := by
  refine ⟨by decide, _, rfl, ?_⟩
  rintro ⟨hmem, -⟩
  exact absurd hmem (by decide)

/-! ## The modes -/

/-- The distances that occur most often, each once. -/
def AreModes (ds modes : List ℤ) : Prop :=
  modes.Nodup ∧ ∀ d, d ∈ modes ↔ d ∈ ds ∧ ∀ d' ∈ ds, ds.count d' ≤ ds.count d

/-- What `__mode` has after the nodes `bs`: those with the greatest count, in the order of the walk. -/
structure Picked (bs : List SeekBkt) (mp : Mode) : Prop where
  cells : ∃ cells, mp.modes = some cells ∧ mp.nmds ≤ cells.length ∧
    cells.take mp.nmds = (bs.filter (·.nseeks = mp.mostSeeks)).map fun sbp => some sbp.sectors
  nmds : mp.nmds = (bs.filter (·.nseeks = mp.mostSeeks)).length
  le : ∀ sbp ∈ bs, sbp.nseeks ≤ mp.mostSeeks
  attained : ∃ sbp ∈ bs, sbp.nseeks = mp.mostSeeks

theorem take_set (cells : List (Option ℤ)) (n : ℕ) (x : Option ℤ) (h : n < cells.length) :
    (cells.set n x).take (n + 1) = cells.take n ++ [x] := by
  rw [List.set_eq_take_append_cons_drop, if_pos h, List.take_append, List.take_take, List.length_take,
    Nat.min_eq_right (Nat.le_succ n), Nat.min_eq_left h.le, Nat.add_sub_cancel_left]
  rfl

theorem length_realloc (cells : List (Option ℤ)) (n : ℕ) : (realloc cells n).length = n := by
  rw [realloc, List.length_append, List.length_take, List.length_replicate]
  omega

theorem take_realloc {cells : List (Option ℤ)} {n : ℕ} (h : n ≤ cells.length) :
    (realloc cells (n + 1)).take n = cells.take n := by
  rw [realloc, List.take_append, List.take_take, Nat.min_eq_left (Nat.le_succ n), List.length_take]
  have hzero : n - min (n + 1) cells.length = 0 := by omega
  rw [hzero, List.take_zero, List.append_nil]

/-- A write behind the first `n` cells. -/
theorem Mode.write_eq (sbp : SeekBkt) (cells : List (Option ℤ)) {n : ℕ} (h : n < cells.length) :
    ∃ cells', write sbp cells n = some ⟨sbp.nseeks, n + 1, some cells'⟩ ∧ n + 1 ≤ cells'.length ∧
      cells'.take (n + 1) = cells.take n ++ [some sbp.sectors] := by
  refine ⟨cells.set n (some sbp.sectors), if_pos h, ?_, take_set cells n _ h⟩
  rw [List.length_set]
  exact h

/-- The first node. -/
theorem Picked.first (sbp : SeekBkt) : ∃ mp, Mode.visit {} sbp = some mp ∧ Picked [sbp] mp := by
  obtain ⟨cells, hwrite, hlength, htake⟩ := Mode.write_eq sbp [none] Nat.zero_lt_one
  refine ⟨_, hwrite, ⟨cells, rfl, hlength, ?_⟩, ?_, ?_, ⟨sbp, List.mem_cons_self, rfl⟩⟩
  · rw [htake]
    simp
  · simp
  · intro b hb
    exact (List.mem_singleton.mp hb) ▸ le_refl _

/-- One node more: its count is the greatest so far, as great as that, or less. -/
theorem Picked.visit {bs : List SeekBkt} {mp : Mode} (h : Picked bs mp) (sbp : SeekBkt) :
    ∃ mp', mp.visit sbp = some mp' ∧ Picked (bs ++ [sbp]) mp' := by
  obtain ⟨cells, hmodes, hroom, htake⟩ := h.cells
  unfold Mode.visit
  rw [hmodes]
  dsimp only
  split_ifs with hmore hsame
  · -- the list starts again with this node
    have hpos : 0 < cells.length := by
      obtain ⟨b, hb, hbest⟩ := h.attained
      have hmem : b ∈ bs.filter (·.nseeks = mp.mostSeeks) := List.mem_filter.mpr ⟨hb, decide_eq_true hbest⟩
      exact (List.length_pos_of_mem hmem).trans_le (h.nmds ▸ hroom)
    obtain ⟨cells', hwrite, hlength, htake'⟩ := Mode.write_eq sbp cells hpos
    have hnone : bs.filter (·.nseeks = sbp.nseeks) = [] := by
      refine List.filter_eq_nil_iff.mpr fun b hb heq => ?_
      exact absurd (h.le b hb) (not_le.mpr ((of_decide_eq_true heq) ▸ hmore))
    have hfilter : (bs ++ [sbp]).filter (·.nseeks = sbp.nseeks) = [sbp] := by
      rw [List.filter_append, hnone]
      simp
    refine ⟨_, hwrite, ⟨cells', rfl, hlength, ?_⟩, ?_, ?_, ⟨sbp, List.mem_append_right _ List.mem_cons_self, rfl⟩⟩
    · rw [hfilter]
      exact htake'
    · rw [hfilter]
      rfl
    · intro b hb
      rcases List.mem_append.mp hb with hb | hb
      · exact (h.le b hb).trans hmore.le
      · exact (List.mem_singleton.mp hb) ▸ le_refl _
  · -- it is added to the list, for which there is one cell more
    have hroom' : mp.nmds < (realloc cells (mp.nmds + 1)).length := by
      rw [length_realloc]
      exact Nat.lt_succ_self _
    obtain ⟨cells', hwrite, hlength, htake'⟩ := Mode.write_eq sbp (realloc cells (mp.nmds + 1)) hroom'
    have hfilter : (bs ++ [sbp]).filter (·.nseeks = sbp.nseeks) =
        bs.filter (·.nseeks = mp.mostSeeks) ++ [sbp] := by
      rw [List.filter_append, hsame]
      simp [hsame]
    refine ⟨_, hwrite, ⟨cells', rfl, hlength, ?_⟩, ?_, ?_, ⟨sbp, List.mem_append_right _ List.mem_cons_self, rfl⟩⟩
    · rw [hfilter, List.map_append, ← htake, ← take_realloc hroom]
      exact htake'
    · rw [hfilter, List.length_append, ← h.nmds]
      rfl
    · intro b hb
      rcases List.mem_append.mp hb with hb | hb
      · exact hsame ▸ h.le b hb
      · exact (List.mem_singleton.mp hb) ▸ le_refl _
  · have hfilter : (bs ++ [sbp]).filter (·.nseeks = mp.mostSeeks) = bs.filter (·.nseeks = mp.mostSeeks) := by
      rw [List.filter_append]
      simp [hsame]
    obtain ⟨b, hb, hbest⟩ := h.attained
    refine ⟨mp, rfl, ⟨cells, hmodes, hroom, ?_⟩, ?_, ?_, ⟨b, List.mem_append_left _ hb, hbest⟩⟩
    · rw [hfilter]
      exact htake
    · rw [hfilter]
      exact h.nmds
    · intro b hb
      rcases List.mem_append.mp hb with hb | hb
      · exact h.le b hb
      · exact (List.mem_singleton.mp hb) ▸ not_lt.mp hmore

theorem mode_eq (root : RbTree SeekBkt) (mp : Mode) : mode root mp = root.postorder.foldlM Mode.visit mp := by
  induction root generalizing mp with
  | nil => rfl
  | node c left sbp right ihl ihr =>
    rw [mode, RbTree.postorder, List.foldlM_append, ← ihl]
    refine Option.bind_congr fun mp' _ => ?_
    rw [List.foldlM_append, ← ihr]
    refine Option.bind_congr fun mp'' _ => ?_
    simp

/-- Every node of the tree is looked at. -/
theorem picked_mode {root : RbTree SeekBkt} (hne : root ≠ .nil) :
    ∃ mp, mode root {} = some mp ∧ Picked root.postorder mp := by
  have hrun : ∀ bs : List SeekBkt, bs ≠ [] → ∃ mp, bs.foldlM Mode.visit {} = some mp ∧ Picked bs mp := by
    intro bs
    induction bs using List.reverseRecOn with
    | nil => exact fun h => absurd rfl h
    | append_singleton bs sbp ih =>
      intro _
      rw [List.foldlM_append]
      by_cases hbs : bs = []
      · obtain ⟨mp, hfirst, hpicked⟩ := Picked.first sbp
        rw [hbs]
        exact ⟨mp, by simpa using hfirst, hpicked⟩
      · obtain ⟨mp, hmp, hpicked⟩ := ih hbs
        obtain ⟨mp', hvisit, hpicked'⟩ := hpicked.visit sbp
        exact ⟨mp', by simp [hmp, hvisit], hpicked'⟩
  rw [mode_eq]
  refine hrun _ fun hnil => hne (RbTree.eq_nil_of_toList ?_)
  exact List.Perm.eq_nil (hnil ▸ root.postorder_perm.symm)

/-- **The modes**: the distances that occur most often, each once, in cells of the array. -/
theorem seekiMode_spec (bal : Balancer SeekBkt) (seekAbsolute : Bool) (iops : List Iop) (ds : List ℤ)
    (h : absDists seekAbsolute {} iops = some ds) (hne : ds ≠ []) :
    ∃ (sip : Seeki) (mp : Mode) (cells : List (Option ℤ)) (modes : List ℤ),
      seekiAdds bal seekAbsolute iops = some sip ∧ seekiMode sip = some mp ∧
      mp.modes = some cells ∧ cells.take mp.nmds = modes.map some ∧ mp.nmds = modes.length ∧
      AreModes ds modes ∧ ∀ d ∈ modes, mp.mostSeeks = ds.count d := by
  obtain ⟨sip, hrun, hbuckets, -⟩ := seekiAdds_spec bal h
  have hroot : sip.root ≠ .nil := by
    intro hnil
    obtain ⟨d, hd⟩ := List.exists_mem_of_ne_nil ds hne
    obtain ⟨sbp, hsbp, -⟩ := (hbuckets.mem d).mp hd
    rw [hnil] at hsbp
    nomatch hsbp
  obtain ⟨mp, hmode, hpicked⟩ := picked_mode hroot
  obtain ⟨cells, hmodes, -, htake⟩ := hpicked.cells
  have hperm := sip.root.postorder_perm
  have hnodup : (sip.root.postorder.map SeekBkt.sectors).Nodup := by
    rw [(hperm.map _).nodup_iff]
    exact (List.pairwise_map.mpr hbuckets.sorted).imp fun hlt => hlt.ne
  have hbest : ∀ sbp ∈ sip.root.toList,
      (sbp.nseeks = mp.mostSeeks ↔ ∀ d' ∈ ds, ds.count d' ≤ ds.count sbp.sectors) := by
    intro sbp hsbp
    rw [← hbuckets.count sbp hsbp]
    constructor
    · intro heq d' hd'
      obtain ⟨b, hb, rfl⟩ := (hbuckets.mem d').mp hd'
      rw [← hbuckets.count b hb, heq]
      exact hpicked.le b (hperm.mem_iff.mpr hb)
    · intro hall
      obtain ⟨b, hb, heq⟩ := hpicked.attained
      have hb := hperm.mem_iff.mp hb
      have hge := hall b.sectors ((hbuckets.mem _).mpr ⟨b, hb, rfl⟩)
      rw [← hbuckets.count b hb, heq] at hge
      exact le_antisymm (hpicked.le sbp (hperm.mem_iff.mpr hsbp)) hge
  refine ⟨sip, mp, cells, (sip.root.postorder.filter (·.nseeks = mp.mostSeeks)).map SeekBkt.sectors,
    hrun, hmode, hmodes, ?_, ?_, ⟨?_, fun d => ?_⟩, fun d hd => ?_⟩
  · rw [htake, List.map_map]
    rfl
  · rw [hpicked.nmds, List.length_map]
  · exact hnodup.sublist (List.filter_sublist.map _)
  · rw [List.mem_map]
    constructor
    · rintro ⟨sbp, hsbp, rfl⟩
      obtain ⟨hsbp, heq⟩ := List.mem_filter.mp hsbp
      have hsbp := hperm.mem_iff.mp hsbp
      exact ⟨(hbuckets.mem _).mpr ⟨sbp, hsbp, rfl⟩, (hbest sbp hsbp).mp (of_decide_eq_true heq)⟩
    · rintro ⟨hd, hall⟩
      obtain ⟨sbp, hsbp, rfl⟩ := (hbuckets.mem d).mp hd
      refine ⟨sbp, List.mem_filter.mpr ⟨hperm.mem_iff.mpr hsbp, ?_⟩, rfl⟩
      exact decide_eq_true ((hbest sbp hsbp).mpr hall)
  · obtain ⟨sbp, hsbp, rfl⟩ := List.mem_map.mp hd
    obtain ⟨hsbp, heq⟩ := List.mem_filter.mp hsbp
    exact (of_decide_eq_true heq).symm.trans (hbuckets.count sbp (hperm.mem_iff.mp hsbp))

theorem seekiMode_spec_spread :
    ∃ (sip : Seeki) (mp : Mode) (cells : List (Option ℤ)) (modes : List ℤ),
      seekiAdds (.plain SeekBkt) false spread = some sip ∧ seekiMode sip = some mp ∧
      mp.modes = some cells ∧ cells.take mp.nmds = modes.map some ∧ mp.nmds = modes.length ∧
      AreModes [8, 16, 24, 32] modes ∧ ∀ d ∈ modes, mp.mostSeeks = [8, 16, 24, 32].count d :=
  seekiMode_spec _ false spread _ (by decide) nofun

end Blktrace.Btt
