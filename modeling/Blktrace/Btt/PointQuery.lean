import Blktrace.Btt.Devs

/-!
# `btt`: the IO that a sector belongs to

`rb_find_sec` looks for a sector in a tree that is ordered by the first sectors only. Where an IO ends
before an earlier one does, the search goes past the earlier one and may end without an IO.
-/

namespace Blktrace.Btt

open SearchTree

variable (bal : Balancer Iop)

/-- The sector is one of the extent of the IO. -/
def Iop.Spans (iop : Iop) (sec : UInt64) : Prop := iop.bitStart ≤ sec ∧ sec < iop.bitEnd

instance (iop : Iop) (sec : UInt64) : Decidable (iop.Spans sec) := by
  unfold Iop.Spans
  infer_instance

/-- The tree of one IO after the other; one that `rb_insert` turns down is not in it. -/
def inserted (iops : List Iop) : RbTree Iop :=
  iops.foldl (fun root iop => (rbInsert bal root iop).getD root) .nil

/-- `rb_find_sec` is right about every sector. -/
def FindsSec (root : RbTree Iop) : Prop :=
  ∀ sec, match rbFindSec root sec with
    | some iop => iop ∈ root.toList ∧ iop.Spans sec
    | none => ∀ iop ∈ root.toList, ¬ iop.Spans sec

/-- A sector of any IO is one of an IO that is not to the left of another that has ended by then. -/
def Unhidden (root : RbTree Iop) : Prop :=
  ∀ sec, ∀ iop ∈ root.toList, iop.Spans sec →
    ∃ seen ∈ root.toList, seen.Spans sec ∧ ¬ root.Hidden Iop.bitStart Iop.bitEnd sec seen

/-! ## The tree -/

theorem rbInsert_sorted {root root' : RbTree Iop} {iop : Iop}
    (hsorted : root.toList.Pairwise fun a b => a.bitStart < b.bitStart)
    (h : rbInsert bal root iop = some root') :
    (root'.toList.Pairwise fun a b => a.bitStart < b.bitStart) ∧
      ∀ a, a ∈ root'.toList ↔ a = iop ∨ a ∈ root.toList := by
  obtain ⟨t, ht, rfl⟩ := Option.map_eq_some_iff.mp h
  obtain ⟨hsorted', hmem, -⟩ := RbTree.link_spec hsorted ht
  rw [bal.toList_insertColor]
  exact ⟨hsorted', hmem⟩

/-- The tree is in order, and holds no other IOs. -/
theorem inserted_spec (iops : List Iop) :
    ((inserted bal iops).toList.Pairwise fun a b => a.bitStart < b.bitStart) ∧
      ∀ iop ∈ (inserted bal iops).toList, iop ∈ iops := by
  induction iops using List.reverseRecOn with
  | nil => exact ⟨.nil, nofun⟩
  | append_singleton iops iop ih =>
    have hstep : inserted bal (iops ++ [iop]) =
        (rbInsert bal (inserted bal iops) iop).getD (inserted bal iops) := by
      rw [inserted, List.foldl_append]
      rfl
    rw [hstep]
    cases hroot : rbInsert bal (inserted bal iops) iop with
    | none => exact ⟨ih.1, fun a ha => List.mem_append_left _ (ih.2 a ha)⟩
    | some root =>
      obtain ⟨hsorted, hmem⟩ := rbInsert_sorted bal ih.1 hroot
      refine ⟨hsorted, fun a ha => ?_⟩
      rcases (hmem a).mp ha with rfl | ha
      · exact List.mem_append_right _ List.mem_cons_self
      · exact List.mem_append_left _ (ih.2 a ha)

/-- An IO whose first sector is not that of another is inserted. -/
theorem mem_inserted {iops : List Iop} (h : (iops.map Iop.bitStart).Nodup) {iop : Iop} :
    iop ∈ (inserted bal iops).toList ↔ iop ∈ iops := by
  induction iops using List.reverseRecOn with
  | nil => rfl
  | append_singleton iops last ih =>
    rw [List.map_append, List.nodup_append] at h
    have hfresh : ∀ a ∈ (inserted bal iops).toList, a.bitStart ≠ last.bitStart := fun a ha =>
      h.2.2 _ (List.mem_map_of_mem ((inserted_spec bal iops).2 a ha)) _ List.mem_cons_self
    obtain ⟨t, ht⟩ := Option.isSome_iff_exists.mp (RbTree.link_isSome hfresh)
    have hroot : rbInsert bal (inserted bal iops) last = some (bal.insertColor last t) := by
      rw [rbInsert, ht]
      rfl
    have hstep : inserted bal (iops ++ [last]) = bal.insertColor last t := by
      rw [inserted, List.foldl_append]
      show (rbInsert bal (inserted bal iops) last).getD _ = _
      rw [hroot, Option.getD_some]
    rw [hstep, (rbInsert_sorted bal (inserted_spec bal iops).1 hroot).2, ih h.1, List.mem_append,
      List.mem_singleton]
    exact or_comm

/-! ## The search -/

/-- **The point query is complete** just if no sector is hidden from it. -/
theorem finds_iff (iops : List Iop) : FindsSec (inserted bal iops) ↔ Unhidden (inserted bal iops) := by
  have hsorted := (inserted_spec bal iops).1
  refine forall_congr' fun sec => ?_
  have hsome := @RbTree.find_isSome_iff _ _ _ _ Iop.bitEnd _ hsorted sec
  cases hfind : rbFindSec (inserted bal iops) sec with
  | some iop =>
    rw [rbFindSec] at hfind
    rw [hfind] at hsome
    exact iff_of_true (RbTree.mem_of_find hfind) fun _ _ _ => hsome.mp rfl
  | none =>
    rw [rbFindSec] at hfind
    rw [hfind] at hsome
    have hhidden := fun h => Bool.false_ne_true (hsome.mpr h)
    constructor
    · intro hnone iop hmem hspans
      exact absurd hspans (hnone iop hmem)
    · intro hseen iop hmem hspans
      exact hhidden (hseen iop hmem hspans)

/-- IOs none of which ends before an earlier one: whatever the tree looks like, nothing is hidden. -/
theorem unhidden_of_ends {iops : List Iop}
    (h : ∀ a ∈ iops, ∀ b ∈ iops, a.bitStart < b.bitStart → a.bitEnd ≤ b.bitEnd) :
    Unhidden (inserted bal iops) := by
  obtain ⟨hsorted, hmem⟩ := inserted_spec bal iops
  intro sec iop hiop hspans
  refine ⟨iop, hiop, hspans, fun hhidden => ?_⟩
  obtain ⟨b, hb, hlt, hend⟩ := hhidden.exists_past hsorted
  have hle := h iop (hmem iop hiop) b (hmem b hb) hlt
  exact absurd (hspans.2.trans_le (hle.trans hend)) (lt_irrefl _)

/-- A queued read. -/
def queuedRead (id : ℕ) (sector : UInt64) (bytes : UInt32) : Iop where
  id := id
  t :=
    { magic := 0x65617407, sequence := 0, time := 0, sector := sector, bytes := bytes,
      action := 0x00110001, pid := 0, device := 1, cpu := 0, error := 0, pduLen := 0, pdu := [] }

/-- No balancing; two IOs need none. -/
def noBalancer : Balancer Iop where
  insertColor _ t := t
  erase a t := (t.toList.erase a).foldr (fun b t => .node false .nil b t) .nil
  toList_insertColor _ _ := rfl
  toList_erase := RbTree.toList_rebuild

/-- Four sectors from 4 on, and then sixteen from 0 on: sector 8 is not found. -/
theorem not_finds : ¬ FindsSec (inserted noBalancer [queuedRead 1 4 2048, queuedRead 2 0 8192]) := by
  intro h
  have hnone : rbFindSec (inserted noBalancer [queuedRead 1 4 2048, queuedRead 2 0 8192]) 8 = none := by
    decide
  have hsec := h 8
  rw [hnone] at hsec
  exact hsec (queuedRead 2 0 8192) ((mem_inserted noBalancer (by decide)).mpr (by simp))
    (by decide)

end Blktrace.Btt
