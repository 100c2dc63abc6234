import Blktrace.Lib.SearchTree
import Blktrace.Blkparse.PidNames
import Blktrace.Blkparse.Tracks

/-!
# The tree of tracks

`rb_track` of a device as the search tree that it is, with the memory of its nodes. A front merge takes a
node out, gives it the sector of the merged request and puts it back; where another node has that sector
already, it is put nowhere, and is lost.
-/

namespace Blktrace.Blkparse

open SearchTree

/-! ## The code -/

/-- `struct io_track`: which allocation it is, the key and the rest. -/
structure TrackNode where
  id : ℕ
  sector : UInt64
  iot : IoTrack
deriving DecidableEq

/-- `rb_track`, the tracks allocated and not freed, and the number of allocations. -/
structure TrackTree where
  rbTrack : RbTree TrackNode := .nil
  live : List ℕ := []
  mallocs : ℕ := 0

namespace TrackTree

/-- `__find_track`. -/
def find' (s : TrackTree) (sector : UInt64) : Option TrackNode := s.rbTrack.lookup TrackNode.sector sector

/-- A member of the track of a sector is set. -/
def store (s : TrackTree) (sector : UInt64) (f : IoTrack → IoTrack) : TrackTree :=
  { s with rbTrack := s.rbTrack.modify TrackNode.sector sector fun n => { n with iot := f n.iot } }

variable (bal : Balancer TrackNode) (o : Opts)

/-- `track_rb_insert`. -/
def rbInsert (s : TrackTree) (n : TrackNode) : TrackTree :=
  { s with rbTrack := bal.add TrackNode.sector n s.rbTrack }

/-- `rb_erase`. -/
def rbErase (s : TrackTree) (n : TrackNode) : TrackTree := { s with rbTrack := bal.erase n s.rbTrack }

/-- `find_track`. `mem` is what the memory holds that `malloc` returns. -/
def findTrack (mem : IoTrack) (s : TrackTree) (pid : UInt32) (sector : UInt64) : TrackTree :=
  match s.find' sector with
  | some _ => s
  | none => rbInsert bal { s with live := s.mallocs :: s.live, mallocs := s.mallocs + 1 }
      ⟨s.mallocs, sector, { mem with ppm := pid }⟩

/-- `log_track_frontmerge`. -/
def logTrackFrontmerge (s : TrackTree) (t : BlkIoTrace) : TrackTree :=
  if !o.trackIos then s
  else
    match s.find' (t.sector + t.tSec.toUInt64) with
    | none => s
    | some n => rbInsert bal (rbErase bal s n) { n with sector := n.sector - t.tSec.toUInt64 }

/-- `log_track_getrq`. -/
def logTrackGetrq (mem : IoTrack) (s : TrackTree) (t : BlkIoTrace) : TrackTree :=
  if !o.trackIos then s
  else (findTrack bal mem s t.pid t.sector).store t.sector fun iot => { iot with allocationTime := t.time }

/-- `log_track_queue`. -/
def logTrackQueue (mem : IoTrack) (s : TrackTree) (dev : UInt32) (t : BlkIoTrace) : TrackTree :=
  if !o.trackIos then s
  else if !Dumper.isRemapper dev then s
  else (findTrack bal mem s t.pid t.sector).store t.sector fun iot => { iot with dispatchTime := t.time }

/-- `log_track_insert`. -/
def logTrackInsert (mem : IoTrack) (s : TrackTree) (t : BlkIoTrace) : TrackTree :=
  if !o.trackIos then s
  else (findTrack bal mem s t.pid t.sector).store t.sector fun iot => { iot with queueTime := t.time }

/-- `log_track_issue`. -/
def logTrackIssue (s : TrackTree) (t : BlkIoTrace) : TrackTree :=
  if !o.trackIos then s
  else if !t.hasTc blkTcFs then s
  else
    match s.find' t.sector with
    | none => s
    | some _ => s.store t.sector fun iot => { iot with dispatchTime := t.time }

/-- `log_track_complete`, with the `free` at its end. -/
def logTrackComplete (s : TrackTree) (t : BlkIoTrace) : TrackTree :=
  if !o.trackIos then s
  else
    match s.find' t.sector with
    | none => s
    | some n => { rbErase bal s n with live := s.live.erase n.id }

/-- A record that `dump_trace` is given, with the `pdi->dev` and the memory there would be for a track. -/
structure Handed where
  dev : UInt32
  mem : IoTrack
  bit : BlkIoTrace

/-- What `dump_trace` does to the tracks. -/
def dumpTrace (s : TrackTree) (h : Handed) : TrackTree :=
  if h.bit.isMessage then s
  else if h.bit.hasTc blkTcPc then s
  else
    match BlkTa.ofAction h.bit.action with
    | some .queue => s.logTrackQueue bal o h.mem h.dev h.bit
    | some .insert => s.logTrackInsert bal o h.mem h.bit
    | some .frontmerge => s.logTrackFrontmerge bal o h.bit
    | some .getrq => s.logTrackGetrq bal o h.mem h.bit
    | some .issue => s.logTrackIssue o h.bit
    | some .complete => s.logTrackComplete bal o h.bit
    | _ => s

def run (hs : List Handed) : TrackTree := hs.foldl (dumpTrace bal o) {}

/-! ## What is kept -/

/-- The tree is in order, with one track for a sector, and its nodes are the tracks allocated and not
freed. -/
structure Conserved (s : TrackTree) : Prop where
  sorted : s.rbTrack.toList.Pairwise fun a b => a.sector < b.sector
  exact : s.live.Perm (s.rbTrack.toList.map TrackNode.id)

/-- The tree is in order, and what is allocated and not in it is `lost`. -/
structure Kept (s : TrackTree) (lost : List ℕ) : Prop where
  sorted : s.rbTrack.toList.Pairwise fun a b => a.sector < b.sector
  live : s.live.Perm (s.rbTrack.toList.map TrackNode.id ++ lost)

/-- A front merge takes a track to a sector that has one. -/
def Aliases (s : TrackTree) (h : Handed) : Prop :=
  o.trackIos = true ∧ h.bit.isMessage = false ∧ h.bit.hasTc blkTcPc = false ∧
    BlkTa.ofAction h.bit.action = some .frontmerge ∧ h.bit.tSec.toUInt64 ≠ 0 ∧
    s.find' (h.bit.sector + h.bit.tSec.toUInt64) ≠ none ∧ s.find' h.bit.sector ≠ none

variable {bal o} {s : TrackTree} {lost : List ℕ}

theorem Kept.store (h : s.Kept lost) (sector : UInt64) (f : IoTrack → IoTrack) :
    (s.store sector f).Kept lost := by
  have hids : (s.store sector f).rbTrack.toList.map TrackNode.id = s.rbTrack.toList.map TrackNode.id :=
    RbTree.map_modify (f := fun n : TrackNode => { n with iot := f n.iot }) (fun _ => rfl) sector s.rbTrack
  have hkeys : (s.store sector f).rbTrack.toList.map TrackNode.sector =
      s.rbTrack.toList.map TrackNode.sector :=
    RbTree.map_modify (f := fun n : TrackNode => { n with iot := f n.iot }) (fun _ => rfl) sector s.rbTrack
  refine ⟨?_, ?_⟩
  · have hsorted := List.pairwise_map.mpr h.sorted
    rw [← hkeys] at hsorted
    exact List.pairwise_map.mp hsorted
  · show s.live.Perm _
    rw [hids]
    exact h.live

theorem Kept.findTrack (h : s.Kept lost) (mem : IoTrack) (pid : UInt32) (sector : UInt64) :
    (findTrack bal mem s pid sector).Kept lost := by
  rw [TrackTree.findTrack]
  cases hfind : s.find' sector with
  | some n => exact h
  | none =>
    have hperm := bal.add_perm (b := ⟨s.mallocs, sector, { mem with ppm := pid }⟩) h.sorted hfind
    refine ⟨(bal.add_spec h.sorted).1, ?_⟩
    show (s.mallocs :: s.live).Perm _
    refine (h.live.cons s.mallocs).trans ?_
    exact ((hperm.map TrackNode.id).append_right lost).symm

theorem mem_of_find' (h : s.Kept lost) {sector : UInt64} {n : TrackNode} (hfind : s.find' sector = some n) :
    n ∈ s.rbTrack.toList ∧ n.sector = sector := (RbTree.lookup_eq_some h.sorted).mp hfind

/-- A node taken out. -/
theorem Kept.erase (h : s.Kept lost) {n : TrackNode} (hn : n ∈ s.rbTrack.toList) :
    (rbErase bal s n).Kept (n.id :: lost) := by
  obtain ⟨hsorted, -⟩ := bal.erase_spec h.sorted hn
  refine ⟨hsorted, h.live.trans ?_⟩
  have hlist := bal.toList_erase n s.rbTrack (RbTree.nodup_of_sorted h.sorted)
  have hperm := (List.perm_cons_erase hn).map TrackNode.id
  rw [← hlist] at hperm
  refine (hperm.append_right lost).trans ?_
  exact List.perm_middle.symm

theorem Kept.complete (h : s.Kept lost) (t : BlkIoTrace) : (s.logTrackComplete bal o t).Kept lost := by
  rw [TrackTree.logTrackComplete]
  split_ifs
  · exact h
  · cases hfind : s.find' t.sector with
    | none => exact h
    | some n =>
      have herase : (rbErase bal s n).Kept (n.id :: lost) := h.erase (mem_of_find' h hfind).1
      refine ⟨herase.sorted, ?_⟩
      have hperm := (herase.live.trans List.perm_middle).erase n.id
      rwa [List.erase_cons_head] at hperm

/-- The node that a front merge takes out goes back, unless its new sector is another's. -/
theorem Kept.frontmerge (h : s.Kept lost) (t : BlkIoTrace)
    (hfree : t.tSec.toUInt64 ≠ 0 → s.find' (t.sector + t.tSec.toUInt64) ≠ none → s.find' t.sector = none) :
    (s.logTrackFrontmerge bal o t).Kept lost := by
  rw [TrackTree.logTrackFrontmerge]
  split_ifs
  · exact h
  · cases hfind : s.find' (t.sector + t.tSec.toUInt64) with
    | none => exact h
    | some n =>
      obtain ⟨hn, hsector⟩ := mem_of_find' h hfind
      have herase : (rbErase bal s n).Kept (n.id :: lost) := h.erase hn
      have hkey : n.sector - t.tSec.toUInt64 = t.sector := by rw [hsector, UInt64.add_sub_cancel]
      have hnone : (rbErase bal s n).find' (n.sector - t.tSec.toUInt64) = none := by
        show (bal.erase n s.rbTrack).lookup _ _ = none
        rw [(bal.erase_spec h.sorted hn).2, hkey]
        split_ifs with hsame
        · rfl
        · refine hfree ?_ (by rw [hfind]; exact nofun)
          intro hzero
          rw [hsector, hzero, UInt64.add_zero] at hsame
          exact hsame rfl
      have hperm := bal.add_perm (b := { n with sector := n.sector - t.tSec.toUInt64 }) herase.sorted hnone
      refine ⟨(bal.add_spec herase.sorted).1, ?_⟩
      refine herase.live.trans (List.perm_middle.trans ?_)
      exact ((hperm.map TrackNode.id).append_right lost).symm

/-- Else it is lost. -/
theorem Kept.frontmerge_lost (h : s.Kept lost) (ho : o.trackIos = true) (t : BlkIoTrace)
    (hsec : t.tSec.toUInt64 ≠ 0) (hfound : s.find' (t.sector + t.tSec.toUInt64) ≠ none)
    (htaken : s.find' t.sector ≠ none) : ∃ id, (s.logTrackFrontmerge bal o t).Kept (id :: lost) := by
  obtain ⟨n, hfind⟩ := Option.ne_none_iff_exists'.mp hfound
  obtain ⟨hn, hsector⟩ := mem_of_find' h hfind
  have herase : (rbErase bal s n).Kept (n.id :: lost) := h.erase hn
  have hkey : n.sector - t.tSec.toUInt64 = t.sector := by rw [hsector, UInt64.add_sub_cancel]
  have htaken' : (rbErase bal s n).find' (n.sector - t.tSec.toUInt64) ≠ none := by
    show (bal.erase n s.rbTrack).lookup _ _ ≠ none
    rw [(bal.erase_spec h.sorted hn).2, hkey, hsector, if_neg]
    · exact htaken
    · intro hsame
      exact hsec (by simpa using hsame)
  refine ⟨n.id, ?_⟩
  rw [TrackTree.logTrackFrontmerge, ho, hfind]
  have hadd := bal.add_taken (b := { n with sector := n.sector - t.tSec.toUInt64 }) herase.sorted htaken'
  simpa [rbInsert, hadd] using herase

theorem kept_nil : s.Kept [] ↔ s.Conserved := by
  constructor
  · intro h
    exact ⟨h.sorted, by simpa using h.live⟩
  · intro h
    exact ⟨h.sorted, by simpa using h.exact⟩

/-- A node that is lost is one too many. -/
theorem Kept.not_conserved {id : ℕ} (h : s.Kept (id :: lost)) : ¬ s.Conserved := by
  intro hcons
  have hlength := (hcons.exact.symm.trans h.live).length_eq
  simp at hlength

/-- What a record does when it is no such front merge. -/
theorem Kept.dumpTrace (h : s.Kept lost) (hd : Handed) (hno : ¬ s.Aliases o hd) :
    (s.dumpTrace bal o hd).Kept lost := by
  unfold TrackTree.dumpTrace
  split_ifs with hmessage hpc
  · exact h
  · exact h
  · split
    · rw [logTrackQueue]
      split_ifs
      · exact h
      · exact h
      · exact (h.findTrack hd.mem hd.bit.pid hd.bit.sector).store hd.bit.sector _
    · rw [logTrackInsert]
      split_ifs
      · exact h
      · exact (h.findTrack hd.mem hd.bit.pid hd.bit.sector).store hd.bit.sector _
    · rename_i hact
      by_cases ho : o.trackIos = true
      · apply h.frontmerge
        intro hsec hfound
        by_contra htaken
        exact hno ⟨ho, by simpa using hmessage, by simpa using hpc, hact, hsec, hfound, htaken⟩
      · rw [logTrackFrontmerge, if_pos (by simpa using ho)]
        exact h
    · rw [logTrackGetrq]
      split_ifs
      · exact h
      · exact (h.findTrack hd.mem hd.bit.pid hd.bit.sector).store hd.bit.sector _
    · rw [logTrackIssue]
      split_ifs
      · exact h
      · exact h
      · split
        · exact h
        · exact h.store hd.bit.sector _
    · exact h.complete hd.bit
    · exact h

theorem Kept.aliases (h : s.Kept lost) {hd : Handed} (hal : s.Aliases o hd) :
    ∃ id, (s.dumpTrace bal o hd).Kept (id :: lost) := by
  obtain ⟨ho, hmessage, hpc, hact, hsec, hfound, htaken⟩ := hal
  have hstep : s.dumpTrace bal o hd = s.logTrackFrontmerge bal o hd.bit := by
    simp [TrackTree.dumpTrace, hmessage, hpc, hact]
  rw [hstep]
  exact h.frontmerge_lost ho hd.bit hsec hfound htaken

variable (bal o)

theorem run_append_one (hs : List Handed) (hd : Handed) :
    run bal o (hs ++ [hd]) = (run bal o hs).dumpTrace bal o hd := by
  simp [run]

/-- The tree is always in order; some tracks may be in it no more. -/
theorem run_kept (hs : List Handed) : ∃ lost, (run bal o hs).Kept lost := by
  induction hs using List.reverseRecOn with
  | nil => exact ⟨[], .nil, .nil⟩
  | append_singleton hs hd ih =>
    obtain ⟨lost, h⟩ := ih
    rw [run_append_one]
    by_cases hal : (run bal o hs).Aliases o hd
    · obtain ⟨id, h'⟩ := h.aliases hal
      exact ⟨id :: lost, h'⟩
    · exact ⟨lost, h.dumpTrace hd hal⟩

/-- **The tracks allocated and not freed are the nodes of the tree** at all times, just if no front merge
takes a track to the sector of another. -/
theorem conserved_iff (hs : List Handed) :
    (∀ pre, pre <+: hs → (run bal o pre).Conserved) ↔
      ∀ pre hd, pre ++ [hd] <+: hs → ¬ (run bal o pre).Aliases o hd := by
  constructor
  · intro h pre hd hpre hal
    have hbefore := kept_nil.mpr (h pre ((List.prefix_append pre [hd]).trans hpre))
    obtain ⟨id, hafter⟩ : ∃ id, ((run bal o pre).dumpTrace bal o hd).Kept [id] := hbefore.aliases hal
    rw [← run_append_one] at hafter
    exact hafter.not_conserved (h _ hpre)
  · intro h pre hpre
    rw [← kept_nil]
    induction pre using List.reverseRecOn with
    | nil => exact ⟨.nil, .nil⟩
    | append_singleton pre hd ih =>
      rw [run_append_one]
      exact (ih ((List.prefix_append pre [hd]).trans hpre)).dumpTrace hd (h pre hd hpre)

/-- Two requests begin, at sectors 0 and 8, and a front merge of 8 sectors takes the second to sector 0. -/
def aliasing : List Handed :=
  let bit (action : UInt32) (sector : UInt64) : BlkIoTrace :=
    { magic := 0x65617407, sequence := 1, time := 1, sector, bytes := 4096, action, pid := 1, device := 0,
      cpu := 0, error := 0, pduLen := 0, pdu := [] }
  [bit 0x10004 0, bit 0x10004 8, bit 0x10003 0].map (⟨0, ⟨0, 0, 0, 0, 0⟩, ·⟩)

/-- Then two tracks are allocated, and the tree has one. -/
theorem not_conserved : ¬ (run (.plain TrackNode) { trackIos := true } aliasing).Conserved := by
  intro h
  have hlength := h.exact.length_eq
  rw [List.length_map] at hlength
  revert hlength
  decide

/-! ## The map from sectors to tracks -/

/-- The tree represents the `rb_track` of a device. -/
def Shows (s : TrackTree) (d : Dumper) (pdi : ℕ) : Prop :=
  ∀ sector, (s.find' sector).map TrackNode.iot = (d.devs pdi).rbTrack sector

variable {bal o} {s : TrackTree} {lost : List ℕ} {d d' : Dumper} {pdi : ℕ} {malloc : ℕ → IoTrack}

theorem Shows.congr (h : s.Shows d pdi) (heq : (d'.devs pdi).rbTrack = (d.devs pdi).rbTrack) :
    s.Shows d' pdi := by
  intro sector
  rw [heq]
  exact h sector

theorem Shows.store (h : s.Shows d pdi) {sector : UInt64} {iot : IoTrack} {f : IoTrack → IoTrack}
    (hiot : (d.devs pdi).rbTrack sector = some iot) :
    (s.store sector f).Shows (d.setTrack pdi sector (f iot)) pdi := by
  intro k
  have hfind : (s.store sector f).find' k =
      if k = sector then (s.find' sector).map fun n => { n with iot := f n.iot } else s.find' k :=
    RbTree.lookup_modify (f := fun n : TrackNode => { n with iot := f n.iot }) (fun _ => rfl) sector k
      s.rbTrack
  have hold := h sector
  rw [hfind]
  split_ifs with hk
  · subst hk
    rw [hiot] at hold
    obtain ⟨n, hn, rfl⟩ := Option.map_eq_some_iff.mp hold
    simp [hn, Dumper.setTrack]
  · simpa [Dumper.setTrack, Function.update_of_ne hk] using h k

theorem Shows.insert (hsorted : s.rbTrack.toList.Pairwise fun a b => a.sector < b.sector)
    (h : s.Shows d pdi) (n : TrackNode) :
    (rbInsert bal s n).Shows (d.modifyDev pdi fun dev =>
      { dev with rbTrack := Dumper.trackRbInsert dev.rbTrack n.sector n.iot }) pdi := by
  intro k
  have hfind : (rbInsert bal s n).find' k =
      if k = n.sector then some ((s.find' k).getD n) else s.find' k := (bal.add_spec hsorted).2 k
  have hold := h n.sector
  rw [hfind, Dumper.modifyDev_self, Dumper.trackRbInsert, ← hold]
  cases hn : s.find' n.sector with
  | none =>
    split_ifs with hk
    · subst hk
      simp [hn]
    · simpa [Function.update_of_ne hk] using h k
  | some m =>
    split_ifs with hk
    · subst hk
      simp [← hold, hn]
    · exact h k

theorem Shows.erase (hs : s.Kept lost) (h : s.Shows d pdi) {n : TrackNode} (hn : n ∈ s.rbTrack.toList) :
    (rbErase bal s n).Shows (d.eraseTrack pdi n.sector) pdi := by
  intro k
  have hfind : (rbErase bal s n).find' k = if k = n.sector then none else s.find' k :=
    (bal.erase_spec hs.sorted hn).2 k
  rw [hfind]
  split_ifs with hk
  · subst hk
    simp [Dumper.eraseTrack]
  · simpa [Dumper.eraseTrack, Function.update_of_ne hk] using h k

theorem Shows.findTrack (hs : s.Kept lost) (h : s.Shows d pdi) (pid : UInt32) (sector : UInt64) :
    (findTrack bal (malloc d.mallocs) s pid sector).Shows (d.findTrack malloc pdi pid sector).1 pdi ∧
      (((d.findTrack malloc pdi pid sector).1.devs pdi).rbTrack sector =
        some (d.findTrack malloc pdi pid sector).2) := by
  have hold := h sector
  rw [TrackTree.findTrack, Dumper.findTrack, Dumper.findTrack', ← hold]
  cases hn : s.find' sector with
  | some n =>
    rw [hn] at hold
    exact ⟨h, hold.symm⟩
  | none =>
    rw [hn] at hold
    dsimp only [Option.map_none]
    rw [Procs.ppmOf_pid]
    constructor
    · exact Shows.insert (s := { s with live := s.mallocs :: s.live, mallocs := s.mallocs + 1 })
        hs.sorted h ⟨s.mallocs, sector, { malloc d.mallocs with ppm := pid }⟩
    · simp [Dumper.trackRbInsert, ← hold]

/-- `find_track` and a change of the track it returns. -/
theorem Shows.record (hs : s.Kept lost) (h : s.Shows d pdi) (pid : UInt32) (sector : UInt64)
    (f : IoTrack → IoTrack) :
    ((TrackTree.findTrack bal (malloc d.mallocs) s pid sector).store sector f).Shows
      ((d.findTrack malloc pdi pid sector).1.setTrack pdi sector (f (d.findTrack malloc pdi pid sector).2))
      pdi := by
  obtain ⟨hfound, hiot⟩ := h.findTrack hs pid sector
  exact hfound.store hiot

theorem Shows.queue (hs : s.Kept lost) (h : s.Shows d pdi) (dev : UInt32) (t : BlkIoTrace) :
    (s.logTrackQueue bal o (malloc d.mallocs) dev t).Shows (d.logTrackQueue o malloc pdi t dev) pdi := by
  rw [TrackTree.logTrackQueue, Dumper.logTrackQueue]
  split_ifs
  · exact h
  · exact h
  · exact h.record hs t.pid t.sector _

theorem Shows.getrq (hs : s.Kept lost) (h : s.Shows d pdi) (t : BlkIoTrace) :
    (s.logTrackGetrq bal o (malloc d.mallocs) t).Shows (d.logTrackGetrq o malloc pdi t) pdi := by
  rw [TrackTree.logTrackGetrq, Dumper.logTrackGetrq]
  split_ifs
  · exact h
  · exact h.record hs t.pid t.sector _

theorem Shows.inserted (hs : s.Kept lost) (h : s.Shows d pdi) (t : BlkIoTrace) :
    (s.logTrackInsert bal o (malloc d.mallocs) t).Shows (d.logTrackInsert o malloc pdi t).1 pdi := by
  rw [TrackTree.logTrackInsert, Dumper.logTrackInsert]
  split_ifs
  · exact h
  · dsimp only
    split_ifs
    · exact h.record hs t.pid t.sector _
    · exact (h.record hs t.pid t.sector fun iot => { iot with queueTime := t.time }).congr (by simp)

theorem Shows.issue (h : s.Shows d pdi) (t : BlkIoTrace) :
    (s.logTrackIssue o t).Shows (d.logTrackIssue o pdi t).1 pdi := by
  have hold := h t.sector
  rw [TrackTree.logTrackIssue, Dumper.logTrackIssue, Dumper.findTrack', ← hold]
  split_ifs
  · exact h
  · exact h
  · cases hn : s.find' t.sector with
    | none => exact h
    | some n =>
      rw [hn] at hold
      have hstore := h.store (f := fun iot => { iot with dispatchTime := t.time }) hold.symm
      exact hstore.congr (by simp)

theorem Shows.complete (hs : s.Kept lost) (h : s.Shows d pdi) (t : BlkIoTrace) :
    (s.logTrackComplete bal o t).Shows (d.logTrackComplete o pdi t).1 pdi := by
  rw [TrackTree.logTrackComplete, Dumper.logTrackComplete, Dumper.findTrack', ← h t.sector]
  split_ifs
  · exact h
  · cases hn : s.find' t.sector with
    | none => exact h
    | some n =>
      obtain ⟨hmem, hsector⟩ := mem_of_find' hs hn
      have herase : (rbErase bal s n).Shows (d.eraseTrack pdi n.sector) pdi := h.erase hs hmem
      rw [hsector] at herase
      exact herase.congr (by simp [Dumper.eraseTrack])

theorem Shows.frontmerge (hs : s.Kept lost) (h : s.Shows d pdi) (t : BlkIoTrace) :
    (s.logTrackFrontmerge bal o t).Shows (d.logTrackFrontmerge o pdi t) pdi := by
  rw [TrackTree.logTrackFrontmerge, Dumper.logTrackFrontmerge, Dumper.findTrack',
    ← h (t.sector + t.tSec.toUInt64)]
  split_ifs
  · exact h
  · cases hn : s.find' (t.sector + t.tSec.toUInt64) with
    | none => exact h
    | some n =>
      obtain ⟨hmem, hsector⟩ := mem_of_find' hs hn
      have hsorted : (rbErase bal s n).Kept (n.id :: lost) := hs.erase hmem
      have herase : (rbErase bal s n).Shows (d.eraseTrack pdi n.sector) pdi := h.erase hs hmem
      dsimp only [Option.map_some]
      rw [← hsector]
      exact herase.insert hsorted.sorted { n with sector := n.sector - t.tSec.toUInt64 }

/-- **A record**: the tree goes on representing the map. -/
theorem Shows.dumpTrace (hs : s.Kept lost) (h : s.Shows d pdi) (dev cpu : UInt32) (t : BlkIoTrace) :
    (s.dumpTrace bal o ⟨dev, malloc d.mallocs, t⟩).Shows (d.dumpTrace o malloc pdi dev cpu t) pdi := by
  suffices htext : (s.dumpTrace bal o ⟨dev, malloc d.mallocs, t⟩).Shows
      (d.dumpText o malloc pdi dev cpu t) pdi from htext.congr (by simp [Dumper.dumpTrace])
  unfold TrackTree.dumpTrace Dumper.dumpText
  split_ifs
  · exact h
  · unfold Dumper.dumpTracePc
    refine h.congr ?_
    split <;> simp [Dumper.accountPcQueue, Dumper.accountPcRequeue, Dumper.accountPcIssue, Dumper.accountPcC]
  · unfold Dumper.dumpTraceFs
    cases BlkTa.ofAction t.action with
    | none => exact h
    | some ta =>
      cases ta
      case queue => exact (h.queue hs dev t).congr (by simp [Dumper.accountQueue])
      case getrq => exact (h.getrq hs t).congr rfl
      case insert => exact (h.inserted hs t).congr rfl
      case issue =>
        have h' : s.Shows ((d.accountIssue o pdi cpu t (t.hasTc blkTcWrite)).depthUp pdi
            (t.hasTc blkTcWrite)) pdi := h.congr (by simp [Dumper.accountIssue])
        exact (h'.issue t).congr rfl
      case complete =>
        have h' : s.Shows ((d.depthDown pdi (t.hasTc blkTcWrite)).accountC o pdi cpu t
            (t.hasTc blkTcWrite) t.bytes.toInt32) pdi := h.congr (by simp [Dumper.accountC])
        exact (h'.complete hs t).congr rfl
      case frontmerge =>
        have h' : s.Shows (d.accountM o pdi cpu t (t.hasTc blkTcWrite)) pdi :=
          h.congr (by simp [Dumper.accountM])
        exact (h'.frontmerge hs t).congr (by simp [Dumper.logMerge])
      all_goals
        refine h.congr ?_
        simp [Dumper.accountM, Dumper.logMerge, Dumper.accountRequeue, Dumper.accountUnplug]

end TrackTree

namespace Dumper

/-! ## The other devices -/

section Elsewhere

variable {o : Opts} {malloc : ℕ → IoTrack} {d : Dumper} {pdi q : ℕ} {t : BlkIoTrace} (hne : q ≠ pdi)

include hne

@[simp] theorem modifyDev_devs_of_ne (f : DevStats → DevStats) : (d.modifyDev pdi f).devs q = d.devs q :=
  Function.update_of_ne hne _ _

theorem depthDown_devs_of_ne (w : Bool) : (d.depthDown pdi w).devs q = d.devs q := by
  unfold depthDown
  split_ifs <;> simp [hne]

theorem findTrack_devs_of_ne (pid : UInt32) (sector : UInt64) :
    (d.findTrack malloc pdi pid sector).1.devs q = d.devs q := by
  unfold findTrack
  split <;> simp [hne]

theorem logTrackFrontmerge_devs_of_ne : (d.logTrackFrontmerge o pdi t).devs q = d.devs q := by
  unfold logTrackFrontmerge
  split_ifs
  · rfl
  · split <;> simp [eraseTrack, hne]

theorem logTrackGetrq_devs_of_ne : (d.logTrackGetrq o malloc pdi t).devs q = d.devs q := by
  unfold logTrackGetrq
  split_ifs <;> simp [setTrack, findTrack_devs_of_ne, hne]

theorem logTrackQueue_devs_of_ne (dev : UInt32) : (d.logTrackQueue o malloc pdi t dev).devs q = d.devs q := by
  unfold logTrackQueue
  split_ifs <;> simp [setTrack, findTrack_devs_of_ne, hne]

theorem logTrackInsert_devs_of_ne : (d.logTrackInsert o malloc pdi t).1.devs q = d.devs q := by
  unfold logTrackInsert
  split_ifs
  · rfl
  · dsimp only
    split_ifs <;> simp [setTrack, findTrack_devs_of_ne, hne]

theorem logTrackIssue_devs_of_ne : (d.logTrackIssue o pdi t).1.devs q = d.devs q := by
  unfold logTrackIssue
  split_ifs
  · rfl
  · rfl
  · split <;> simp [setTrack, hne]

theorem logTrackComplete_devs_of_ne : (d.logTrackComplete o pdi t).1.devs q = d.devs q := by
  unfold logTrackComplete
  split_ifs
  · rfl
  · split <;> simp [eraseTrack, hne]

/-- **A record** of another device leaves a device alone. -/
theorem dumpTrace_devs_of_ne (dev cpu : UInt32) : (d.dumpTrace o malloc pdi dev cpu t).devs q = d.devs q := by
  have haccount : ∀ (d : Dumper) f, (d.account o pdi cpu t f).devs q = d.devs q := fun d f => by
    rw [account_devs]
  rw [dumpTrace, modifyDev_devs_of_ne hne]
  unfold dumpText
  split_ifs
  · rfl
  · unfold dumpTracePc
    split <;> simp [accountPcQueue, accountPcRequeue, accountPcIssue, accountPcC, depthUp,
      depthDown_devs_of_ne, hne]
  · unfold dumpTraceFs
    split <;> simp [accountQueue, accountM, accountRequeue, accountIssue, accountC, accountUnplug, depthUp,
      logMerge, depthDown_devs_of_ne, logTrackQueue_devs_of_ne, logTrackInsert_devs_of_ne,
      logTrackFrontmerge_devs_of_ne, logTrackGetrq_devs_of_ne, logTrackIssue_devs_of_ne,
      logTrackComplete_devs_of_ne, hne]

end Elsewhere

end Dumper

namespace TrackTree

/-! ## Runs -/

variable {bal : Balancer TrackNode} {o : Opts} {s : TrackTree} {lost : List ℕ} {d : Dumper} {pdi : ℕ}
  {malloc : ℕ → IoTrack}

/-- The records of a device that `dump_trace` is given in a run. -/
def handed (o : Opts) (malloc : ℕ → IoTrack) (pdi : ℕ) (d : Dumper) : List Event → List Handed
  | [] => []
  | .notify native bit :: events => handed o malloc pdi (d.event o malloc (.notify native bit)) events
  | .dump p dev cpu t :: events =>
    (if p = pdi then [⟨dev, malloc d.mallocs, t⟩] else []) ++
      handed o malloc pdi (d.event o malloc (.dump p dev cpu t)) events

/-- **A run**: the map from sectors to tracks of a device is its tree. -/
theorem Shows.run (hs : s.Kept lost) (h : s.Shows d pdi) (events : List Event) :
    ((handed o malloc pdi d events).foldl (TrackTree.dumpTrace bal o) s).Shows (d.run o malloc events) pdi := by
  induction events generalizing s lost d with
  | nil => exact h
  | cons e events ih =>
    cases e with
    | notify native bit => exact ih hs (h.congr rfl)
    | dump p dev cpu t =>
      rw [handed, List.foldl_append]
      split_ifs with hp
      · subst hp
        have hstep : (s.dumpTrace bal o ⟨dev, malloc d.mallocs, t⟩).Shows
            (d.dumpTrace o malloc p dev cpu t) p := h.dumpTrace hs dev cpu t
        by_cases hal : s.Aliases o ⟨dev, malloc d.mallocs, t⟩
        · obtain ⟨id, hs'⟩ : ∃ id, (s.dumpTrace bal o ⟨dev, malloc d.mallocs, t⟩).Kept (id :: lost) :=
            hs.aliases hal
          exact ih hs' hstep
        · exact ih (hs.dumpTrace _ hal) hstep
      · refine ih hs (h.congr ?_)
        show ((d.dumpTrace o malloc p dev cpu t).devs pdi).rbTrack = _
        rw [Dumper.dumpTrace_devs_of_ne (Ne.symm hp)]

theorem run_shows (events : List Event) :
    (TrackTree.run bal o (handed o malloc pdi {} events)).Shows (Dumper.run o malloc {} events) pdi := by
  have hempty : TrackTree.Kept {} [] := ⟨.nil, .nil⟩
  exact Shows.run hempty (fun _ => rfl) events

end TrackTree

end Blktrace.Blkparse
