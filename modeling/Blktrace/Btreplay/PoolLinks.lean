import Blktrace.Btreplay.PoolInv
import Blktrace.Lists.Loops

/-!
# `btreplay.c`: the lists of the pool in memory

The free iocbs and the used ones are two lists of `list.h`, whose elements lie in the iocbs themselves. What the
threads do to them: the submitter moves the first free iocb to the end of the used ones, the reclaimer moves the one
that an event names to the end of the free ones. In the end `tip_release` joins the lists and frees all iocbs.
-/

namespace Blktrace.Btreplay.Pool

open Blktrace.Lists

/-- `&tip->free_iocbs`, `&tip->used_iocbs` and the `head` of each iocb. -/
structure Layout where
  free : Ptr
  used : Ptr
  iocb : ℕ → Ptr
  nodup : (used :: free :: (List.range naios).map iocb).Nodup
  mapped : ∀ p ∈ unmapped, p ∉ used :: free :: (List.range naios).map iocb

variable {α : Type*} (L : Layout)

/-- What `tip_init` does to the lists, up to the `n`th iocb. What is allocated holds anything at first. -/
def initOps (c : Ptr → ListHead) (n : ℕ) : List Op :=
  [.alloc L.free (c L.free), .alloc L.used (c L.used), .init L.free, .init L.used] ++
    (List.range n).flatMap fun i => [.alloc (L.iocb i) (c (L.iocb i)), .addTail (L.iocb i) L.free]

def tipInit (c : Ptr → ListHead) : Option Heap := (initOps L c naios).foldlM (fun h op => op.run h) noCells

/-- What the submitter's next step does to the lists: in the loop of `iocbs_map`, it moves the first free iocb. -/
def subLinks (s : State α) (h : Heap) : Option Heap :=
  match s.sub with
  | .mapping ntodo list =>
    if list.length < ntodo then do
      let iocbp ← h.next L.free
      listMoveTail iocbp L.used h
    else some h
  | _ => some h

/-- What the reclaimer's next step does to them: in the loop of `reclaim_ios`, it moves the iocb of an event. -/
def reapLinks (s : State α) (h : Heap) : Option Heap :=
  match s.reap with
  | .moving _ (x :: _) _ => listMoveTail (L.iocb x) L.free h
  | _ => some h

/-- The states of the threads and of the memory, whatever the order of the steps. -/
inductive LinkedRun (bunches : List (Bunch α)) : State α → Heap → Prop
  | init (c : Ptr → ListHead) {h : Heap} (hinit : tipInit L c = some h) : LinkedRun bunches { bunches := bunches } h
  | sub {s s' : State α} {h h' : Heap} (hrun : LinkedRun bunches s h) (hs : subStep s = some s')
    (hh : subLinks L s h = some h') : LinkedRun bunches s' h'
  | reap (events : List ℕ) {s s' : State α} {h h' : Heap} (hrun : LinkedRun bunches s h)
    (hs : reapStep events s = some s') (hh : reapLinks L s h = some h') : LinkedRun bunches s' h'

/-- `tip_release`, as far as the lists go, with what is freed. An assertion that fails is `none`. -/
def tipRelease (fuel : ℕ) (h : Heap) : Option (Heap × List Ptr) := do
  if (← listLen fuel L.used h) = 0 then
    let h ← listSplice L.used L.free h
    listForEachSafe delFree fuel L.free (h, [])
  else none

/-- The lists that there should be. -/
def table (s : State α) : Table :=
  ⟨[(L.used, s.usedIocbs.map L.iocb), (L.free, s.freeIocbs.map L.iocb)], []⟩

variable {L} {s s' : State α} {h : Heap} {bunches : List (Bunch α)}

/-! ## The addresses -/

theorem Layout.iocb_inj {x y : ℕ} (hx : x < naios) (hy : y < naios) (h : L.iocb x = L.iocb y) : x = y := by
  have hnodup := (List.nodup_cons.mp (List.nodup_cons.mp L.nodup).2).2
  exact List.inj_on_of_nodup_map hnodup (List.mem_range.mpr hx) (List.mem_range.mpr hy) h

theorem Layout.free_ne {x : ℕ} (hx : x < naios) : L.iocb x ≠ L.free := fun h =>
  (List.nodup_cons.mp (List.nodup_cons.mp L.nodup).2).1 (h ▸ List.mem_map_of_mem (List.mem_range.mpr hx))

theorem Layout.used_ne {x : ℕ} (hx : x < naios) : L.iocb x ≠ L.used := fun h =>
  (List.nodup_cons.mp L.nodup).1 (h ▸ List.mem_cons_of_mem _ (List.mem_map_of_mem (List.mem_range.mpr hx)))

theorem Layout.used_ne_free : L.used ≠ L.free := fun h =>
  (List.nodup_cons.mp L.nodup).1 (h ▸ List.mem_cons_self)

theorem Layout.unmapped_of_mem {p : Ptr} (hp : p ∈ L.used :: L.free :: (List.range naios).map L.iocb) :
    p ∉ unmapped := fun h => L.mapped p h hp

/-! ## `tip_init` -/

theorem holds_initOps (c : Ptr → ListHead) {n : ℕ} (hn : n ≤ naios) :
    Holds ⟨[(L.used, []), (L.free, (List.range n).map L.iocb)], []⟩
      ((initOps L c n).foldlM (fun h op => op.run h) noCells) := by
  induction n with
  | zero =>
    have hused := L.unmapped_of_mem (p := L.used) List.mem_cons_self
    have hfree := L.unmapped_of_mem (p := L.free) (List.mem_cons_of_mem _ List.mem_cons_self)
    have hne := L.used_ne_free
    have hfits : RunFits (initOps L c 0) noLists := by
      simp [initOps, RunFits, Op.Fits, Op.apply, noLists, Table.cells, cellsOf, Table.make, hused, hfree, hne]
    have hrun := run_spec rep_noLists hfits
    have htable : (initOps L c 0).foldl (fun A op => op.apply A) noLists = ⟨[(L.used, []), (L.free, [])], []⟩ := by
      simp [initOps, Op.apply, noLists, Table.make, hne]
    rwa [htable] at hrun
  | succ n ih =>
    have hops : initOps L c (n + 1) = initOps L c n ++ [.alloc (L.iocb n) (c (L.iocb n)), .addTail (L.iocb n) L.free] := by
      rw [initOps, initOps, List.range_succ, List.flatMap_append, List.append_assoc, List.flatMap_singleton]
    rw [hops, List.foldlM_append]
    refine (ih (Nat.le_of_succ_le hn)).bind fun h hrep => ?_
    have hfits : RunFits [.alloc (L.iocb n) (c (L.iocb n)), .addTail (L.iocb n) L.free]
        ⟨[(L.used, []), (L.free, (List.range n).map L.iocb)], []⟩ := by
      have hiocb := L.unmapped_of_mem (p := L.iocb n)
        (List.mem_cons_of_mem _ (List.mem_cons_of_mem _ (List.mem_map_of_mem (List.mem_range.mpr hn))))
      have hnew : ∀ x < n, L.iocb x ≠ L.iocb n := fun x hx h =>
        Nat.ne_of_lt hx (L.iocb_inj (hx.trans hn) hn h)
      refine ⟨⟨?_, hiocb⟩, ⟨List.mem_cons_self, List.mem_cons_of_mem _ List.mem_cons_self⟩, trivial⟩
      simpa [Table.cells, cellsOf, L.used_ne hn, L.free_ne hn] using hnew
    have hrun := run_spec hrep hfits
    have htable : [Op.alloc (L.iocb n) (c (L.iocb n)), .addTail (L.iocb n) L.free].foldl (fun A op => op.apply A)
        ⟨[(L.used, []), (L.free, (List.range n).map L.iocb)], []⟩ =
        ⟨[(L.used, []), (L.free, (List.range (n + 1)).map L.iocb)], []⟩ := by
      simp [Op.apply, Table.put, L.used_ne_free, List.range_succ]
    rwa [htable] at hrun

/-! ## The threads -/

theorem Inv.lt_naios {all : List α} (hi : Inv all s) {x : ℕ} (hx : x ∈ s.freeIocbs ∨ x ∈ s.usedIocbs) : x < naios := by
  refine List.mem_range.mp (hi.places.mem_iff.mp (List.mem_append.mpr ?_))
  exact hx.imp_right hi.used.mem_iff.mp

theorem Inv.disjoint {all : List α} (hi : Inv all s) {x : ℕ} (hx : x ∈ s.freeIocbs) : x ∉ s.usedIocbs := fun hmem =>
  (List.nodup_append'.mp hi.nodup).2.2 hx (hi.used.mem_iff.mp hmem)

theorem map_erase {x : ℕ} {l : List ℕ} (hx : x < naios) (hl : ∀ y ∈ l, y < naios) :
    (l.map L.iocb).erase (L.iocb x) = (l.erase x).map L.iocb := by
  induction l with
  | nil => rfl
  | cons y l ih =>
    have hl' := List.forall_mem_cons.mp hl
    by_cases hxy : y = x
    · rw [hxy, List.map_cons, List.erase_cons_head, List.erase_cons_head]
    · have hne : L.iocb y ≠ L.iocb x := fun h => hxy (L.iocb_inj hl'.1 hx h)
      rw [List.map_cons, List.erase_cons_tail (by simpa using hne), List.erase_cons_tail (by simpa using hxy),
        List.map_cons, ih hl'.2]

/-- The first of the free iocbs becomes the last of the used ones. -/
theorem Inv.take_free {all : List α} (hi : Inv all s) {x : ℕ} {free : List ℕ} (hfree : s.freeIocbs = x :: free)
    (hrep : Rep h (table L s)) :
    Holds ⟨[(L.used, (s.usedIocbs ++ [x]).map L.iocb), (L.free, free.map L.iocb)], []⟩
      (h.next L.free >>= fun iocbp => listMoveTail iocbp L.used h) := by
  have hx : x ∈ s.freeIocbs := hfree ▸ List.mem_cons_self
  have hr : (L.free, s.freeIocbs.map L.iocb) ∈ (table L s).lists := List.mem_cons_of_mem _ List.mem_cons_self
  have hnext : h.next L.free = some (L.iocb x) := by
    rw [hrep.next_links hr List.mem_cons_self, (hrep.ring_one (List.perm_cons_erase hr)).next_eq, hfree]
    rfl
  have hused : (s.usedIocbs.map L.iocb).erase (L.iocb x) = s.usedIocbs.map L.iocb := by
    rw [map_erase (hi.lt_naios (.inl hx)) fun y hy => hi.lt_naios (.inr hy), List.erase_of_not_mem (hi.disjoint hx)]
  have hmove := Op.run_spec (.moveTail (L.iocb x) L.used) hrep
    ⟨List.mem_flatMap.mpr ⟨_, hr, List.mem_map_of_mem hx⟩, List.mem_cons_self⟩
  rw [hnext]
  have htable : (Op.moveTail (L.iocb x) L.used).apply (table L s) =
      ⟨[(L.used, (s.usedIocbs ++ [x]).map L.iocb), (L.free, free.map L.iocb)], []⟩ := by
    simp [Op.apply, table, Table.take, Table.put, hused, hfree, L.used_ne_free.symm]
  rwa [htable] at hmove

/-- A used iocb becomes the last of the free ones. -/
theorem Inv.give_back {all : List α} (hi : Inv all s) {x : ℕ} (hx : x ∈ s.usedIocbs) (hrep : Rep h (table L s)) :
    Holds ⟨[(L.used, (s.usedIocbs.erase x).map L.iocb), (L.free, (s.freeIocbs ++ [x]).map L.iocb)], []⟩
      (listMoveTail (L.iocb x) L.free h) := by
  have hlt := hi.lt_naios (.inr hx)
  have hused := map_erase (L := L) hlt fun y hy => hi.lt_naios (.inr hy : y ∈ s.freeIocbs ∨ y ∈ s.usedIocbs)
  have hfree : (s.freeIocbs.map L.iocb).erase (L.iocb x) = s.freeIocbs.map L.iocb := by
    rw [map_erase hlt fun y hy => hi.lt_naios (.inl hy), List.erase_of_not_mem fun h => hi.disjoint h hx]
  have hr : (L.used, s.usedIocbs.map L.iocb) ∈ (table L s).lists := List.mem_cons_self
  have hmove := Op.run_spec (.moveTail (L.iocb x) L.free) hrep
    ⟨List.mem_flatMap.mpr ⟨_, hr, List.mem_map_of_mem hx⟩, List.mem_cons_of_mem _ List.mem_cons_self⟩
  have htable : (Op.moveTail (L.iocb x) L.free).apply (table L s) =
      ⟨[(L.used, (s.usedIocbs.erase x).map L.iocb), (L.free, (s.freeIocbs ++ [x]).map L.iocb)], []⟩ := by
    simp [Op.apply, table, Table.take, Table.put, hused, hfree, L.used_ne_free]
  rwa [htable] at hmove

/-- All other steps of the submitter leave the lists alone. -/
theorem lists_of_subStep (hs : subStep s = some s') (hother : ∀ n list, s.sub = .mapping n list → ¬ list.length < n) :
    s'.freeIocbs = s.freeIocbs ∧ s'.usedIocbs = s.usedIocbs := by
  unfold subStep at hs
  split at hs
  all_goals grind

/-- All other steps of the reclaimer do. -/
theorem lists_of_reapStep {events : List ℕ} (hs : reapStep events s = some s')
    (hother : ∀ n x left moved, s.reap ≠ .moving n (x :: left) moved) :
    s'.freeIocbs = s.freeIocbs ∧ s'.usedIocbs = s.usedIocbs := by
  unfold reapStep at hs
  split at hs
  all_goals grind

theorem links_sub {all : List α} (hi : Inv all s) (hrep : Rep h (table L s)) (hs : subStep s = some s') :
    Holds (table L s') (subLinks L s h) := by
  by_cases hmapping : ∃ n list, s.sub = .mapping n list ∧ list.length < n
  · obtain ⟨n, list, hsub, hlt⟩ := hmapping
    rw [subLinks, hsub]
    dsimp only
    rw [if_pos hlt]
    -- while the submitter maps, the reclaimer has counted all it gave back
    have hok := hi.subOk
    have hcount := hi.naiosFree
    have hmutex : s.mutex = some .sub := hi.subMutex.mpr (by rw [hsub]; rfl)
    rw [hi.moved_eq_zero (by simp [hmutex]), hsub] at hcount
    rw [hsub] at hok
    obtain ⟨-, hle, hpkts, -⟩ := hok
    have htaken : (SubPc.mapping n list).taken = list.length := rfl
    have hpos : s.freeIocbs ≠ [] := by
      intro hnil
      rw [hnil, List.length_nil] at hcount
      omega
    obtain ⟨x, free, hfree⟩ := List.exists_cons_of_ne_nil hpos
    have hs' : s'.freeIocbs = free ∧ s'.usedIocbs = s.usedIocbs ++ [x] := by
      rw [subStep, hsub] at hs
      dsimp only at hs
      rw [if_pos hlt, hfree, List.getElem?_eq_getElem (by omega)] at hs
      obtain rfl := Option.some.inj hs
      exact ⟨rfl, rfl⟩
    rw [table, hs'.1, hs'.2]
    exact hi.take_free hfree hrep
  · have hother : ∀ n list, s.sub = .mapping n list → ¬ list.length < n := fun n list hsub hlt =>
      hmapping ⟨n, list, hsub, hlt⟩
    obtain ⟨hfree, hused⟩ := lists_of_subStep hs hother
    refine ⟨h, ?_, by rw [table, hfree, hused]; exact hrep⟩
    unfold subLinks
    cases hsub : s.sub with
    | mapping n list => exact if_neg (hother n list hsub)
    | _ => rfl

theorem links_reap {all : List α} (hi : Inv all s) (hrep : Rep h (table L s)) {events : List ℕ}
    (hs : reapStep events s = some s') : Holds (table L s') (reapLinks L s h) := by
  by_cases hmoving : ∃ n x left moved, s.reap = .moving n (x :: left) moved
  · obtain ⟨n, x, left, moved, hreap⟩ := hmoving
    rw [reapLinks, hreap]
    have hx : x ∈ s.usedIocbs := by
      rw [hi.used.mem_iff, hreap]
      exact List.mem_append_right _ (List.mem_append_right _ List.mem_cons_self)
    have hs' : s'.freeIocbs = s.freeIocbs ++ [x] ∧ s'.usedIocbs = s.usedIocbs.erase x := by
      rw [reapStep, hreap] at hs
      obtain rfl := Option.some.inj hs
      exact ⟨rfl, rfl⟩
    rw [table, hs'.1, hs'.2]
    exact hi.give_back hx hrep
  · have hother : ∀ n x left moved, s.reap ≠ .moving n (x :: left) moved := fun n x left moved hreap =>
      hmoving ⟨n, x, left, moved, hreap⟩
    obtain ⟨hfree, hused⟩ := lists_of_reapStep hs hother
    refine ⟨h, ?_, by rw [table, hfree, hused]; exact hrep⟩
    unfold reapLinks
    cases hreap : s.reap with
    | moving n left moved =>
      cases left with
      | nil => rfl
      | cons x left => exact absurd hreap (hother n x left moved)
    | _ => rfl

/-! ## Every run -/

theorem LinkedRun.spec (hrun : LinkedRun L bunches s h) :
    Inv (bunches.flatMap Bunch.pkts) s ∧ Reachable bunches s ∧ Rep h (table L s) := by
  induction hrun with
  | init c hinit =>
    obtain ⟨h', hinit', hrep⟩ := holds_initOps (L := L) c (le_refl naios)
    rw [tipInit, hinit'] at hinit
    obtain rfl := Option.some.inj hinit
    refine ⟨inv_init bunches, .refl, ?_⟩
    rw [table]
    dsimp only
    rwa [List.map_nil]
  | sub hrun hs hh ih =>
    obtain ⟨hi, hreach, hrep⟩ := ih
    obtain ⟨h', hh', hrep'⟩ := links_sub hi hrep hs
    obtain rfl := Option.some.inj (hh.symm.trans hh')
    exact ⟨hi.subStep hs, hreach.tail (.sub hs), hrep'⟩
  | reap events hrun hs hh ih =>
    obtain ⟨hi, hreach, hrep⟩ := ih
    obtain ⟨h', hh', hrep'⟩ := links_reap hi hrep hs
    obtain rfl := Option.some.inj (hh.symm.trans hh')
    exact ⟨hi.reapStep hs, hreach.tail (.reap events hs), hrep'⟩

/-- Whatever the threads do, the memory can follow. -/
theorem exists_linkedRun (c : Ptr → ListHead) (hreach : Reachable bunches s) : ∃ h, LinkedRun L bunches s h := by
  induction hreach with
  | refl =>
    obtain ⟨h, hinit, -⟩ := holds_initOps (L := L) c (le_refl naios)
    exact ⟨h, .init c hinit⟩
  | tail _ hstep ih =>
    obtain ⟨h, hrun⟩ := ih
    obtain ⟨hi, -, hrep⟩ := hrun.spec
    cases hstep with
    | sub hs =>
      obtain ⟨h', hh, -⟩ := links_sub hi hrep hs
      exact ⟨h', hrun.sub hs hh⟩
    | reap events hs =>
      obtain ⟨h', hh, -⟩ := links_reap hi hrep hs
      exact ⟨h', hrun.reap events hs hh⟩

/-! ## `tip_release` -/

/-- When both threads are through, nothing is used any more. -/
theorem Inv.usedIocbs_eq_nil {all : List α} (hi : Inv all s) (hsub : s.sub = .finished) (hreap : s.reap = .done) :
    s.usedIocbs = [] := by
  have hout := hi.naiosOut
  have hok := hi.reapOk
  have hused := hi.used.length_eq
  rw [hreap] at hok hout hused
  rw [hsub] at hout hused
  simp only [SubPc.uncounted, ReapPc.collected, ReapPc.moved, SubPc.mapped, List.length_append, List.length_nil] at hout hused
  have hnone := hok.2
  exact List.eq_nil_of_length_eq_zero (by omega)

theorem holds_tipRelease {all : List α} (hi : Inv all s) (hrep : Rep h (table L s)) (hsub : s.sub = .finished)
    (hreap : s.reap = .done) {fuel : ℕ} (hfuel : naios < fuel) :
    ∃ h', tipRelease L fuel h = some (h', s.freeIocbs.map L.iocb) ∧ s.freeIocbs.Perm (List.range naios) ∧
      Rep h' ⟨[(L.used, []), (L.free, [])], []⟩ := by
  have hnil := hi.usedIocbs_eq_nil hsub hreap
  have hperm : s.freeIocbs.Perm (List.range naios) := by
    have hplaces := hi.places
    rw [← List.append_nil s.freeIocbs, ← hnil]
    exact (hi.used.append_left _).trans hplaces
  have hr : (L.used, []) ∈ (table L s).lists := by
    rw [table, hnil]
    exact List.mem_cons_self
  have hlen := (hrep.walked hr).len fuel (Nat.zero_lt_of_lt hfuel)
  have hempty := (hrep.seen hr).empty
  have hlookup : (table L s).elements L.free = s.freeIocbs.map L.iocb := by
    have hbeq : (L.free == L.used) = false := beq_eq_false_iff_ne.mpr L.used_ne_free.symm
    simp [Table.elements, table, List.lookup, hbeq]
  have hhead : L.free ∈ (table L s).heads := List.mem_cons_of_mem _ List.mem_cons_self
  obtain ⟨hsafe, -⟩ := listForEachSafe_delFree hrep hhead
  have hlength := hperm.length_eq
  rw [List.length_range] at hlength
  obtain ⟨h', hs', hrep'⟩ := hsafe fuel (by rw [hlookup, List.length_map]; omega)
  refine ⟨h', ?_, hperm, ?_⟩
  · rw [hlookup] at hs'
    simp only [tipRelease, hlen, listSplice, hempty, Option.bind_eq_bind, Option.bind_some, List.length_nil,
      if_true, decide_true]
    exact hs'
  · have htable : (table L s).setElements L.free [] = ⟨[(L.used, []), (L.free, [])], []⟩ := by
      simp [Table.setElements, table, hnil, L.used_ne_free]
    rwa [htable] at hrep'

/-! ## The lists of the pool -/

/-- What memory has to do with the pool. -/
structure LinksOk (L : Layout) (s : State α) (h : Heap) : Prop where
  /-- The lists are where they should be, and are seen so. -/
  rep : Rep h (table L s)
  free : Seen h L.free (s.freeIocbs.map L.iocb) ∧ Walked h L.free (s.freeIocbs.map L.iocb)
  used : Seen h L.used (s.usedIocbs.map L.iocb) ∧ Walked h L.used (s.usedIocbs.map L.iocb)
  /-- A step of a thread does not go where there is no structure. -/
  sub : ∀ s', subStep s = some s' → (subLinks L s h).isSome
  reap : ∀ events s', reapStep events s = some s' → (reapLinks L s h).isSome
  /-- In the end every iocb is freed, each of them once. -/
  release : s.sub = .finished → s.reap = .done → ∀ fuel > naios, ∃ h' freed,
    tipRelease L fuel h = some (h', freed) ∧ freed.Perm ((List.range naios).map L.iocb)

/-- **The lists of the pool**, after any steps of the two threads in any order. -/
theorem pool_links (hrun : LinkedRun L bunches s h) : Reachable bunches s ∧ LinksOk L s h := by
  obtain ⟨hi, hreach, hrep⟩ := hrun.spec
  have hfree : (L.free, s.freeIocbs.map L.iocb) ∈ (table L s).lists := List.mem_cons_of_mem _ List.mem_cons_self
  have hused : (L.used, s.usedIocbs.map L.iocb) ∈ (table L s).lists := List.mem_cons_self
  refine ⟨hreach, hrep, ⟨hrep.seen hfree, hrep.walked hfree⟩, ⟨hrep.seen hused, hrep.walked hused⟩, ?_, ?_, ?_⟩
  · intro s' hs
    obtain ⟨h', hh, -⟩ := links_sub hi hrep hs
    rw [hh]
    rfl
  · intro events s' hs
    obtain ⟨h', hh, -⟩ := links_reap hi hrep hs
    rw [hh]
    rfl
  · intro hsub hreap fuel hfuel
    obtain ⟨h', hh, hperm, -⟩ := holds_tipRelease hi hrep hsub hreap hfuel
    exact ⟨h', _, hh, hperm.map L.iocb⟩

theorem toNat_row {i : ℕ} (hi : i < naios) : (BitVec.ofNat 64 (0x2000 + 64 * i)).toNat = 0x2000 + 64 * i := by
  rw [naios] at hi
  exact Nat.mod_eq_of_lt (by omega)

/-- The heads one after the other, and the iocbs behind them. -/
def layoutInRow : Layout where
  used := 0x1000
  free := 0x1010
  iocb := fun i => BitVec.ofNat 64 (0x2000 + 64 * i)
  nodup := by
    have hne : ∀ p : Ptr, p.toNat < 0x2000 → p ∉ (List.range naios).map fun i => BitVec.ofNat 64 (0x2000 + 64 * i) := by
      intro p hp hmem
      obtain ⟨i, hi, rfl⟩ := List.mem_map.mp hmem
      rw [toNat_row (List.mem_range.mp hi)] at hp
      omega
    refine List.nodup_cons.mpr ⟨fun hmem => ?_, List.nodup_cons.mpr ⟨hne _ (by decide), ?_⟩⟩
    · exact hne _ (by decide) ((List.mem_cons.mp hmem).resolve_left (by decide))
    · refine List.Nodup.map_on (fun i hi k hk h => ?_) List.nodup_range
      have htoNat := congrArg BitVec.toNat h
      rw [toNat_row (List.mem_range.mp hi), toNat_row (List.mem_range.mp hk)] at htoNat
      omega
  mapped := by
    have hfar : ∀ p ∈ unmapped, p.toNat = 0 ∨ 0x100000 ≤ p.toNat := by
      simp [unmapped, LIST_POISON1, LIST_POISON2]
    intro p hp hmem
    have hp := hfar p hp
    rcases List.mem_cons.mp hmem with rfl | hmem
    · revert hp
      decide
    rcases List.mem_cons.mp hmem with rfl | hmem
    · revert hp
      decide
    obtain ⟨i, hi, rfl⟩ := List.mem_map.mp hmem
    rw [toNat_row (List.mem_range.mp hi)] at hp
    have hlt : i < 512 := List.mem_range.mp hi
    omega

/-- A bunch of two packets, of which the kernel has the first. -/
theorem pool_links_submitting : ∃ (s : State ℕ) (h : Heap), s.log = [7] ∧
    Reachable [⟨[7, 8], by decide, by decide⟩] s ∧ LinksOk layoutInRow s h := by
  have hrun : (subSteps 9 { bunches := [⟨[7, 8], by decide, by decide⟩] }).map State.log = some [7] := by
    decide +kernel
  obtain ⟨s, hs, hlog⟩ := Option.map_eq_some_iff.mp hrun
  obtain ⟨h, hlinked⟩ := exists_linkedRun (L := layoutInRow) (fun _ => ⟨0, 0⟩)
    (Reachable.subSteps Relation.ReflTransGen.refl hs)
  exact ⟨s, h, hlog, pool_links hlinked⟩

end Blktrace.Btreplay.Pool
