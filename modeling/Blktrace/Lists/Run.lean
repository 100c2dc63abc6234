import Blktrace.Lists.ListHead
import Mathlib.Data.List.Count
import Mathlib.Data.List.Perm.Basic

/-!
# Runs over lists

The structures that there are lie in lists, one in each list as its head, or in none. Whatever functions follow
upon each other, as long as they are called for what they are meant for, none of them goes where there is no
structure, and they do to the lists in memory what they are named for. No structure is lost or comes twice.
-/

namespace Blktrace.Lists

/-- The heads with their elements, and the structures that are in no list. -/
structure Table where
  lists : List (Ptr × List Ptr)
  loose : List Ptr

/-- The structures of some lists. -/
def cellsOf (lists : List (Ptr × List Ptr)) : List Ptr := lists.flatMap fun r => r.1 :: r.2

namespace Table

def cells (A : Table) : List Ptr := A.loose ++ cellsOf A.lists

def heads (A : Table) : List Ptr := A.lists.map Prod.fst

def members (A : Table) : List Ptr := A.lists.flatMap Prod.snd

def elements (A : Table) (head : Ptr) : List Ptr := (A.lists.lookup head).getD []

/-- A list that is empty. -/
def make (p : Ptr) (A : Table) : Table := ⟨(p, []) :: A.lists, A.loose.erase p⟩

/-- A structure comes into a list. -/
def put (e head : Ptr) (f : List Ptr → List Ptr) (A : Table) : Table :=
  ⟨A.lists.map fun r => if r.1 = head then (r.1, f r.2) else r, A.loose.erase e⟩

def take (e : Ptr) (A : Table) : Table := ⟨A.lists.map fun r => (r.1, r.2.erase e), e :: A.loose⟩

/-- The elements of one list come into another, in front. -/
def splice (list head : Ptr) (A : Table) : Table :=
  ⟨(A.lists.filter fun r => r.1 ≠ list).map fun r =>
    if r.1 = head then (r.1, A.elements list ++ r.2) else r, list :: A.loose⟩

def rename (old new p : Ptr) : Ptr := if p = old then new else p

def replace (old new : Ptr) (A : Table) : Table :=
  ⟨A.lists.map fun r => (rename old new r.1, r.2.map (rename old new)), old :: A.loose.erase new⟩

end Table

/-- What is done with lists. What `malloc` returns may hold anything. -/
inductive Op
  | alloc (p : Ptr) (c : ListHead)
  | free (p : Ptr)
  | init (list : Ptr)
  | add (new head : Ptr)
  | addTail (new head : Ptr)
  | del (entry : Ptr)
  | delInit (entry : Ptr)
  | move (list head : Ptr)
  | moveTail (list head : Ptr)
  | splice (list head : Ptr)
  | spliceInit (list head : Ptr)
  | replace (old new : Ptr)
  | replaceInit (old new : Ptr)

/-- Where no structure is: `NULL` and the poisoned pointers. -/
def unmapped : List Ptr := [0, LIST_POISON1, LIST_POISON2]

namespace Op

def run : Op → Heap → Option Heap
  | alloc p c, h => some (Function.update h p (some c))
  | free p, h => (h p).map fun _ => Function.update h p none
  | init list, h => initListHead list h
  | add new head, h => listAdd new head h
  | addTail new head, h => listAddTail new head h
  | del entry, h => listDel entry h
  | delInit entry, h => listDelInit entry h
  | move list head, h => listMove list head h
  | moveTail list head, h => listMoveTail list head h
  | splice list head, h => listSplice list head h
  | spliceInit list head, h => listSpliceInit list head h
  | replace old new, h => listReplace old new h
  | replaceInit old new, h => listReplaceInit old new h

def apply : Op → Table → Table
  | alloc p _, A => { A with loose := p :: A.loose }
  | free p, A => { A with loose := A.loose.erase p }
  | init list, A => A.make list
  | add new head, A => A.put new head (new :: ·)
  | addTail new head, A => A.put new head (· ++ [new])
  | del entry, A => A.take entry
  | delInit entry, A => (A.take entry).make entry
  | move list head, A => (A.take list).put list head (list :: ·)
  | moveTail list head, A => (A.take list).put list head (· ++ [list])
  | splice list head, A => if A.elements list = [] then A else A.splice list head
  | spliceInit list head, A => if A.elements list = [] then A else (A.splice list head).make list
  | replace old new, A => A.replace old new
  | replaceInit old new, A => (A.replace old new).make old

/-- What the functions are meant for. -/
def Fits : Op → Table → Prop
  | alloc p _, A => p ∉ A.cells ∧ p ∉ unmapped
  | free p, A => p ∈ A.loose
  | init list, A => list ∈ A.loose
  | add new head, A => new ∈ A.loose ∧ head ∈ A.heads
  | addTail new head, A => new ∈ A.loose ∧ head ∈ A.heads
  | del entry, A => entry ∈ A.members
  | delInit entry, A => entry ∈ A.members
  | move list head, A => list ∈ A.members ∧ head ∈ A.heads
  | moveTail list head, A => list ∈ A.members ∧ head ∈ A.heads
  | splice list head, A => list ∈ A.heads ∧ head ∈ A.heads ∧ list ≠ head
  | spliceInit list head, A => list ∈ A.heads ∧ head ∈ A.heads ∧ list ≠ head
  | replace old new, A => (old ∈ A.heads ∨ old ∈ A.members) ∧ new ∈ A.loose
  | replaceInit old new, A => (old ∈ A.heads ∨ old ∈ A.members) ∧ new ∈ A.loose

instance (op : Op) (A : Table) : Decidable (op.Fits A) := by
  cases op
  all_goals
    dsimp only [Fits]
    infer_instance

end Op

/-! ## Lists in memory -/

structure Rep (h : Heap) (A : Table) : Prop where
  nodup : A.cells.Nodup
  cells : ∀ p, (h p).isSome ↔ p ∈ A.cells
  ring : ∀ r ∈ A.lists, h.links.Ring ↑(r.1 :: r.2)
  mapped : ∀ p ∈ unmapped, p ∉ A.cells

/-- The result is a heap with the lists. -/
def Holds (A : Table) (result : Option Heap) : Prop := ∃ h, result = some h ∧ Rep h A

section

variable {h : Heap} {A A' : Table} {L L' : List (Ptr × List Ptr)} {r : Ptr × List Ptr} {x y e : Ptr}
  {l m : List Ptr} {s : Rings.Links Ptr} {result : Option Heap}

theorem cellsOf_perm (hL : L.Perm L') : (cellsOf L).Perm (cellsOf L') := hL.flatMap_right _

theorem cells_perm (hL : A.lists.Perm (r :: L)) : A.cells.Perm (A.loose ++ (r.1 :: r.2 ++ cellsOf L)) :=
  (cellsOf_perm hL).append_left _

theorem mem_lists_elements (hx : x ∈ A.heads) : (x, A.elements x) ∈ A.lists := by
  obtain ⟨r, hr, rfl⟩ := List.mem_map.mp hx
  obtain ⟨l, hl⟩ := Option.isSome_iff_exists.mp (List.lookup_isSome_iff.mpr ⟨r, hr, beq_self_eq_true r.1⟩)
  obtain ⟨l₁, l₂, hlists, -⟩ := List.lookup_eq_some_iff.mp hl
  rw [Table.elements, hl, Option.getD_some, hlists]
  exact List.mem_append_right _ List.mem_cons_self

theorem exists_head (hx : x ∈ A.heads) : ∃ L, A.lists.Perm ((x, A.elements x) :: L) :=
  ⟨_, List.perm_cons_erase (mem_lists_elements hx)⟩

theorem exists_two_heads (hy : y ∈ A.heads) (hx : x ∈ A.heads) (hne : y ≠ x) :
    ∃ L, A.lists.Perm ((y, A.elements y) :: (x, A.elements x) :: L) := by
  obtain ⟨L, hL⟩ := exists_head hy
  have hmem := (List.mem_cons.mp (hL.mem_iff.mp (mem_lists_elements hx))).resolve_left fun h =>
    hne (Prod.ext_iff.mp h).1.symm
  exact ⟨_, hL.trans ((List.perm_cons_erase hmem).cons _)⟩

theorem exists_member (he : e ∈ A.members) : ∃ x l m L, A.lists.Perm ((x, l ++ e :: m) :: L) := by
  obtain ⟨⟨x, l⟩, hr, hmem⟩ := List.mem_flatMap.mp he
  obtain ⟨l, m, rfl⟩ := List.append_of_mem (show e ∈ l from hmem)
  exact ⟨x, l, m, _, List.perm_cons_erase hr⟩

/-- One list is looked at, and the others. -/
structure Apart (A : Table) (x : Ptr) (l : List Ptr) (L : List (Ptr × List Ptr)) : Prop where
  nodup : (x :: l).Nodup
  others : ∀ a ∈ x :: l, ∀ r ∈ L, a ∉ r.1 :: r.2
  loose : ∀ a ∈ A.loose, a ∉ x :: l
  loose_others : ∀ a ∈ A.loose, ∀ r ∈ L, a ∉ r.1 :: r.2

theorem Rep.apart (hrep : Rep h A) (hL : A.lists.Perm ((x, l) :: L)) : Apart A x l L := by
  obtain ⟨-, hcells, hloose⟩ := List.nodup_append'.mp ((cells_perm hL).nodup hrep.nodup)
  obtain ⟨hxl, -, hothers⟩ := List.nodup_append'.mp hcells
  refine ⟨hxl, fun a ha r hr hmem => hothers ha (List.mem_flatMap.mpr ⟨r, hr, hmem⟩), fun a ha hmem => ?_,
    fun a ha r hr hmem => ?_⟩
  · exact hloose ha (List.mem_append_left _ hmem)
  · exact hloose ha (List.mem_append_right _ (List.mem_flatMap.mpr ⟨r, hr, hmem⟩))

theorem Rep.loose_notMem (hrep : Rep h A) (he : e ∈ A.loose) (hr : r ∈ A.lists) : e ∉ r.1 :: r.2 :=
  (hrep.apart (List.perm_cons_erase hr)).loose e he

/-- New links for the same structures. -/
theorem Rep.sets (hrep : Rep h A) (hsets : h.Sets s result) (hcells : A'.cells.Perm A.cells)
    (hring : ∀ r ∈ A'.lists, s.Ring ↑(r.1 :: r.2)) : Holds A' result := by
  obtain ⟨h', rfl, rfl, hsame⟩ := hsets
  refine ⟨h', rfl, hcells.symm.nodup hrep.nodup, fun p => by rw [hsame, hrep.cells, hcells.mem_iff], hring, ?_⟩
  exact fun p hp hmem => hrep.mapped p hp (hcells.mem_iff.mp hmem)

/-- One list is another one then. -/
theorem Rep.sets_one (hrep : Rep h A) (hL : A.lists.Perm ((x, l) :: L)) (hsets : h.Sets s result)
    (hL' : A'.lists.Perm ((y, m) :: L)) (hcells : (A'.loose ++ y :: m).Perm (A.loose ++ x :: l))
    (hring : s.Ring ↑(y :: m)) (hothers : ∀ r ∈ L, s.Ring ↑(r.1 :: r.2)) : Holds A' result := by
  refine hrep.sets hsets ?_ fun r hr => ?_
  · refine (cells_perm hL').trans (List.Perm.trans ?_ (cells_perm hL).symm)
    rw [← List.append_assoc, ← List.append_assoc]
    exact hcells.append_right _
  · rcases List.mem_cons.mp (hL'.mem_iff.mp hr) with rfl | hr
    · exact hring
    · exact hothers r hr

/-- What is done to all lists changes one of them. -/
theorem map_perm {g : Ptr × List Ptr → Ptr × List Ptr} (hL : L'.Perm (r :: L)) (hg : ∀ r ∈ L, g r = r) :
    (L'.map g).Perm (g r :: L) := by
  have hmap := hL.map g
  rwa [List.map_cons, List.map_congr_left hg, List.map_id'] at hmap

theorem Rep.isSome_loose (hrep : Rep h A) (hp : e ∈ A.loose) : (h e).isSome :=
  (hrep.cells e).mpr (List.mem_append_left _ hp)

theorem Rep.isSome (hrep : Rep h A) (hL : A.lists.Perm ((x, l) :: L)) (hp : e ∈ x :: l) : (h e).isSome := by
  refine (hrep.cells e).mpr ((cells_perm hL).mem_iff.mpr ?_)
  exact List.mem_append_right _ (List.mem_append_left _ hp)

theorem Rep.ring_one (hrep : Rep h A) (hL : A.lists.Perm ((x, l) :: L)) : h.links.Ring ↑(x :: l) :=
  hrep.ring (x, l) (hL.mem_iff.mpr List.mem_cons_self)

theorem Rep.ring_others (hrep : Rep h A) (hL : A.lists.Perm ((x, l) :: L)) :
    ∀ r ∈ L, h.links.Ring ↑(r.1 :: r.2) :=
  fun r hr => hrep.ring r (hL.mem_iff.mpr (List.mem_cons_of_mem _ hr))

theorem Apart.head_ne (hapart : Apart A x l L) : ∀ r ∈ L, r.1 ≠ x := by
  rintro r hr rfl
  exact hapart.others r.1 List.mem_cons_self r hr List.mem_cons_self

theorem Apart.put_lists (hapart : Apart A x l L) (hL : A.lists.Perm ((x, l) :: L)) (f : List Ptr → List Ptr) :
    (A.put e x f).lists.Perm ((x, f l) :: L) := by
  have hmap := map_perm hL (g := fun r => if r.1 = x then (r.1, f r.2) else r) fun r hr =>
    if_neg (hapart.head_ne r hr)
  rwa [if_pos (rfl : (x, l).1 = x)] at hmap

theorem perm_put (he : e ∈ A.loose) (hm : m.Perm (e :: l)) :
    (A.loose.erase e ++ x :: m).Perm (A.loose ++ x :: l) := by
  have hloose := List.perm_cons_erase he
  refine List.Perm.trans ?_ (hloose.append_right _).symm
  refine ((hm.cons x).append_left _).trans ?_
  exact ((List.Perm.swap e x l).append_left _).trans List.perm_middle

/-! ## The functions -/

theorem Rep.listAdd (hrep : Rep h A) (he : e ∈ A.loose) (hx : x ∈ A.heads) :
    Holds (A.put e x (e :: ·)) (listAdd e x h) := by
  obtain ⟨L, hL⟩ := exists_head hx
  have hapart := hrep.apart hL
  have hring := hrep.ring_one hL
  have hmem : x ∈ ((x :: A.elements x : List Ptr) : Cycle Ptr) := Cycle.mem_coe_iff.mpr List.mem_cons_self
  have hnext := Cycle.mem_coe_iff.mp (hring.next_mem hmem)
  refine hrep.sets_one hL (sets_listAdd (hrep.isSome_loose he) (hrep.isSome hL List.mem_cons_self)
    (hrep.isSome hL hnext)) (hapart.put_lists hL _) (perm_put he (List.Perm.refl _))
    (hring.add_after (hapart.loose e he)) fun r hr => ?_
  exact (hrep.ring_others hL r hr).frame_add_after hring (fun a ha => hapart.others a ha r hr) hmem
    (hapart.loose_others e he r hr)

theorem Rep.listAddTail (hrep : Rep h A) (he : e ∈ A.loose) (hx : x ∈ A.heads) :
    Holds (A.put e x (· ++ [e])) (listAddTail e x h) := by
  obtain ⟨L, hL⟩ := exists_head hx
  have hapart := hrep.apart hL
  have hring := hrep.ring_one hL
  have hmem : x ∈ ((x :: A.elements x : List Ptr) : Cycle Ptr) := Cycle.mem_coe_iff.mpr List.mem_cons_self
  have hprev := Cycle.mem_coe_iff.mp (hring.prev_mem hmem)
  refine hrep.sets_one hL (sets_listAddTail (hrep.isSome_loose he) (hrep.isSome hL List.mem_cons_self)
    (hrep.isSome hL hprev)) (hapart.put_lists hL _) (perm_put he (List.perm_append_singleton e _))
    (hring.add_before (hapart.loose e he)) fun r hr => ?_
  exact (hrep.ring_others hL r hr).frame_add_before hring (fun a ha => hapart.others a ha r hr) hmem
    (hapart.loose_others e he r hr)

/-- A structure in a list is its head, or is taken from among its elements. -/
theorem Rep.delEntry (hrep : Rep h A) (he : e ∈ A.members) : Holds (A.take e) (delEntry e h) := by
  obtain ⟨x, l, m, L, hL⟩ := exists_member he
  have hapart := hrep.apart hL
  have hring := hrep.ring_one hL
  have hmem : e ∈ x :: (l ++ e :: m) := List.mem_cons_of_mem x (List.mem_append_right l List.mem_cons_self)
  have hcycle : e ∈ ((x :: (l ++ e :: m) : List Ptr) : Cycle Ptr) := Cycle.mem_coe_iff.mpr hmem
  have hprev := Cycle.mem_coe_iff.mp (hring.prev_mem hcycle)
  have hnext := Cycle.mem_coe_iff.mp (hring.next_mem hcycle)
  have hl : e ∉ l := fun h => (List.nodup_append'.mp (List.nodup_cons.mp hapart.nodup).2).2.2 h List.mem_cons_self
  have hlists : (A.take e).lists.Perm ((x, l ++ m) :: L) := by
    have hmap := map_perm hL (g := fun r => (r.1, r.2.erase e)) fun r hr =>
      Prod.ext rfl (List.erase_of_not_mem fun h => hapart.others e hmem r hr (List.mem_cons_of_mem _ h))
    rwa [List.erase_append_right _ hl, List.erase_cons_head] at hmap
  have hcells : (e :: A.loose ++ x :: (l ++ m)).Perm (A.loose ++ x :: (l ++ e :: m)) := by
    refine List.perm_middle.symm.trans (List.Perm.append_left _ ?_)
    exact (List.Perm.swap x e _).trans (List.perm_middle.symm.cons x)
  refine hrep.sets_one hL (sets_delEntry (hrep.isSome hL hmem) (hrep.isSome hL hprev) (hrep.isSome hL hnext))
    hlists hcells hring.remove_mid fun r hr => ?_
  exact (hrep.ring_others hL r hr).frame_remove hring (fun a ha => hapart.others a ha r hr) hcycle

/-- Only a structure in no list changes. -/
theorem Rep.sets_loose (hrep : Rep h A) (he : e ∈ A.loose) (hsets : h.Sets s result)
    (hnext : ∀ p ≠ e, s.next p = h.links.next p) (hprev : ∀ p ≠ e, s.prev p = h.links.prev p) : Holds A result :=
  hrep.sets hsets (List.Perm.refl _) fun r hr => (hrep.ring r hr).congr
    (fun a ha => hnext a fun h => hrep.loose_notMem he hr (h ▸ Cycle.mem_coe_iff.mp ha))
    fun a ha => hprev a fun h => hrep.loose_notMem he hr (h ▸ Cycle.mem_coe_iff.mp ha)

theorem Rep.initListHead (hrep : Rep h A) (he : e ∈ A.loose) : Holds (A.make e) (initListHead e h) := by
  refine hrep.sets (sets_initListHead (hrep.isSome_loose he)) ?_ fun r hr => ?_
  · refine (@List.perm_middle _ e (A.loose.erase e) (cellsOf A.lists)).trans ?_
    exact (List.perm_cons_erase he).symm.append_right (cellsOf A.lists)
  · rcases List.mem_cons.mp hr with rfl | hr
    · exact Rings.Links.ring_self
    · exact (hrep.ring r hr).frame (hrep.loose_notMem he hr) (hrep.loose_notMem he hr)

theorem Rep.spliceAll (hrep : Rep h A) (hy : y ∈ A.heads) (hx : x ∈ A.heads) (hne : y ≠ x)
    (hm : A.elements y ≠ []) : Holds (A.splice y x) (spliceAll y x h) := by
  obtain ⟨L, hL⟩ := exists_two_heads hy hx hne
  have hL' := hL.trans (List.Perm.swap _ _ L)
  have hyapart := hrep.apart hL
  have hxapart := hrep.apart hL'
  have hyring := hrep.ring_one hL
  have hxring := hrep.ring_one hL'
  have hymem : y ∈ ((y :: A.elements y : List Ptr) : Cycle Ptr) := Cycle.mem_coe_iff.mpr List.mem_cons_self
  have hxmem : x ∈ ((x :: A.elements x : List Ptr) : Cycle Ptr) := Cycle.mem_coe_iff.mpr List.mem_cons_self
  have hsets := sets_spliceAll (hrep.isSome hL' List.mem_cons_self) (hrep.isSome hL List.mem_cons_self)
    (hrep.isSome hL (Cycle.mem_coe_iff.mp (hyring.next_mem hymem)))
    (hrep.isSome hL (Cycle.mem_coe_iff.mp (hyring.prev_mem hymem)))
    (hrep.isSome hL' (Cycle.mem_coe_iff.mp (hxring.next_mem hxmem)))
  have hlists : (A.splice y x).lists.Perm ((x, A.elements y ++ A.elements x) :: L) := by
    have hfilter : (A.lists.filter fun r => r.1 ≠ y).Perm ((x, A.elements x) :: L) := by
      refine (hL.filter _).trans (List.Perm.of_eq ?_)
      rw [List.filter_cons_of_neg (by simp), List.filter_eq_self.mpr]
      exact fun r hr => by simpa using hyapart.head_ne r hr
    have hmap := map_perm hfilter (g := fun r => if r.1 = x then (r.1, A.elements y ++ r.2) else r) fun r hr =>
      if_neg (hxapart.head_ne r (List.mem_cons_of_mem _ hr))
    rwa [if_pos (rfl : (x, A.elements x).1 = x)] at hmap
  have hcells : (A.splice y x).cells.Perm A.cells := by
    refine (cells_perm hlists).trans (List.Perm.trans ?_ (cells_perm hL).symm)
    refine List.perm_middle.symm.trans (List.Perm.append_left _ ?_)
    show (y :: (x :: (A.elements y ++ A.elements x) ++ cellsOf L)).Perm
      (y :: (A.elements y ++ (x :: A.elements x ++ cellsOf L)))
    rw [← List.append_assoc]
    exact (List.perm_middle.symm.append_right _).cons y
  refine hrep.sets hsets hcells fun r hr => ?_
  rcases List.mem_cons.mp (hlists.mem_iff.mp hr) with rfl | hr
  · exact hyring.splice hxring hm fun a ha => hyapart.others a ha _ List.mem_cons_self
  · exact (hrep.ring_others hL r (List.mem_cons_of_mem _ hr)).frame_splice hyring hxring
      (fun a ha => hyapart.others a ha r (List.mem_cons_of_mem _ hr))
      (fun a ha => hxapart.others a ha r (List.mem_cons_of_mem _ hr))

theorem map_rename (hx : x ∉ l) : l.map (Table.rename x e) = l :=
  (List.map_congr_left fun _ ha => if_neg (ne_of_mem_of_not_mem ha hx)).trans (List.map_id l)

theorem Rep.listReplace (hrep : Rep h A) (hx : x ∈ A.heads ∨ x ∈ A.members) (he : e ∈ A.loose) :
    Holds (A.replace x e) (listReplace x e h) := by
  obtain ⟨y, l, hr, hmem⟩ : ∃ y l, (y, l) ∈ A.lists ∧ x ∈ y :: l := by
    rcases hx with hx | hx
    · exact ⟨x, A.elements x, mem_lists_elements hx, List.mem_cons_self⟩
    · obtain ⟨⟨y, l⟩, hr, hmem⟩ := List.mem_flatMap.mp hx
      exact ⟨y, l, hr, List.mem_cons_of_mem y hmem⟩
  have hL := List.perm_cons_erase hr
  have hapart := hrep.apart hL
  have hring := hrep.ring_one hL
  have hcycle : x ∈ ((y :: l : List Ptr) : Cycle Ptr) := Cycle.mem_coe_iff.mpr hmem
  have he' : e ∉ ((y :: l : List Ptr) : Cycle Ptr) := fun h => hapart.loose e he (Cycle.mem_coe_iff.mp h)
  have hnext := hrep.isSome hL (Cycle.mem_coe_iff.mp (hring.next_mem hcycle))
  have hprev : (h ((h.links.join e (h.links.next x)).prev x)).isSome := by
    show (h (Function.update h.links.prev (h.links.next x) e x)).isSome
    rw [Function.update_apply]
    split_ifs
    · exact hrep.isSome_loose he
    · exact hrep.isSome hL (Cycle.mem_coe_iff.mp (hring.prev_mem hcycle))
  have hlists : (A.replace x e).lists.Perm
      ((Table.rename x e y, l.map (Table.rename x e)) :: A.lists.erase (y, l)) :=
    map_perm (g := fun r => (Table.rename x e r.1, r.2.map (Table.rename x e))) hL fun r hr => by
      have hnot := hapart.others x hmem r hr
      rw [List.mem_cons, not_or] at hnot
      exact Prod.ext (if_neg (Ne.symm hnot.1)) (map_rename hnot.2)
  have hcells : (x :: A.loose.erase e ++ (y :: l).map (Table.rename x e)).Perm (A.loose ++ y :: l) := by
    obtain ⟨t, ht⟩ : ∃ t, (y :: l).Perm (x :: t) := ⟨_, List.perm_cons_erase hmem⟩
    have hxt : x ∉ t := (List.nodup_cons.mp (ht.nodup hapart.nodup)).1
    have hmap := ht.map (Table.rename x e)
    rw [List.map_cons (l := t), map_rename hxt, Table.rename, if_pos rfl] at hmap
    refine ((hmap.append_left _).trans ?_).trans
      (((List.perm_cons_erase he).append_right _).trans (ht.append_left _)).symm
    exact List.perm_middle.trans (List.perm_middle.symm.cons e)
  refine hrep.sets_one hL (sets_listReplace (hrep.isSome hL hmem) (hrep.isSome_loose he) hnext hprev) hlists hcells
    (hring.replace_map hcycle he') fun r hr => ?_
  exact (hrep.ring_others hL r hr).frame_replace hring (fun a ha => hapart.others a ha r hr) hcycle
    (hapart.loose_others e he r hr)

theorem Holds.bind {f : Heap → Option Heap} (hresult : Holds A result) (hf : ∀ h, Rep h A → Holds A' (f h)) :
    Holds A' (result >>= f) := by
  obtain ⟨h, rfl, hrep⟩ := hresult
  exact hf h hrep

theorem Rep.listDel (hrep : Rep h A) (he : e ∈ A.members) : Holds (A.take e) (listDel e h) := by
  have hloose : e ∈ (A.take e).loose := List.mem_cons_self
  refine (hrep.delEntry he).bind fun h₁ hrep₁ => ?_
  refine (hrep₁.sets_loose hloose (Heap.sets_setNext LIST_POISON1 (hrep₁.isSome_loose hloose))
    (fun p hp => Function.update_of_ne hp ..) fun _ _ => rfl).bind fun h₂ hrep₂ => ?_
  exact hrep₂.sets_loose hloose (Heap.sets_setPrev LIST_POISON2 (hrep₂.isSome_loose hloose)) (fun _ _ => rfl)
    fun p hp => Function.update_of_ne hp ..

theorem Rep.alloc (hrep : Rep h A) (hp : e ∉ A.cells) (hmapped : e ∉ unmapped) (c : ListHead) :
    Rep (Function.update h e (some c)) { A with loose := e :: A.loose } where
  nodup := List.nodup_cons.mpr ⟨hp, hrep.nodup⟩
  cells := by
    intro p
    show _ ↔ p ∈ e :: A.cells
    by_cases hpe : p = e
    · subst hpe
      simp
    · rw [Function.update_of_ne hpe, hrep.cells, List.mem_cons, or_iff_right hpe]
  ring := by
    intro r hr
    have hlinks : ∀ a ∈ ((r.1 :: r.2 : List Ptr) : Cycle Ptr), a ≠ e := fun a ha heq =>
      hp (List.mem_append_right _ (List.mem_flatMap.mpr ⟨r, hr, heq ▸ Cycle.mem_coe_iff.mp ha⟩))
    refine (hrep.ring r hr).congr (fun a ha => ?_) fun a ha => ?_
    · simp [Heap.links, Function.update_of_ne (hlinks a ha)]
    · simp [Heap.links, Function.update_of_ne (hlinks a ha)]
  mapped := by
    intro p hp hmem
    rcases List.mem_cons.mp (show p ∈ e :: A.cells from hmem) with heq | hmem
    · exact hmapped (heq ▸ hp)
    · exact hrep.mapped p hp hmem

theorem Rep.free (hrep : Rep h A) (he : e ∈ A.loose) :
    Rep (Function.update h e none) { A with loose := A.loose.erase e } where
  nodup := (List.erase_sublist.append_right _).nodup hrep.nodup
  cells := by
    intro p
    have hcells : ({ A with loose := A.loose.erase e } : Table).cells = A.cells.erase e :=
      (List.erase_append_left _ he).symm
    rw [hcells, hrep.nodup.mem_erase_iff]
    by_cases hpe : p = e
    · subst hpe
      simp
    · rw [Function.update_of_ne hpe, hrep.cells, and_iff_right hpe]
  ring := by
    intro r hr
    have hlinks : ∀ a ∈ ((r.1 :: r.2 : List Ptr) : Cycle Ptr), a ≠ e := fun a ha heq =>
      hrep.loose_notMem he hr (heq ▸ Cycle.mem_coe_iff.mp ha)
    refine (hrep.ring r hr).congr (fun a ha => ?_) fun a ha => ?_
    · simp [Heap.links, Function.update_of_ne (hlinks a ha)]
    · simp [Heap.links, Function.update_of_ne (hlinks a ha)]
  mapped := fun p hp hmem => hrep.mapped p hp ((List.erase_sublist.append_right _).subset hmem)

/-! ## What the lists are seen to be -/

/-- What is read of a list. -/
structure Seen (h : Heap) (x : Ptr) (l : List Ptr) : Prop where
  empty : listEmpty x h = some (decide (l = []))
  careful : listEmptyCareful x h = some (decide (l = []))
  first : listFirst x h = some (l.headD 0)
  last : ∀ e ∈ l, listIsLast e x h = some (decide (l.getLast? = some e))

theorem headD_eq_iff (hx : x ∉ l) : l.headD x = x ↔ l = [] := by
  cases l with
  | nil => exact iff_of_true rfl rfl
  | cons a l => exact iff_of_false (Ne.symm (List.ne_of_not_mem_cons hx)) (List.cons_ne_nil a l)

theorem Rep.seen (hrep : Rep h A) (hr : (x, l) ∈ A.lists) : Seen h x l := by
  have hL := List.perm_cons_erase hr
  have hring := hrep.ring_one hL
  obtain ⟨hx, hnodup⟩ := List.nodup_cons.mp (hrep.apart hL).nodup
  have hnext : h.next x = some (l.headD x) := by
    rw [Heap.next_eq (hrep.isSome hL List.mem_cons_self), hring.next_eq]
  have hempty : listEmpty x h = some (decide (l = [])) := by
    rw [listEmpty, hnext]
    exact congrArg some (decide_eq_decide.mpr (headD_eq_iff hx))
  refine ⟨hempty, ?_, ?_, fun e he => ?_⟩
  · have hprev : h.prev x = some (l.getLastD x) := by
      rw [Heap.prev_eq (hrep.isSome hL List.mem_cons_self), hring.prev_eq]
    rw [listEmptyCareful, hnext, hprev]
    cases l with
    | nil => simp
    | cons a l =>
      have ha : a ≠ x := Ne.symm (List.ne_of_not_mem_cons hx)
      simp [ha]
  · rw [listFirst, hempty, hnext]
    cases l <;> rfl
  · obtain ⟨l₁, l₂, rfl⟩ := List.append_of_mem he
    have hmem : e ∈ x :: (l₁ ++ e :: l₂) := List.mem_cons_of_mem x he
    rw [listIsLast, Heap.next_eq (hrep.isSome hL hmem), hring.next_mid]
    have hx₂ : x ∉ l₂ := fun h => hx (List.mem_append_right _ (List.mem_cons_of_mem e h))
    have he₂ : e ∉ l₂ := (List.nodup_cons.mp (List.nodup_append'.mp hnodup).2.1).1
    refine congrArg some (decide_eq_decide.mpr ((headD_eq_iff hx₂).trans ?_))
    rw [List.getLast?_append_cons, Rings.Links.getLast?_cons_eq, Option.some_inj]
    constructor
    · rintro rfl
      rfl
    · intro hlast
      by_contra hne
      obtain ⟨a, l₂, rfl⟩ := List.exists_cons_of_ne_nil hne
      rw [List.getLastD_cons] at hlast
      exact he₂ (hlast ▸ List.mem_of_getLast? Rings.Links.getLast?_cons_eq)

/-! ## Runs -/

theorem heads_take : (A.take e).heads = A.heads := by
  rw [Table.heads, Table.take, List.map_map]
  rfl

/-- **One function.** -/
theorem Op.run_spec (op : Op) (hrep : Rep h A) (hfits : op.Fits A) : Holds (op.apply A) (op.run h) := by
  cases op with
  | alloc p c => exact ⟨_, rfl, hrep.alloc hfits.1 hfits.2 c⟩
  | free p =>
    obtain ⟨c, hc⟩ := Option.isSome_iff_exists.mp (hrep.isSome_loose hfits)
    exact ⟨_, by rw [Op.run, hc]; rfl, hrep.free hfits⟩
  | init list => exact hrep.initListHead hfits
  | add new head => exact hrep.listAdd hfits.1 hfits.2
  | addTail new head => exact hrep.listAddTail hfits.1 hfits.2
  | del entry => exact hrep.listDel hfits
  | delInit entry => exact (hrep.delEntry hfits).bind fun h' hrep' => hrep'.initListHead List.mem_cons_self
  | move list head =>
    exact (hrep.delEntry hfits.1).bind fun h' hrep' =>
      hrep'.listAdd List.mem_cons_self (by rw [heads_take]; exact hfits.2)
  | moveTail list head =>
    exact (hrep.delEntry hfits.1).bind fun h' hrep' =>
      hrep'.listAddTail List.mem_cons_self (by rw [heads_take]; exact hfits.2)
  | splice list head =>
    obtain ⟨hlist, hhead, hne⟩ := hfits
    have hempty := (hrep.seen (mem_lists_elements hlist)).empty
    by_cases hnil : A.elements list = []
    · refine ⟨h, ?_, by rwa [Op.apply, if_pos hnil]⟩
      rw [Op.run, listSplice, hempty, decide_eq_true hnil]
      rfl
    · rw [Op.apply, if_neg hnil, Op.run, listSplice, hempty, decide_eq_false hnil]
      exact hrep.spliceAll hlist hhead hne hnil
  | spliceInit list head =>
    obtain ⟨hlist, hhead, hne⟩ := hfits
    have hempty := (hrep.seen (mem_lists_elements hlist)).empty
    by_cases hnil : A.elements list = []
    · refine ⟨h, ?_, by rwa [Op.apply, if_pos hnil]⟩
      rw [Op.run, listSpliceInit, hempty, decide_eq_true hnil]
      rfl
    · rw [Op.apply, if_neg hnil, Op.run, listSpliceInit, hempty, decide_eq_false hnil]
      exact (hrep.spliceAll hlist hhead hne hnil).bind fun h' hrep' => hrep'.initListHead List.mem_cons_self
  | replace old new => exact hrep.listReplace hfits.1 hfits.2
  | replaceInit old new =>
    exact (hrep.listReplace hfits.1 hfits.2).bind fun h' hrep' => hrep'.initListHead List.mem_cons_self

end

/-- Each function is called for what it is meant for. -/
def RunFits : List Op → Table → Prop
  | [], _ => True
  | op :: ops, A => op.Fits A ∧ RunFits ops (op.apply A)

instance decRunFits : (ops : List Op) → (A : Table) → Decidable (RunFits ops A)
  | [], _ => isTrue trivial
  | op :: ops, A =>
    haveI := decRunFits ops (op.apply A)
    inferInstanceAs (Decidable (op.Fits A ∧ RunFits ops (op.apply A)))

theorem run_spec {ops : List Op} {h : Heap} {A : Table} (hrep : Rep h A) (hfits : RunFits ops A) :
    Holds (ops.foldl (fun A op => op.apply A) A) (ops.foldlM (fun h op => op.run h) h) := by
  induction ops generalizing h A with
  | nil => exact ⟨h, rfl, hrep⟩
  | cons op ops ih =>
    rw [List.foldl_cons, List.foldlM_cons]
    exact (op.run_spec hrep hfits.1).bind fun h' hrep' => ih hrep' hfits.2

/-- Nothing is there yet. -/
def noCells : Heap := fun _ => none

def noLists : Table := ⟨[], []⟩

theorem rep_noLists : Rep noCells noLists :=
  ⟨List.nodup_nil, fun p => by simp [noCells, noLists, Table.cells, cellsOf], fun _ hr => absurd hr List.not_mem_nil,
    fun _ _ => List.not_mem_nil⟩

end Blktrace.Lists
