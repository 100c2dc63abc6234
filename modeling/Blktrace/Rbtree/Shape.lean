import Blktrace.Rbtree.Node

/-!
# Trees in memory

A tree of addresses describes the memory where each node points to the nodes above and below it in the tree and
has its colour. What is at other addresses does not count.
-/

namespace Blktrace.Rbtree

open SearchTree SearchTree.RbTree

/-- Where a node can be. -/
abbrev Addr := {p : Ptr // p ≠ 0 ∧ Aligned p}

/-- Two such places. -/
def addr8 : Addr := ⟨8, by decide, by unfold Aligned; decide⟩
def addr16 : Addr := ⟨16, by decide, by unfold Aligned; decide⟩

/-- The pointer to a tree. -/
def top : RbTree Addr → Ptr
  | nil => 0
  | node _ _ a _ => a

@[simp] theorem top_nodeOn (s : Side) (c : Bool) (x y : RbTree Addr) (a : Addr) : top (nodeOn s c x a y) = a := rfl

@[simp] theorem top_paint (c : Bool) (t : RbTree Addr) : top (t.paint c) = top t := by cases t <;> rfl

/-- The pointer to the node above the hole. -/
def above : List (Frame Addr) → Ptr
  | [] => 0
  | f :: _ => f.a

theorem aligned_above (k : List (Frame Addr)) : Aligned (above k) := by
  cases k with
  | nil => exact aligned_null
  | cons f k => exact f.a.2.2

theorem top_eq_zero {t : RbTree Addr} : top t = 0 ↔ t = nil := by
  cases t with
  | nil => exact iff_of_true rfl rfl
  | node c l a r => exact iff_of_false a.2.1 (node_ne_nil c l r a)

theorem mem_of_top {t : RbTree Addr} {a : Addr} (h : top t = a) : a ∈ t.toList := by
  cases t with
  | nil => exact absurd h.symm a.2.1
  | node c l b r =>
    rw [← Subtype.ext h]
    exact List.mem_append_right _ List.mem_cons_self

/-- What the node at `a` holds, seen from a side. -/
def Cell (s : Side) (h : Heap) (parent : Ptr) (red : Bool) (x : Ptr) (a : Addr) (y : Ptr) : Prop :=
  ∃ n, h.get a = some n ∧ rbParent n = parent ∧ rbIsRed n = red ∧ n.child s = x ∧ n.child s.other = y

theorem cell_other {s : Side} {h : Heap} {p x y : Ptr} {c : Bool} {a : Addr} :
    Cell s.other h p c x a y ↔ Cell s h p c y a x := by
  unfold Cell
  rw [Side.other_other]
  exact exists_congr fun n => and_congr_right fun _ => and_congr_right fun _ => and_congr_right fun _ => and_comm

/-- The tree below a node. -/
def Rep (h : Heap) (parent : Ptr) : RbTree Addr → Prop
  | nil => True
  | node c l a r => Cell .left h parent c (top l) a (top r) ∧ Rep h a l ∧ Rep h a r

/-- The nodes above a hole, in which there is the pointer `hole`. -/
def RepPath (h : Heap) (hole : Ptr) : List (Frame Addr) → Prop
  | [] => h.rbNode = hole
  | f :: k => Cell f.side h (above k) f.red hole f.a (top f.sib) ∧ Rep h f.a f.sib ∧ RepPath h f.a k

/-- **The tree in memory**: its nodes are at different addresses, and the root points to it. -/
structure Holds (h : Heap) (t : RbTree Addr) : Prop where
  root : h.rbNode = top t
  rep : Rep h 0 t
  nodup : t.toList.Nodup

theorem rep_nodeOn {s : Side} {h : Heap} {p : Ptr} {c : Bool} {x y : RbTree Addr} {a : Addr} :
    Rep h p (nodeOn s c x a y) ↔ Cell s h p c (top x) a (top y) ∧ Rep h a x ∧ Rep h a y := by
  cases s with
  | left => exact Iff.rfl
  | right =>
    refine and_congr ?_ and_comm
    exact cell_other (s := .right)

/-- The addresses above a hole and beside it. -/
def around (k : List (Frame Addr)) : List Addr := before k ++ after k

theorem around_cons (f : Frame Addr) (k : List (Frame Addr)) :
    (around (f :: k)).Perm (f.a :: f.sib.toList ++ around k) := by
  rw [around, before, after, around]
  cases f.side
  · simp only [Side.pick, List.append_nil]
    exact List.perm_append_comm_assoc ..
  · simp only [Side.pick, List.nil_append]
    rw [List.append_assoc]
    refine (List.perm_append_comm_assoc ..).trans ?_
    exact (List.perm_append_singleton f.a f.sib.toList).append_right _

theorem plug_perm (k : List (Frame Addr)) (t : RbTree Addr) :
    (plug k t).toList.Perm (around k ++ t.toList) := by
  rw [toList_plug, around, List.append_assoc, List.append_assoc]
  exact List.perm_append_comm.append_left _

theorem nodeOn_perm (s : Side) (c : Bool) (x y : RbTree Addr) (a : Addr) :
    (nodeOn s c x a y).toList.Perm (a :: (x.toList ++ y.toList)) := by
  rw [toList_nodeOn]
  cases s
  · exact List.perm_middle
  · exact List.perm_middle.trans (List.perm_append_comm.cons a)

/-- A tree and the nodes around it, taken apart. -/
theorem rep_plug {h : Heap} {k : List (Frame Addr)} {t : RbTree Addr} :
    h.rbNode = top (plug k t) ∧ Rep h 0 (plug k t) ↔ RepPath h (top t) k ∧ Rep h (above k) t := by
  induction k generalizing t with
  | nil => exact Iff.rfl
  | cons f k ih =>
    rw [plug_cons, ih, Frame.attach, rep_nodeOn, top_nodeOn, RepPath, above]
    constructor
    · rintro ⟨hpath, hcell, ht, hsib⟩
      exact ⟨⟨hcell, hsib, hpath⟩, ht⟩
    · rintro ⟨⟨hcell, hsib, hpath⟩, ht⟩
      exact ⟨hpath, hcell, ht, hsib⟩

theorem holds_plug {h : Heap} {k : List (Frame Addr)} {t : RbTree Addr} :
    Holds h (plug k t) ↔
      RepPath h (top t) k ∧ Rep h (above k) t ∧ (around k ++ t.toList).Nodup := by
  rw [← (plug_perm k t).nodup_iff, ← and_assoc, ← rep_plug]
  exact ⟨fun hh => ⟨⟨hh.root, hh.rep⟩, hh.nodup⟩, fun hh => ⟨hh.1.1, hh.1.2, hh.2⟩⟩

/-! ## What is elsewhere does not count -/

/-- Only the nodes in `l` may have changed. -/
def Keeps (l : List Addr) (h h' : Heap) : Prop := ∀ a : Addr, a ∉ l → h'.get a = h.get a

theorem Keeps.trans {l l' : List Addr} {h h' h'' : Heap} (hl : Keeps l h h') (hl' : Keeps l' h' h'') :
    Keeps (l ++ l') h h'' := by
  intro a ha
  rw [List.mem_append, not_or] at ha
  rw [hl' a ha.2, hl a ha.1]

theorem keeps_put (a : Addr) (n : RbNode) (h : Heap) : Keeps [a] h (h.put a n) := by
  intro b hb
  rw [Heap.get_put a.2.1, if_neg]
  intro hba
  exact hb (List.mem_singleton.mpr (Subtype.ext hba))

theorem Cell.keep {s : Side} {l : List Addr} {h h' : Heap} {p x y : Ptr} {c : Bool} {a : Addr}
    (hcell : Cell s h p c x a y) (hk : Keeps l h h') (ha : a ∉ l) : Cell s h' p c x a y := by
  obtain ⟨n, hn, hrest⟩ := hcell
  exact ⟨n, (hk a ha).trans hn, hrest⟩

theorem Rep.keep {l : List Addr} {h h' : Heap} {p : Ptr} {t : RbTree Addr} (ht : Rep h p t)
    (hk : Keeps l h h') (hl : t.toList.Disjoint l) : Rep h' p t := by
  induction t generalizing p with
  | nil => trivial
  | node c x a y ihx ihy =>
    rw [toList_node, List.disjoint_append_left, List.disjoint_cons_left] at hl
    obtain ⟨hcell, hx, hy⟩ := ht
    exact ⟨hcell.keep hk hl.2.1, ihx hx hl.1, ihy hy hl.2.2⟩

theorem RepPath.keep {l : List Addr} {h h' : Heap} {hole : Ptr} {k : List (Frame Addr)}
    (hp : RepPath h hole k) (hk : Keeps l h h') (hroot : h'.rbNode = h.rbNode)
    (hl : (around k).Disjoint l) : RepPath h' hole k := by
  induction k generalizing hole with
  | nil => exact hroot.trans hp
  | cons f k ih =>
    have hl : (f.a :: f.sib.toList ++ around k).Disjoint l :=
      fun a ha => hl ((around_cons f k).mem_iff.mpr ha)
    rw [List.disjoint_append_left, List.disjoint_cons_left] at hl
    obtain ⟨hcell, hsib, hpath⟩ := hp
    exact ⟨hcell.keep hk hl.1.1, hsib.keep hk hl.1.2, ih hpath hl.2⟩

end Blktrace.Rbtree
