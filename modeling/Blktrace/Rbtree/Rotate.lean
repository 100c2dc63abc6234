import Blktrace.Rbtree.Shape

/-!
# Rotations

The two rotations are mirror images of one function. It moves a child above its parent, with what hangs below
them, and leaves all other nodes alone.
-/

namespace Blktrace.Rbtree

open SearchTree SearchTree.RbTree

/-- `struct rb_node **`: where the pointer is that a node is linked to. -/
inductive Link
  | root
  | child (p : Ptr) (s : Side)

/-- `*rb_link = node` -/
def Link.write (node : Ptr) (h : Heap) : Link → Option Heap
  | .root => some { h with rbNode := node }
  | .child p s => h.modify p (RbNode.setChild s node)

namespace Heap

/-- `if (child) rb_set_parent(child, parent)` -/
def setParentOf (child parent : Ptr) (h : Heap) : Option Heap :=
  if child = 0 then some h else h.modify child (rbSetParent parent)

/-- The pointer to `old`, in the node above it or in the root, is made to point to `new`. The child on the side
`s` is compared; if it is not `old`, the other one is taken to be. -/
def relink (s : Side) (parent old new : Ptr) (h : Heap) : Option Heap :=
  if parent = 0 then some { h with rbNode := new }
  else do
    let p ← h.get parent
    if old = p.child s then h.modify parent (RbNode.setChild s new)
    else h.modify parent (RbNode.setChild s.other new)

end Heap

/-- Towards the side `s`: the child on the other side goes above. -/
def rotate (s : Side) (node : Ptr) (h : Heap) : Option Heap := do
  let n ← h.get node
  let right := n.child s.other
  let parent := rbParent n
  let inner := (← h.get right).child s
  let h ← h.modify node (RbNode.setChild s.other inner)
  let h ← h.setParentOf inner node
  let h ← h.modify right (RbNode.setChild s node)
  let h ← h.modify right (rbSetParent parent)
  let h ← h.relink s parent node right
  h.modify node (rbSetParent right)

def rbRotateLeft (node : Ptr) (h : Heap) : Option Heap := rotate .left node h
def rbRotateRight (node : Ptr) (h : Heap) : Option Heap := rotate .right node h

/-! ## One node -/

/-- A write that keeps where the node is. -/
theorem Cell.modify {s : Side} {h : Heap} {p p' x x' y y' : Ptr} {c c' : Bool} {a : Addr}
    (hcell : Cell s h p c x a y) (f : RbNode → RbNode)
    (hf : ∀ n, rbParent n = p → rbIsRed n = c → n.child s = x → n.child s.other = y →
      rbParent (f n) = p' ∧ rbIsRed (f n) = c' ∧ (f n).child s = x' ∧ (f n).child s.other = y') :
    ∃ h', h.modify a f = some h' ∧ Cell s h' p' c' x' a y' ∧ Keeps [a] h h' ∧ h'.rbNode = h.rbNode := by
  obtain ⟨n, hn, hp, hc, hx, hy⟩ := hcell
  refine ⟨h.put a (f n), Heap.modify_eq hn f, ⟨f n, ?_, hf n hp hc hx hy⟩, keeps_put a (f n) h, rfl⟩
  rw [Heap.get_put a.2.1, if_pos rfl]

theorem Cell.get {s : Side} {h : Heap} {p x y : Ptr} {c : Bool} {a : Addr} (hcell : Cell s h p c x a y) :
    ∃ n, h.get a = some n ∧ rbParent n = p ∧ rbIsRed n = c ∧ n.child s = x ∧ n.child s.other = y := hcell

@[simp] theorem child_rbSetParent (s : Side) (p : Ptr) (n : RbNode) : (rbSetParent p n).child s = n.child s := by
  cases s <;> rfl

/-- The node at the top of a tree gets a new parent. -/
theorem Rep.setParentOf {h : Heap} {p q : Ptr} {t : RbTree Addr} (ht : Rep h p t) (hq : Aligned q)
    (hnodup : t.toList.Nodup) :
    ∃ h', h.setParentOf (top t) q = some h' ∧ Rep h' q t ∧ Keeps t.toList h h' ∧ h'.rbNode = h.rbNode := by
  cases t with
  | nil => exact ⟨h, if_pos rfl, trivial, fun _ _ => rfl, rfl⟩
  | node c l a r =>
    obtain ⟨hcell, hl, hr⟩ := ht
    obtain ⟨h', hmod, hcell', hk, hroot⟩ := hcell.modify (rbSetParent q) fun n hp hc hx hy =>
      ⟨rbParent_rbSetParent hq n, (rbIsRed_eq_of_color (rbColor_rbSetParent hq n)).trans hc,
        (child_rbSetParent _ q n).trans hx, (child_rbSetParent _ q n).trans hy⟩
    have ha : a ∉ l.toList ++ r.toList := (List.nodup_cons.mp (List.perm_middle.nodup_iff.mp hnodup)).1
    rw [List.mem_append, not_or] at ha
    refine ⟨h', (if_neg a.2.1).trans hmod, ⟨hcell', hl.keep hk ?_, hr.keep hk ?_⟩, ?_, hroot⟩
    · exact List.disjoint_singleton.mpr ha.1
    · exact List.disjoint_singleton.mpr ha.2
    · intro b hb
      refine hk b fun hmem => hb ?_
      rw [List.mem_singleton.mp hmem]
      exact List.mem_append_right _ List.mem_cons_self

/-- The pointer in the hole. -/
def linkOf : List (Frame Addr) → Link
  | [] => .root
  | f :: _ => .child f.a f.side

/-- It is replaced. -/
theorem RepPath.write {h : Heap} {old : Ptr} {k : List (Frame Addr)} (hp : RepPath h old k) (new : Ptr)
    (hnodup : (around k).Nodup) :
    ∃ h', (linkOf k).write new h = some h' ∧ RepPath h' new k ∧ Keeps (around k) h h' := by
  cases k with
  | nil => exact ⟨{ h with rbNode := new }, rfl, rfl, fun _ _ => rfl⟩
  | cons f k =>
    obtain ⟨hcell, hsib, hpath⟩ := hp
    rw [(around_cons f k).nodup_iff, List.cons_append, List.nodup_cons, List.mem_append, not_or] at hnodup
    obtain ⟨⟨hasib, hapath⟩, -⟩ := hnodup
    obtain ⟨h', hmod, hcell', hk, hroot⟩ := hcell.modify (RbNode.setChild f.side new) fun m hm hc hx hy =>
      ⟨(RbNode.rbParent_setChild ..).trans hm, (RbNode.rbIsRed_setChild ..).trans hc, RbNode.child_setChild ..,
        (RbNode.child_setChild_other ..).trans hy⟩
    refine ⟨h', hmod, ⟨hcell', hsib.keep hk ?_, hpath.keep hk hroot ?_⟩, fun b hb => hk b fun hmem => hb ?_⟩
    · exact List.disjoint_singleton.mpr hasib
    · exact List.disjoint_singleton.mpr hapath
    · rw [List.mem_singleton.mp hmem]
      exact (around_cons f k).mem_iff.mpr List.mem_cons_self

/-- The code finds it by what it points to. -/
theorem RepPath.relink_eq {h : Heap} {old : Ptr} {k : List (Frame Addr)} (s : Side) (new : Ptr)
    (hp : RepPath h old k) (hold : ∀ f ∈ k.head?, top f.sib ≠ old) :
    h.relink s (above k) old new = (linkOf k).write new h := by
  cases k with
  | nil => exact if_pos rfl
  | cons f k =>
    have hsibold : top f.sib ≠ old := hold f rfl
    obtain ⟨n, hn, -, -, hx, hy⟩ := hp.1.get
    rw [Heap.relink, above, if_neg f.a.2.1, hn, Option.bind_eq_bind, Option.bind_some, linkOf, Link.write]
    by_cases hs : s = f.side
    · rw [hs, hx, if_pos rfl]
    · have hs : s = f.side.other := Side.eq_other_of_ne hs
      rw [hs, hy, if_neg hsibold.symm, Side.other_other]

theorem RepPath.relink {h : Heap} {old : Ptr} {k : List (Frame Addr)} (s : Side) (new : Ptr)
    (hp : RepPath h old k) (hnodup : (around k).Nodup) (hold : ∀ f ∈ k.head?, top f.sib ≠ old) :
    ∃ h', h.relink s (above k) old new = some h' ∧ RepPath h' new k ∧ Keeps (around k) h h' := by
  rw [hp.relink_eq s new hold]
  exact hp.write new hnodup

/-! ## The rotation -/

/-- A node that is not around the hole is not beside it. -/
theorem sib_ne_of_not_mem {k : List (Frame Addr)} {a : Addr} (ha : a ∉ around k) :
    ∀ f ∈ k.head?, top f.sib ≠ a := by
  cases k with
  | nil => exact fun f hf => nomatch hf
  | cons g k =>
    intro f hf hsib
    obtain rfl : g = f := Option.some.inj hf
    refine ha ((around_cons g k).mem_iff.mpr ?_)
    exact List.mem_append_left _ (List.mem_cons_of_mem _ (mem_of_top hsib))

theorem holds_rotate {s : Side} {h : Heap} {k : List (Frame Addr)} {c d : Bool} {x m y : RbTree Addr}
    {a b : Addr} (hh : Holds h (plug k (nodeOn s c x a (nodeOn s d m b y)))) :
    ∃ h', rotate s a h = some h' ∧ Holds h' (plug k (nodeOn s d (nodeOn s c x a m) b y)) := by
  obtain ⟨hpath, hrep, hnodup⟩ := holds_plug.mp hh
  rw [rep_nodeOn, rep_nodeOn] at hrep
  rw [top_nodeOn] at hpath
  obtain ⟨hcella, hx, hcellb, hm, hy⟩ := hrep
  have hperm : (around k ++ (nodeOn s c x a (nodeOn s d m b y)).toList).Perm
      (around k ++ a :: (x.toList ++ b :: (m.toList ++ y.toList))) :=
    ((nodeOn_perm ..).trans (((nodeOn_perm ..).append_left _).cons a)).append_left _
  have hnodup' := hperm.nodup_iff.mp hnodup
  have hperm' : (around k ++ (nodeOn s d (nodeOn s c x a m) b y).toList).Perm
      (around k ++ a :: (x.toList ++ b :: (m.toList ++ y.toList))) := by
    refine List.Perm.append_left _ ?_
    rw [toList_rotate s d c c d x m y a b]
    exact (nodeOn_perm ..).trans (((nodeOn_perm ..).append_left _).cons a)
  simp only [List.nodup_append, List.nodup_cons, List.mem_append, List.mem_cons, not_or] at hnodup'
  obtain ⟨na, hna, hnp, -, -, hnr⟩ := hcella.get
  obtain ⟨nb, hnb, -, -, hnm, -⟩ := hcellb.get
  -- the pointers to the inner tree and to the node itself
  obtain ⟨h₁, hs₁, hcella₁, hk₁, hroot₁⟩ := hcella.modify (RbNode.setChild s.other (top m)) fun n hp hc hl hr =>
    ⟨(RbNode.rbParent_setChild ..).trans hp, (RbNode.rbIsRed_setChild ..).trans hc,
      (RbNode.other_child_setChild ..).trans hl, RbNode.child_setChild ..⟩
  obtain ⟨h₂, hs₂, hm₂, hk₂, hroot₂⟩ :=
    (hm.keep hk₁ (by grind [List.Disjoint])).setParentOf a.2.2 (by grind)
  have hk : Keeps ([a] ++ m.toList) h h₂ := hk₁.trans hk₂
  obtain ⟨h₃, hs₃, hcellb₃, hk₃, hroot₃⟩ := (hcellb.keep hk (by grind)).modify (RbNode.setChild s a)
    fun n hp hc hl hr => ⟨(RbNode.rbParent_setChild ..).trans hp, (RbNode.rbIsRed_setChild ..).trans hc,
      RbNode.child_setChild .., (RbNode.child_setChild_other ..).trans hr⟩
  obtain ⟨h₄, hs₄, hcellb₄, hk₄, hroot₄⟩ := hcellb₃.modify (rbSetParent (above k)) fun n hp hc hl hr =>
    ⟨rbParent_rbSetParent (aligned_above k) n, (rbIsRed_eq_of_color (rbColor_rbSetParent (aligned_above k) n)).trans hc,
      (child_rbSetParent ..).trans hl, (child_rbSetParent ..).trans hr⟩
  have hk := ((hk.trans hk₃).trans hk₄)
  have hroot : h₄.rbNode = h.rbNode := by rw [hroot₄, hroot₃, hroot₂, hroot₁]
  obtain ⟨h₅, hs₅, hpath₅, hk₅⟩ := (hpath.keep hk hroot (by grind [List.Disjoint])).relink s b (by grind)
    (sib_ne_of_not_mem (by grind))
  obtain ⟨h₆, hs₆, hcella₆, hk₆, hroot₆⟩ := ((hcella₁.keep hk₂ (by grind)).keep ((hk₃.trans hk₄).trans hk₅)
    (by grind)).modify (rbSetParent b) fun n hp hc hl hr =>
    ⟨rbParent_rbSetParent b.2.2 n, (rbIsRed_eq_of_color (rbColor_rbSetParent b.2.2 n)).trans hc,
      (child_rbSetParent ..).trans hl, (child_rbSetParent ..).trans hr⟩
  have hkAll := (hk.trans hk₅).trans hk₆
  refine ⟨h₆, ?_, holds_plug.mpr ⟨hpath₅.keep hk₆ hroot₆ (by grind [List.Disjoint]), ?_, hperm'.nodup_iff.mpr (hperm.nodup_iff.mp hnodup)⟩⟩
  · unfold rotate
    rw [hna]
    simp only [Option.bind_eq_bind, Option.bind_some, hnr, top_nodeOn, hnb, hnm, hs₁, hs₂, hs₃, hs₄, hnp, hs₅, hs₆]
  · rw [rep_nodeOn, rep_nodeOn]
    refine ⟨(hcellb₄.keep hk₅ (by grind)).keep hk₆ (by grind), ⟨hcella₆, hx.keep hkAll (by grind [List.Disjoint]),
      (hm₂.keep ((hk₃.trans hk₄).trans hk₅) (by grind [List.Disjoint])).keep hk₆ (by grind [List.Disjoint])⟩, hy.keep hkAll (by grind [List.Disjoint])⟩

/-! ## Reading and colouring -/

theorem Holds.cell {s : Side} {h : Heap} {k : List (Frame Addr)} {c : Bool} {x y : RbTree Addr} {a : Addr}
    (hh : Holds h (plug k (nodeOn s c x a y))) : Cell s h (above k) c (top x) a (top y) :=
  (rep_nodeOn.mp (holds_plug.mp hh).2.1).1

theorem Holds.redAt {h : Heap} {k : List (Frame Addr)} {t : RbTree Addr} (hh : Holds h (plug k t)) :
    h.redAt (top t) = some t.isRed := by
  cases t with
  | nil => exact if_pos rfl
  | node c l a r =>
    obtain ⟨n, hn, -, hc, -, -⟩ := (Holds.cell (s := .left) hh).get
    rw [Heap.redAt, top, if_neg a.2.1, hn, Option.map_some, hc]
    rfl

/-- The node above the hole, as the hole is left. -/
theorem Holds.frame {h : Heap} {f : Frame Addr} {k : List (Frame Addr)} {t : RbTree Addr}
    (hh : Holds h (plug (f :: k) t)) : Cell f.side h (above k) f.red (top t) f.a (top f.sib) :=
  hh.cell

/-- What is in the hole is not what is beside it. -/
theorem Holds.top_ne {h : Heap} {f : Frame Addr} {k : List (Frame Addr)} {t : RbTree Addr}
    (hh : Holds h (plug (f :: k) t)) (ht : t ≠ nil) : top f.sib ≠ top t := by
  cases t with
  | nil => exact absurd rfl ht
  | node c l a r =>
    have hnodup := (holds_plug.mp hh).2.2
    have ha : a ∉ around (f :: k) := fun hmem =>
      (List.nodup_append.mp hnodup).2.2 a hmem a (List.mem_append_right _ List.mem_cons_self) rfl
    exact sib_ne_of_not_mem ha f rfl

/-- A node is on the left of its parent just if the hole is. -/
theorem Holds.side_eq {h : Heap} {f : Frame Addr} {k : List (Frame Addr)} {t : RbTree Addr} {n : RbNode}
    (hh : Holds h (plug (f :: k) t)) (ht : top f.sib ≠ top t) (hn : h.get f.a = some n) :
    (if top t = n.rbLeft then Side.left else Side.right) = f.side := by
  obtain ⟨n', hn', -, -, hx, hy⟩ := hh.frame.get
  obtain rfl := Option.some.inj (hn.symm.trans hn')
  cases hs : f.side with
  | left =>
    rw [hs] at hx
    exact if_pos hx.symm
  | right =>
    rw [hs] at hy
    exact if_neg fun heq => ht (hy.symm.trans heq.symm)

/-- A write that changes the colour only. -/
structure Colours (f : RbNode → RbNode) (red : Bool) : Prop where
  parent : ∀ n, rbParent (f n) = rbParent n
  isRed : ∀ n, rbIsRed (f n) = red
  child : ∀ s n, (f n).child s = n.child s

theorem colours_rbSetRed : Colours rbSetRed true :=
  ⟨rbParent_rbSetRed, rbIsRed_rbSetRed, fun s _ => by cases s <;> rfl⟩

theorem colours_rbSetBlack : Colours rbSetBlack false :=
  ⟨rbParent_rbSetBlack, rbIsRed_rbSetBlack, fun s _ => by cases s <;> rfl⟩

theorem colours_rbSetColor (m : RbNode) : Colours (rbSetColor (rbColor m)) (rbIsRed m) :=
  ⟨rbParent_rbSetColor m, fun n => rbIsRed_eq_of_color (rbColor_rbSetColor m n), fun s _ => by cases s <;> rfl⟩

theorem Colours.holds {f : RbNode → RbNode} {red : Bool} (hf : Colours f red) {h : Heap}
    {k : List (Frame Addr)} {t : RbTree Addr} (hh : Holds h (plug k t)) (ht : t ≠ nil) :
    ∃ h', h.modify (top t) f = some h' ∧ Holds h' (plug k (t.paint red)) := by
  cases t with
  | nil => exact absurd rfl ht
  | node c l a r =>
    obtain ⟨hpath, ⟨hcell, hl, hr⟩, hnodup⟩ := holds_plug.mp hh
    obtain ⟨h', hmod, hcell', hk, hroot⟩ := hcell.modify f fun n hp _ hx hy =>
      ⟨(hf.parent n).trans hp, hf.isRed n, (hf.child _ n).trans hx, (hf.child _ n).trans hy⟩
    refine ⟨h', hmod, holds_plug.mpr ⟨hpath.keep hk hroot ?_, ⟨hcell', hl.keep hk ?_, hr.keep hk ?_⟩, hnodup⟩⟩
    all_goals
      rw [toList_node] at hnodup
      have hnodup := (List.perm_middle.append_left _).nodup_iff.mp hnodup
      simp only [List.nodup_append, List.nodup_cons, List.mem_append, List.mem_cons, not_or] at hnodup
      exact List.disjoint_singleton.mpr (by grind)

end Blktrace.Rbtree
