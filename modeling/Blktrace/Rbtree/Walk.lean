import Blktrace.Rbtree.Erase

/-!
# The order of the nodes

`rb_first` and `rb_next` go through the tree from left to right, `rb_last` and `rb_prev` from right to left. Both
ways are one function, seen from the side that they go to.
-/

namespace Blktrace.Rbtree

open SearchTree
open SearchTree.RbTree hiding node

/-! ## The code -/

/-- The outermost node on a side; 0 where the tree is empty. -/
def rbEnd (s : Side) (fuel : ℕ) (h : Heap) : Option Ptr :=
  if h.rbNode = 0 then some 0 else outermostNode s fuel h.rbNode h

def rbFirst (fuel : ℕ) (h : Heap) : Option Ptr := rbEnd .left fuel h
def rbLast (fuel : ℕ) (h : Heap) : Option Ptr := rbEnd .right fuel h

/-- `while ((parent = rb_parent(node)) && node == parent->rb_right) node = parent;` for the right side. -/
def climb (s : Side) : ℕ → Ptr → Heap → Option Ptr
  | 0, _, _ => none
  | fuel + 1, node, h => do
    let n ← h.get node
    let parent := rbParent n
    if parent = 0 then return 0
    else
      let p ← h.get parent
      if node = p.child s then climb s fuel parent h else return parent

/-- The neighbour of a node towards the side `s`. -/
def neighbour (s : Side) (fuel : ℕ) (node : Ptr) (h : Heap) : Option Ptr := do
  let n ← h.get node
  if rbParent n = node then return 0
  else if n.child s ≠ 0 then outermostNode s.other fuel (n.child s) h
  else climb s fuel node h

def rbNext (fuel : ℕ) (node : Ptr) (h : Heap) : Option Ptr := neighbour .right fuel node h
def rbPrev (fuel : ℕ) (node : Ptr) (h : Heap) : Option Ptr := neighbour .left fuel node h

/-- `for (n = first; n; n = rb_next(n))`: the nodes that are passed. -/
def walk (s : Side) (fuel : ℕ) : ℕ → Ptr → Heap → Option (List Ptr)
  | 0, _, _ => none
  | turns + 1, p, h =>
    if p = 0 then some []
    else do
      let q ← neighbour s fuel p h
      let l ← walk s fuel turns q h
      return p :: l

/-- The surroundings of `victim` point to `new`, which becomes a copy of it. -/
def rbReplaceNode (victim new : Ptr) (h : Heap) : Option Heap := do
  let v ← h.get victim
  let h ← h.relink .left (rbParent v) victim new
  let v ← h.get victim
  let h ← h.setParentOf v.rbLeft new
  let v ← h.get victim
  let h ← h.setParentOf v.rbRight new
  let v ← h.get victim
  h.modify new fun _ => v

/-! ## The order, seen from a side -/

section

variable {α : Type*}

/-- The nodes on the way to the side `s`. -/
def along (s : Side) (t : RbTree α) : List α := s.pick t.toList.reverse t.toList

/-- Those behind the hole on that way. -/
def beyond (s : Side) : List (Frame α) → List α
  | [] => []
  | f :: k => if f.side = s then beyond s k else f.a :: along s f.sib ++ beyond s k

/-- Those before it. -/
def behind (s : Side) : List (Frame α) → List α
  | [] => []
  | f :: k => if f.side = s then behind s k ++ along s f.sib ++ [f.a] else behind s k

theorem along_nodeOn (s : Side) (c : Bool) (x y : RbTree α) (a : α) :
    along s (nodeOn s c x a y) = along s y ++ a :: along s x := by
  cases s <;> simp [along, nodeOn, Side.pick]

theorem along_plug (s : Side) (k : List (Frame α)) (t : RbTree α) :
    along s (plug k t) = behind s k ++ along s t ++ beyond s k := by
  induction k generalizing t with
  | nil => exact (List.append_nil _).symm
  | cons f k ih =>
    rw [plug_cons, ih, Frame.attach, beyond, behind]
    by_cases hs : f.side = s
    · rw [hs, along_nodeOn, if_pos rfl, if_pos rfl]
      simp
    · rw [Side.eq_other_of_ne hs, nodeOn_other, along_nodeOn, if_neg (Side.other_ne s), if_neg (Side.other_ne s)]
      simp

theorem along_eq_nil {s : Side} {t : RbTree α} : along s t = [] ↔ t = nil := by
  constructor
  · intro h
    refine eq_nil_of_toList ?_
    cases s with
    | left => exact List.reverse_eq_nil_iff.mp h
    | right => exact h
  · rintro rfl
    cases s <;> rfl

/-- Nothing comes before the outermost node on the other side. -/
theorem behind_outermost {s : Side} {fs : List (Frame α)} (h : ∀ f ∈ fs, f.side = s.other) : behind s fs = [] := by
  induction fs with
  | nil => rfl
  | cons f fs ih =>
    obtain ⟨hf, hfs⟩ := List.forall_mem_cons.mp h
    rw [behind, hf, if_neg (Side.other_ne s), ih hfs]

theorem mem_along {s : Side} {t : RbTree α} {a : α} : a ∈ along s t ↔ a ∈ t.toList := by
  cases s with
  | left => exact List.mem_reverse
  | right => exact Iff.rfl

theorem nodup_along {s : Side} {t : RbTree α} : (along s t).Nodup ↔ t.toList.Nodup := by
  cases s with
  | left => exact List.nodup_reverse
  | right => exact Iff.rfl

/-- A node somewhere in the tree, with the tree around it. -/
theorem exists_plug [DecidableEq α] (s : Side) {t : RbTree α} {a : α} (ha : a ∈ t.toList) :
    ∃ k c x y, t = plug k (nodeOn s c x a y) := by
  cases hway : t.locate a [] with
  | none => exact absurd ha (locate_eq_none.mp hway)
  | some found =>
    obtain ⟨k, t'⟩ := found
    obtain ⟨hplug, c, l, r, rfl⟩ := locate_spec hway
    obtain ⟨x, y, hnode⟩ := exists_nodeOn s c l r a
    exact ⟨k, c, x, y, hnode ▸ hplug.symm⟩

end

/-- A pointer to the first node of a list. -/
def headPtr : List Addr → Ptr
  | [] => 0
  | a :: _ => a

/-! ## The walk -/

section

variable {s : Side} {fuel : ℕ} {h : Heap} {k : List (Frame Addr)} {t : RbTree Addr}

theorem above_ne {c : Bool} {x y : RbTree Addr} {a : Addr} (hh : Holds h (plug k (nodeOn s c x a y))) :
    above k ≠ a := by
  have hnodup := (holds_plug.mp hh).2.2
  cases k with
  | nil => exact a.2.1.symm
  | cons f k =>
    intro heq
    have hf : f.a = a := Subtype.ext heq
    rw [List.nodup_append] at hnodup
    refine hnodup.2.2 a ?_ a ((nodeOn_perm ..).mem_iff.mpr List.mem_cons_self) rfl
    rw [← hf]
    exact (around_cons f k).mem_iff.mpr List.mem_cons_self

/-- **Up** to the first node that the way comes back to. -/
theorem climb_spec (hh : Holds h (plug k t)) (ht : t ≠ nil) (hfuel : k.length < fuel) :
    climb s fuel (top t) h = some (headPtr (beyond s k)) := by
  induction k generalizing fuel t with
  | nil =>
    obtain ⟨fuel, rfl⟩ := Nat.exists_eq_add_one_of_ne_zero (Nat.ne_of_gt hfuel)
    cases t with
    | nil => exact absurd rfl ht
    | node c l a r =>
      obtain ⟨n, hn, hp, -, -, -⟩ := (Holds.cell (s := .left) hh).get
      have hp : rbParent n = 0 := hp
      rw [top]
      simp only [climb, hn, hp, if_true, Option.bind_eq_bind, Option.bind_some]
      rfl
  | cons f k ih =>
    obtain ⟨fuel, rfl⟩ := Nat.exists_eq_add_one_of_ne_zero (Nat.ne_of_gt (Nat.zero_lt_of_lt hfuel))
    obtain ⟨np, hnp, -, -, hx, hy⟩ := hh.frame.get
    have hne := hh.top_ne ht
    rw [List.length_cons] at hfuel
    have hup := ih hh nodeOn_ne_nil (Nat.lt_of_succ_lt_succ hfuel)
    rw [Frame.attach, top_nodeOn] at hup
    cases t with
    | nil => exact absurd rfl ht
    | node c l a r =>
      obtain ⟨n, hn, hp, -, -, -⟩ := (Holds.cell (s := .left) hh).get
      have hp : rbParent n = f.a := hp
      rw [top] at hx hne ⊢
      rw [beyond]
      by_cases hs : f.side = s
      · rw [hs] at hx
        simp only [climb, hn, hp, f.a.2.1, if_false, hnp, hx, if_true, hs, hup, Option.bind_eq_bind, Option.bind_some]
      · have hs : f.side = s.other := Side.eq_other_of_ne hs
        rw [hs, Side.other_other] at hy
        simp only [climb, hn, hp, f.a.2.1, if_false, hnp, hy, hne.symm, hs, Side.other_ne, Option.bind_eq_bind,
          Option.bind_some]
        rfl

/-- **Down** to the outermost one on the other side. -/
theorem outermostNode_eq {p : Ptr} (hrep : Rep h p t) (ht : t ≠ nil) (hfuel : t.depth ≤ fuel) :
    outermostNode s.other fuel (top t) h = some (headPtr (along s t)) := by
  obtain ⟨fs, c, b, y, -, hside, rfl⟩ := outermost_spec s.other [] ht
  have hdepth := length_add_depth_le fs (nodeOn s.other c nil b y)
  have hpos : 0 < (nodeOn s.other c nil b y).depth := Nat.succ_pos _
  rw [outermostNode_spec hrep hside (by omega), along_plug, behind_outermost hside, nodeOn_other, along_nodeOn,
    along_eq_nil.mpr rfl]
  rfl

/-- The ends. -/
theorem rbEnd_spec (hh : Holds h t) (hfuel : t.depth ≤ fuel) : rbEnd s.other fuel h = some (headPtr (along s t)) := by
  rw [rbEnd, hh.root]
  by_cases ht : t = nil
  · rw [if_pos (top_eq_zero.mpr ht), along_eq_nil.mpr ht]
    rfl
  · rw [if_neg fun h => ht (top_eq_zero.mp h)]
    exact outermostNode_eq hh.rep ht hfuel

/-- **The neighbour** of a node is the next one on the way. -/
theorem neighbour_spec {a : Addr} {l l' : List Addr} (hh : Holds h t) (hlist : along s t = l ++ a :: l')
    (hfuel : t.depth < fuel) : neighbour s fuel a h = some (headPtr l') := by
  have ha : a ∈ t.toList := mem_along.mp (hlist ▸ List.mem_append_right l List.mem_cons_self)
  obtain ⟨k, c, x, y, rfl⟩ := exists_plug s ha
  -- the node is at one place only
  have hsplit : along s (plug k (nodeOn s c x a y)) =
      (behind s k ++ along s y) ++ a :: (along s x ++ beyond s k) := by
    rw [along_plug, along_nodeOn]
    simp
  have hnodup := (nodup_along (s := s)).mpr hh.nodup
  have hl' : along s x ++ beyond s k = l' := by
    rw [hlist] at hnodup
    have hnot := (List.nodup_cons.mp (List.perm_middle.nodup_iff.mp hnodup)).1
    rw [hlist, List.append_cons_inj_of_notMem] at hsplit
    · exact hsplit.2.2.symm
    · exact fun h => hnot (List.mem_append_left _ h)
    · exact fun h => hnot (List.mem_append_right _ h)
  obtain ⟨n, hn, hp, -, hx, -⟩ := hh.cell.get
  have hparent : rbParent n ≠ a := by
    rw [hp]
    exact above_ne hh
  have hdepth := length_add_depth_le k (nodeOn s c x a y)
  by_cases hxnil : x = nil
  · have hup := climb_spec (s := s) hh nodeOn_ne_nil (show k.length < fuel by omega)
    have hx : n.child s = 0 := hx.trans (top_eq_zero.mpr hxnil)
    rw [← hl', along_eq_nil.mpr hxnil, List.nil_append]
    simp only [neighbour, hn, hparent, if_false, hx, Option.bind_eq_bind, Option.bind_some]
    exact hup
  · have hx0 : top x ≠ 0 := fun h => hxnil (top_eq_zero.mp h)
    have hxdepth : x.depth ≤ (nodeOn s c x a y).depth := by
      rw [nodeOn, depth]
      cases s
      · exact Nat.le_succ_of_le (le_max_left _ _)
      · exact Nat.le_succ_of_le (le_max_right _ _)
    have hdown := outermostNode_eq (s := s) (rep_nodeOn.mp (holds_plug.mp hh).2.1).2.1 hxnil
      (show x.depth ≤ fuel by omega)
    simp only [neighbour, hn, hparent, if_false, hx, hx0, ne_eq, not_false_iff, if_true, hdown, Option.bind_eq_bind,
      Option.bind_some]
    rw [← hl']
    cases hhead : along s x with
    | nil => exact absurd (along_eq_nil.mp hhead) hxnil
    | cons b m => rfl

/-- **The walk** from one end passes all nodes in order. -/
theorem walk_spec {turns : ℕ} {l l' : List Addr} (hh : Holds h t) (hlist : along s t = l ++ l')
    (hfuel : t.depth < fuel) (hturns : l'.length < turns) :
    walk s fuel turns (headPtr l') h = some (l'.map (·.1)) := by
  induction l' generalizing l turns with
  | nil =>
    obtain ⟨turns, rfl⟩ := Nat.exists_eq_add_one_of_ne_zero (Nat.ne_of_gt hturns)
    rfl
  | cons a l' ih =>
    obtain ⟨turns, rfl⟩ := Nat.exists_eq_add_one_of_ne_zero (Nat.ne_of_gt (Nat.zero_lt_of_lt hturns))
    have hnext := neighbour_spec hh hlist hfuel
    have hrest := ih (hlist.trans (List.append_cons l a l')) (Nat.lt_of_succ_lt_succ hturns)
    rw [walk, headPtr, if_neg a.2.1]
    simp only [hnext, hrest, Option.bind_eq_bind, Option.bind_some]
    rfl

end

/-! ## A node is replaced -/

/-- `rb_replace_node` changes the name of a node, and nothing else. -/
theorem rbReplaceNode_spec {h : Heap} {k : List (Frame Addr)} {c : Bool} {a b : Addr} {l r : RbTree Addr} {m : RbNode}
    (hh : Holds h (plug k (.node c l a r))) (hb : b ∉ (plug k (.node c l a r)).toList) (hm : h.get b = some m) :
    ∃ h', rbReplaceNode a b h = some h' ∧ Holds h' (plug k (.node c l b r)) := by
  obtain ⟨o, ho, -, -, -, -⟩ := (Holds.cell (s := .left) hh).get
  obtain ⟨h₂, h₃, h₄, hs₂, ho₂, hs₃, ho₃, hs₄, ho₄, hb₄, hpath₄, hl₄, hr₄⟩ := hh.surround hb ho
  have hbk : b ∉ around k ∧ b ∉ l.toList ∧ b ∉ r.toList := by
    rw [(plug_perm k _).mem_iff, toList_node] at hb
    simp only [List.mem_append, List.mem_cons, not_or] at hb
    exact ⟨hb.1, hb.2.1, hb.2.2.2⟩
  have hk := keeps_put b o h₄
  refine ⟨h₄.put b o, ?_, hh.renamed hb ho (hpath₄.keep hk rfl (List.disjoint_singleton.mpr hbk.1))
    (hl₄.keep hk (List.disjoint_singleton.mpr hbk.2.1)) (hr₄.keep hk (List.disjoint_singleton.mpr hbk.2.2)) ?_⟩
  · simp only [rbReplaceNode, ho, hs₂, ho₂, hs₃, ho₃, hs₄, ho₄, Option.bind_eq_bind, Option.bind_some]
    exact Heap.modify_eq (hb₄.trans hm) fun _ => o
  · rw [Heap.get_put b.2.1, if_pos rfl]

end Blktrace.Rbtree
