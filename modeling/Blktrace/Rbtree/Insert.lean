import Blktrace.Lib.RedBlack
import Blktrace.Rbtree.Rotate

/-!
# A node is added

`rb_link_node` hangs a red node below a leaf, `rb_insert_color` mends what that breaks. The loop follows the
pointers up; in a tree whose root is black it never runs into `NULL`, and it stops.
-/

namespace Blktrace.Rbtree

open SearchTree
open SearchTree.RbTree hiding node

/-! ## The code -/

/-- `uncle && rb_is_red(uncle)`: the trouble moves two levels up. -/
def pushUp (uncle parent gparent : Ptr) (h : Heap) : Option (Ptr × Heap) := do
  let h ← h.modify uncle rbSetBlack
  let h ← h.modify parent rbSetBlack
  let h ← h.modify gparent rbSetRed
  return (gparent, h)

/-- The node on the inner side of its parent changes places with it. -/
def straighten (s : Side) (node parent : Ptr) (h : Heap) : Option (Ptr × Ptr × Heap) := do
  let p ← h.get parent
  if p.child s.other = node then
    let h ← rotate s parent h
    return (parent, node, h)
  else return (node, parent, h)

/-- The parent goes above the grandparent, and takes its colour. -/
def turnUp (s : Side) (parent gparent : Ptr) (h : Heap) : Option Heap := do
  let h ← h.modify parent rbSetBlack
  let h ← h.modify gparent rbSetRed
  rotate s.other gparent h

/-- The body of the loop, for a parent that is on the side `s` of the grandparent. -/
def insertStep (s : Side) (node parent gparent : Ptr) (h : Heap) : Option (Ptr × Heap) := do
  let g ← h.get gparent
  let uncle := g.child s.other
  if ← h.redAt uncle then pushUp uncle parent gparent h
  else
    let (node, parent, h) ← straighten s node parent h
    let h ← turnUp s parent gparent h
    return (node, h)

/-- `while ((parent = rb_parent(node)) && rb_is_red(parent))` -/
def insertLoop : ℕ → Ptr → Heap → Option Heap
  | 0, _, _ => none
  | fuel + 1, node, h => do
    let n ← h.get node
    let parent := rbParent n
    if ← h.redAt parent then
      let p ← h.get parent
      let gparent := rbParent p
      let g ← h.get gparent
      let (node, h) ← insertStep (if parent = g.rbLeft then .left else .right) node parent gparent h
      insertLoop fuel node h
    else return h

def rbInsertColor (fuel : ℕ) (node : Ptr) (h : Heap) : Option Heap := do
  let h ← insertLoop fuel node h
  h.modify h.rbNode rbSetBlack

/-- The node lies in memory that the caller has allocated. -/
def rbLinkNode (node parent : Ptr) (rbLink : Link) (h : Heap) : Option Heap :=
  if node = 0 then none else rbLink.write node (h.put node ⟨parent, 0, 0⟩)

/-! ## The steps -/

section

variable {h : Heap} {p g : Frame Addr} {k : List (Frame Addr)} {t : RbTree Addr}

/-- The tree above the hole, seen from the uncle. -/
theorem plug_sib (f : Frame Addr) (k : List (Frame Addr)) (t : RbTree Addr) :
    plug (f :: k) t = plug (⟨f.side.other, f.red, f.a, t⟩ :: k) f.sib :=
  congrArg (plug k) (nodeOn_other f.side f.red f.sib t f.a).symm

theorem nodeOn_ne_nil {s : Side} {c : Bool} {x y : RbTree Addr} {a : Addr} : nodeOn s c x a y ≠ nil := by
  intro h
  cases h

theorem ne_nil_of_isRed (h : t.isRed = true) : t ≠ nil := by
  rintro rfl
  cases h

theorem pushUp_spec (hh : Holds h (plug (p :: g :: k) t)) (huncle : g.sib.isRed = true) :
    ∃ h', pushUp (top g.sib) p.a g.a h = some (g.a.1, h') ∧
      Holds h' (plug k (nodeOn g.side true (nodeOn p.side false t p.a p.sib) g.a (g.sib.paint false))) := by
  rw [plug_cons, plug_sib] at hh
  obtain ⟨h₁, hs₁, hh₁⟩ := colours_rbSetBlack.holds hh (ne_nil_of_isRed huncle)
  have hh₁ : Holds h₁ (plug (⟨g.side, g.red, g.a, g.sib.paint false⟩ :: k) (p.attach t)) := by
    rw [plug_sib]
    exact hh₁
  obtain ⟨h₂, hs₂, hh₂⟩ := colours_rbSetBlack.holds hh₁ nodeOn_ne_nil
  obtain ⟨h₃, hs₃, hh₃⟩ := colours_rbSetRed.holds (k := k) hh₂ nodeOn_ne_nil
  refine ⟨h₃, ?_, hh₃⟩
  have hs₂ : h₁.modify p.a rbSetBlack = some h₂ := hs₂
  have hs₃ : h₂.modify g.a rbSetRed = some h₃ := hs₃
  simp only [pushUp, hs₁, hs₂, hs₃, Option.bind_eq_bind, Option.bind_some]
  rfl

theorem insertStep_pushUp (hh : Holds h (plug (p :: g :: k) t)) (huncle : g.sib.isRed = true) :
    ∃ h', insertStep g.side (top t) p.a g.a h = some (g.a.1, h') ∧
      Holds h' (plug k (nodeOn g.side true (nodeOn p.side false t p.a p.sib) g.a (g.sib.paint false))) := by
  obtain ⟨ng, hng, -, -, -, hsib⟩ := Holds.frame (k := k) (t := p.attach t) hh |>.get
  have huncle' : h.redAt (top g.sib) = some g.sib.isRed := by
    rw [plug_cons, plug_sib] at hh
    exact hh.redAt
  obtain ⟨h', hs, hh'⟩ := pushUp_spec hh huncle
  refine ⟨h', ?_, hh'⟩
  simp only [insertStep, hng, hsib, huncle', huncle, hs, if_true, Option.bind_eq_bind, Option.bind_some]

theorem turnUp_spec {c : Bool} {u z : RbTree Addr} {b : Addr}
    (hh : Holds h (plug (g :: k) (nodeOn g.side c u b z))) :
    ∃ h', turnUp g.side b g.a h = some h' ∧
      Holds h' (plug k (nodeOn g.side false u b (nodeOn g.side true z g.a g.sib))) := by
  obtain ⟨h₁, hs₁, hh₁⟩ := colours_rbSetBlack.holds hh nodeOn_ne_nil
  obtain ⟨h₂, hs₂, hh₂⟩ := colours_rbSetRed.holds (k := k) hh₁ nodeOn_ne_nil
  rw [Frame.attach, paint_nodeOn, paint_nodeOn, ← nodeOn_other, ← nodeOn_other g.side false] at hh₂
  obtain ⟨h₃, hs₃, hh₃⟩ := holds_rotate hh₂
  rw [nodeOn_other, nodeOn_other] at hh₃
  refine ⟨h₃, ?_, hh₃⟩
  have hs₁ : h.modify b rbSetBlack = some h₁ := hs₁
  have hs₂ : h₁.modify g.a rbSetRed = some h₂ := hs₂
  simp only [turnUp, hs₁, hs₂, hs₃, Option.bind_eq_bind, Option.bind_some]

/-- The loop ends at a node whose parent is not red. -/
def Ends (h : Heap) (p : Ptr) : Prop := ∃ n, h.get p = some n ∧ h.redAt (rbParent n) = some false

theorem Holds.ends (hh : Holds h (plug k t)) (ht : t ≠ nil) (hpath : ∀ f ∈ k.head?, f.red = false) :
    Ends h (top t) := by
  cases t with
  | nil => exact absurd rfl ht
  | node c l a r =>
    obtain ⟨n, hn, hp, -, -, -⟩ := (Holds.cell (s := .left) hh).get
    refine ⟨n, hn, ?_⟩
    rw [hp]
    cases k with
    | nil => exact if_pos rfl
    | cons f k =>
      have hred : h.redAt f.a = some f.red := Holds.redAt (k := k) hh
      rw [above, hred, hpath f rfl]

/-- The node that is on top after the turn is the parent for the last step. -/
theorem straighten_spec (hh : Holds h (plug (p :: g :: k) t)) (hred : t.isRed = true) (hp : p.red = true) :
    ∃ a b h' c u z, straighten g.side (top t) p.a h = some (a, b.1, h') ∧ top u = a ∧ u ≠ nil ∧
      Holds h' (plug (g :: k) (nodeOn g.side c u b z)) ∧
      turn p g t = nodeOn g.side false u b (nodeOn g.side true z g.a g.sib) := by
  obtain ⟨np, hnp, -, -, hchild, hother⟩ := hh.frame.get
  have hne := hh.top_ne (ne_nil_of_isRed hred)
  by_cases hside : p.side = g.side
  · refine ⟨top t, p.a, h, p.red, t, p.sib, ?_, rfl, ne_nil_of_isRed hred, ?_, turn_outer hside t⟩
    · rw [hside] at hother
      simp only [straighten, hnp, hother, Option.bind_eq_bind, Option.bind_some]
      rw [if_neg hne]
      rfl
    · rw [← hside]
      exact hh
  · cases t with
    | nil => cases hred
    | node c l b r =>
      obtain rfl : c = true := hred
      obtain ⟨x, y, hnode⟩ := exists_nodeOn g.side true l r b
      have hother' : p.side = g.side.other := Side.eq_other_of_ne hside
      rw [hnode] at hh ⊢
      rw [plug_cons, Frame.attach, hother', nodeOn_other] at hh
      obtain ⟨h', hs, hh'⟩ := holds_rotate hh
      refine ⟨p.a, b, h', true, nodeOn g.side p.red p.sib p.a x, y, ?_, rfl, nodeOn_ne_nil, hh', ?_⟩
      · rw [hother', top] at hchild
        simp only [straighten, hnp, hchild, top_nodeOn, hs, if_true, Option.bind_eq_bind, Option.bind_some]
        rfl
      · rw [hp]
        exact turn_inner hside true x y b

theorem insertStep_turn (hh : Holds h (plug (p :: g :: k) t)) (hred : t.isRed = true) (hp : p.red = true)
    (huncle : g.sib.isRed = false) :
    ∃ a h', insertStep g.side (top t) p.a g.a h = some (a, h') ∧ Holds h' (plug k (turn p g t)) ∧ Ends h' a := by
  obtain ⟨ng, hng, -, -, -, hsib⟩ := Holds.frame (k := k) (t := p.attach t) hh |>.get
  have huncle' : h.redAt (top g.sib) = some g.sib.isRed := by
    rw [plug_cons, plug_sib] at hh
    exact hh.redAt
  obtain ⟨a, b, h₁, c, u, z, hs₁, rfl, hu, hh₁, hturn⟩ := straighten_spec hh hred hp
  obtain ⟨h₂, hs₂, hh₂⟩ := turnUp_spec hh₁
  refine ⟨top u, h₂, ?_, ?_, ?_⟩
  · simp only [insertStep, hng, hsib, huncle', huncle, hs₁, hs₂, Option.bind_eq_bind, Option.bind_some]
    rfl
  · rw [hturn]
    exact hh₂
  · refine Holds.ends (k := ⟨g.side, false, b, nodeOn g.side true z g.a g.sib⟩ :: k) hh₂ hu ?_
    intro f hf
    obtain rfl := Option.some.inj hf
    rfl

end

/-! ## The loop -/

theorem insertLoop_of_ends {fuel : ℕ} {a : Ptr} {h : Heap} (ha : Ends h a) (hfuel : 0 < fuel) :
    insertLoop fuel a h = some h := by
  obtain ⟨fuel, rfl⟩ := Nat.exists_eq_add_one_of_ne_zero (Nat.ne_of_gt hfuel)
  obtain ⟨n, hn, hred⟩ := ha
  simp only [insertLoop, hn, hred, Option.bind_eq_bind, Option.bind_some]
  rfl

/-- One turn of the loop, below a red parent. -/
theorem insertLoop_step {fuel : ℕ} {h h' : Heap} {p g : Frame Addr} {k : List (Frame Addr)} {t : RbTree Addr}
    {a : Ptr} (hh : Holds h (plug (p :: g :: k) t)) (ht : t.isRed = true) (hp : p.red = true)
    (hstep : insertStep g.side (top t) p.a g.a h = some (a, h')) :
    insertLoop (fuel + 1) (top t) h = insertLoop fuel a h' := by
  cases t with
  | nil => cases ht
  | node c l b r =>
    obtain ⟨n, hn, hparent, -, -, -⟩ := (Holds.cell (s := .left) hh).get
    obtain ⟨np, hnp, hgparent, -, -, -⟩ := hh.frame.get
    obtain ⟨ng, hng, -, -, -, -⟩ := (Holds.frame (k := k) (t := p.attach (.node c l b r)) hh).get
    have hred : h.redAt p.a = some p.red := Holds.redAt (k := g :: k) (t := p.attach (.node c l b r)) hh
    have hside : (if p.a = ng.rbLeft then Side.left else Side.right) = g.side :=
      Holds.side_eq (k := k) (t := p.attach (.node c l b r)) hh
        (Holds.top_ne (k := k) (t := p.attach (.node c l b r)) hh nodeOn_ne_nil) hng
    rw [above] at hparent hgparent
    rw [top] at hstep ⊢
    simp only [insertLoop, hn, hparent, hred, hp, if_true, hnp, hgparent, hng, hside, hstep, Option.bind_eq_bind,
      Option.bind_some]

/-- **The loop does what `insertFix` says**, in any tree with a black root. -/
theorem insertLoop_spec {fuel : ℕ} {h : Heap} {k : List (Frame Addr)} {t : RbTree Addr}
    (hh : Holds h (plug k t)) (ht : t.isRed = true) (hroot : ∀ f ∈ k.getLast?, f.red = false)
    (hfuel : k.length + 4 ≤ 2 * fuel) :
    ∃ h', insertLoop fuel (top t) h = some h' ∧ Holds h' (insertFix k t) := by
  induction k, t using insertFix.induct generalizing fuel h with
  | case1 p g k t hp huncle ih =>
    obtain ⟨h', hs, hh'⟩ := insertStep_pushUp hh huncle
    obtain ⟨fuel, rfl⟩ := Nat.exists_eq_add_one_of_ne_zero (show fuel ≠ 0 by omega)
    rw [insertLoop_step hh ht hp hs, insertFix, if_pos hp, if_pos huncle]
    rw [List.length_cons, List.length_cons] at hfuel
    refine ih hh' rfl (fun f hf => hroot f ?_) (by omega)
    cases k with
    | nil => exact absurd hf (Option.not_mem_none f)
    | cons f' k => exact hf
  | case2 p g k t hp huncle =>
    obtain ⟨a, h', hs, hh', hends⟩ := insertStep_turn hh ht hp (Bool.eq_false_iff.mpr huncle)
    obtain ⟨fuel, rfl⟩ := Nat.exists_eq_add_one_of_ne_zero (show fuel ≠ 0 by omega)
    rw [List.length_cons, List.length_cons] at hfuel
    rw [insertLoop_step hh ht hp hs, insertFix, if_pos hp, if_neg huncle]
    exact ⟨h', insertLoop_of_ends hends (by omega), hh'⟩
  | case3 p g k t hp =>
    rw [insertFix, if_neg hp]
    refine ⟨h, insertLoop_of_ends (hh.ends (ne_nil_of_isRed ht) fun f hf => ?_) (by omega), hh⟩
    obtain rfl := Option.some.inj hf
    exact Bool.eq_false_iff.mpr hp
  | case4 k t hshort =>
    rw [insertFix.eq_2 k t hshort]
    refine ⟨h, insertLoop_of_ends (hh.ends (ne_nil_of_isRed ht) fun f hf => hroot f ?_) (by omega), hh⟩
    -- at most one node is above, so it is the root
    cases k with
    | nil => exact hf
    | cons f k =>
      cases k with
      | nil => exact hf
      | cons g k => exact absurd rfl (hshort f g k)

theorem insertFix_ne_nil (k : List (Frame Addr)) {t : RbTree Addr} (ht : t ≠ nil) : insertFix k t ≠ nil := by
  intro hnil
  have hlist := toList_insertFix k t
  rw [hnil] at hlist
  exact plug_ne_nil k ht (eq_nil_of_toList hlist.symm)

theorem rbInsertColor_spec {fuel : ℕ} {h : Heap} {k : List (Frame Addr)} {t : RbTree Addr}
    (hh : Holds h (plug k t)) (ht : t.isRed = true) (hroot : ∀ f ∈ k.getLast?, f.red = false)
    (hfuel : k.length + 4 ≤ 2 * fuel) :
    ∃ h', rbInsertColor fuel (top t) h = some h' ∧ Holds h' ((insertFix k t).paint false) := by
  obtain ⟨h₁, hs₁, hh₁⟩ := insertLoop_spec hh ht hroot hfuel
  obtain ⟨h₂, hs₂, hh₂⟩ := colours_rbSetBlack.holds (k := []) hh₁ (insertFix_ne_nil k (ne_nil_of_isRed ht))
  refine ⟨h₂, ?_, hh₂⟩
  simp only [rbInsertColor, hs₁, hh₁.root, hs₂, Option.bind_eq_bind, Option.bind_some]

/-! ## A new node -/

theorem rbLinkNode_spec {h : Heap} {k : List (Frame Addr)} {a : Addr} (hh : Holds h (plug k nil))
    (ha : a ∉ (plug k nil).toList) :
    ∃ h', rbLinkNode a (above k) (linkOf k) h = some h' ∧
      Holds h' (plug k (.node true nil a nil)) := by
  obtain ⟨hpath, -, hnodup⟩ := holds_plug.mp hh
  rw [toList_nil, List.append_nil] at hnodup
  have ha : a ∉ around k := fun hmem => ha ((plug_perm k nil).mem_iff.mpr (List.mem_append_left _ hmem))
  have hk := keeps_put a ⟨above k, 0, 0⟩ h
  obtain ⟨h', hs, hpath', hk'⟩ := (hpath.keep hk rfl (List.disjoint_singleton.mpr ha)).write a.1 hnodup
  refine ⟨h', (if_neg a.2.1).trans hs, holds_plug.mpr ⟨hpath', ⟨?_, trivial, trivial⟩, ?_⟩⟩
  · refine Cell.keep ⟨⟨above k, 0, 0⟩, ?_, (aligned_above k).and_mask, ?_, rfl, rfl⟩ hk' ha
    · rw [Heap.get_put a.2.1, if_pos rfl]
    · exact beq_iff_eq.mpr (aligned_above k).and_one
  · exact List.nodup_append.mpr ⟨hnodup, List.nodup_singleton a,
      fun b hb c hc heq => ha (List.mem_singleton.mp hc ▸ heq ▸ hb)⟩

end Blktrace.Rbtree
