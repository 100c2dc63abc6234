import Blktrace.Lib.RedBlackErase
import Blktrace.Rbtree.Insert

/-!
# A node is erased

`rb_erase` unlinks the node, or the next one that then takes its place; `__rb_erase_color` makes up for a black
one that is gone. A red-black tree has a sibling wherever the code reads one.
-/

namespace Blktrace.Rbtree

open SearchTree
open SearchTree.RbTree hiding node

/-! ## The code -/

/-- `if (p) rb_set_black(p)` -/
def Heap.setBlackOf (p : Ptr) (h : Heap) : Option Heap := if p = 0 then some h else h.modify p rbSetBlack

/-- `(!l || rb_is_black(l)) && (!r || rb_is_black(r))` -/
def Heap.bothBlack (h : Heap) (l r : Ptr) : Option Bool := do
  if ← h.redAt l then return false
  else
    let red ← h.redAt r
    return !red

/-- A red sibling is rotated above the parent. -/
def liftSibling (s : Side) (parent other : Ptr) (h : Heap) : Option (Ptr × Heap) := do
  let o ← h.get other
  if rbIsRed o then
    let h ← h.modify other rbSetBlack
    let h ← h.modify parent rbSetRed
    let h ← rotate s parent h
    let p ← h.get parent
    return (p.child s.other, h)
  else return (other, h)

/-- The red child of the sibling is on the inner side, and changes places with it. -/
def turnSibling (s : Side) (parent other : Ptr) (h : Heap) : Option (Ptr × Heap) := do
  let o ← h.get other
  if ← h.redAt (o.child s.other) then return (other, h)
  else
    let h ← h.setBlackOf (o.child s)
    let h ← h.modify other rbSetRed
    let h ← rotate s.other other h
    let p ← h.get parent
    return (p.child s.other, h)

/-- The sibling goes above the parent, and the loop is left. -/
def raiseSibling (s : Side) (parent other : Ptr) (h : Heap) : Option Heap := do
  let p ← h.get parent
  let h ← h.modify other (rbSetColor (rbColor p))
  let h ← h.modify parent rbSetBlack
  let o ← h.get other
  let h ← h.setBlackOf (o.child s.other)
  rotate s parent h

/-- What is done with a black sibling; the flag says that the loop goes on. -/
def settle (s : Side) (parent other : Ptr) (h : Heap) : Option (Bool × Heap) := do
  let o ← h.get other
  if ← h.bothBlack o.rbLeft o.rbRight then
    let h ← h.modify other rbSetRed
    return (true, h)
  else
    let (other, h) ← turnSibling s parent other h
    let h ← raiseSibling s parent other h
    return (false, h)

/-- The body of the loop, for a node that is on the side `s` of its parent. -/
def eraseStep (s : Side) (parent : Ptr) (h : Heap) : Option (Bool × Heap) := do
  let p ← h.get parent
  let (other, h) ← liftSibling s parent (p.child s.other) h
  settle s parent other h

/-- `while ((!node || rb_is_black(node)) && node != root->rb_node)`: the node where it ends. -/
def eraseLoop : ℕ → Ptr → Ptr → Heap → Option (Ptr × Heap)
  | 0, _, _, _ => none
  | fuel + 1, node, parent, h => do
    if ← h.redAt node then return (node, h)
    else if node = h.rbNode then return (node, h)
    else
      let p ← h.get parent
      match ← eraseStep (if node = p.rbLeft then .left else .right) parent h with
      | (true, h) =>
        let n ← h.get parent
        eraseLoop fuel parent (rbParent n) h
      | (false, h) => return (h.rbNode, h)

def rbEraseColor (fuel : ℕ) (node parent : Ptr) (h : Heap) : Option Heap := do
  let (node, h) ← eraseLoop fuel node parent h
  h.setBlackOf node

/-- `while (node->rb_left) node = node->rb_left;`, and its mirror image. -/
def outermostNode (s : Side) : ℕ → Ptr → Heap → Option Ptr
  | 0, _, _ => none
  | fuel + 1, p, h => do
    let n ← h.get p
    if n.child s = 0 then return p else outermostNode s fuel (n.child s) h

/-- A node that has one child at most. -/
def eraseOne (fuel : ℕ) (node child : Ptr) (h : Heap) : Option Heap := do
  let n ← h.get node
  let parent := rbParent n
  let color := rbColor n
  let h ← h.setParentOf child parent
  let h ← h.relink .left parent node child
  if color = RB_BLACK then rbEraseColor fuel child parent h else return h

/-- The next node leaves its place to its child. The parent of that is the node itself where it is going to
stand just above. -/
def unhook (old node : Ptr) (h : Heap) : Option (Ptr × Heap) := do
  let n ← h.get node
  let h ← h.setParentOf n.rbRight (rbParent n)
  if rbParent n = old then
    let h ← h.modify old (RbNode.setChild .right n.rbRight)
    return (node, h)
  else
    let h ← h.modify (rbParent n) (RbNode.setChild .left n.rbRight)
    return (rbParent n, h)

/-- It takes the place, the children and the colour of `old`. -/
def takePlace (old node : Ptr) (h : Heap) : Option Heap := do
  let o ← h.get old
  let h ← h.modify node fun _ => o
  let h ← h.relink .left (rbParent o) old node
  let o ← h.get old
  let h ← h.modify o.rbLeft (rbSetParent node)
  let o ← h.get old
  h.setParentOf o.rbRight node

/-- A node that has two children. -/
def eraseTwo (fuel : ℕ) (old : Ptr) (h : Heap) : Option Heap := do
  let o ← h.get old
  let node ← outermostNode .left fuel o.rbRight h
  let n ← h.get node
  let (parent, h) ← unhook old node h
  let h ← takePlace old node h
  if rbColor n = RB_BLACK then rbEraseColor fuel n.rbRight parent h else return h

def rbErase (fuel : ℕ) (node : Ptr) (h : Heap) : Option Heap := do
  let n ← h.get node
  if n.rbLeft = 0 then eraseOne fuel node n.rbRight h
  else if n.rbRight = 0 then eraseOne fuel node n.rbLeft h
  else eraseTwo fuel node h

/-! ## One turn of the loop -/

section

variable {h : Heap} {f : Frame Addr} {k : List (Frame Addr)} {t near far : RbTree Addr} {o : Addr}

theorem Holds.setBlackOf (hh : Holds h (plug k t)) :
    ∃ h', h.setBlackOf (top t) = some h' ∧ Holds h' (plug k (t.paint false)) := by
  cases t with
  | nil => exact ⟨h, if_pos rfl, hh⟩
  | node c l a r =>
    obtain ⟨h', hs, hh'⟩ := colours_rbSetBlack.holds hh (node_ne_nil c l r a)
    exact ⟨h', (if_neg a.2.1).trans hs, hh'⟩

/-- The children of a node, in the order in which they are asked for their colour. -/
theorem Holds.bothBlack {s : Side} {c : Bool} {a : Addr} {n : RbNode}
    (hh : Holds h (plug k (nodeOn s c near a far))) (hn : h.get a = some n) :
    h.bothBlack n.rbLeft n.rbRight = some (!near.isRed && !far.isRed) := by
  obtain ⟨n', hn', -, -, hx, hy⟩ := hh.cell.get
  obtain rfl := Option.some.inj (hn.symm.trans hn')
  have hnear : h.redAt (n.child s) = some near.isRed := by
    rw [hx]
    exact Holds.redAt (k := ⟨s, c, a, far⟩ :: k) hh
  have hfar : h.redAt (n.child s.other) = some far.isRed := by
    rw [hy]
    refine Holds.redAt (k := ⟨s.other, c, a, near⟩ :: k) ?_
    rw [plug_cons, Frame.attach, nodeOn_other]
    exact hh
  cases s with
  | left =>
    have hl : h.redAt n.rbLeft = some near.isRed := hnear
    have hr : h.redAt n.rbRight = some far.isRed := hfar
    simp only [Heap.bothBlack, hl, hr, Option.bind_eq_bind, Option.bind_some]
    cases near.isRed <;> rfl
  | right =>
    have hr : h.redAt n.rbRight = some near.isRed := hnear
    have hl : h.redAt n.rbLeft = some far.isRed := hfar
    simp only [Heap.bothBlack, hl, hr, Option.bind_eq_bind, Option.bind_some]
    cases far.isRed <;> cases near.isRed <;> rfl

/-- The tree with the sibling in the hole. -/
theorem plug_nodeOn_sib {f : Frame Addr} {c : Bool} (hsib : f.sib = nodeOn f.side c near o far) :
    plug (f :: k) t = plug (⟨f.side.other, f.red, f.a, t⟩ :: k) (nodeOn f.side c near o far) := by
  rw [← hsib]
  exact plug_sib f k t

theorem raiseSibling_spec {c : Bool} (hh : Holds h (plug (f :: k) t)) (hsib : f.sib = nodeOn f.side c near o far) :
    ∃ h', raiseSibling f.side f.a o h = some h' ∧
      Holds h' (plug k (nodeOn f.side f.red (nodeOn f.side false t f.a near) o (far.paint false))) := by
  obtain ⟨np, hnp, -, hpc, -, -⟩ := hh.frame.get
  rw [plug_nodeOn_sib hsib] at hh
  obtain ⟨h₁, hs₁, hh₁⟩ := (colours_rbSetColor np).holds hh nodeOn_ne_nil
  rw [hpc, paint_nodeOn, plug_cons, Frame.attach] at hh₁
  obtain ⟨h₂, hs₂, hh₂⟩ := colours_rbSetBlack.holds (k := k) hh₁ nodeOn_ne_nil
  rw [paint_nodeOn, nodeOn_other] at hh₂
  -- the far child of the sibling, which the rotation leaves where it is
  have hfocus : ∀ far : RbTree Addr, plug k (nodeOn f.side false t f.a (nodeOn f.side f.red near o far)) =
      plug (⟨f.side.other, f.red, o, near⟩ :: ⟨f.side.other, false, f.a, t⟩ :: k) far := by
    intro far
    rw [plug_cons, Frame.attach, nodeOn_other, plug_cons, Frame.attach, nodeOn_other]
  obtain ⟨no, hno, -, -, -, hfar⟩ := (Holds.cell (k := ⟨f.side.other, false, f.a, t⟩ :: k)
    (s := f.side) (c := f.red) (x := near) (y := far) (a := o) (by
      rw [plug_cons, Frame.attach, nodeOn_other]
      exact hh₂)).get
  rw [hfocus] at hh₂
  obtain ⟨h₃, hs₃, hh₃⟩ := hh₂.setBlackOf
  rw [← hfocus] at hh₃
  obtain ⟨h₄, hs₄, hh₄⟩ := holds_rotate hh₃
  refine ⟨h₄, ?_, hh₄⟩
  have hs₁ : h.modify o (rbSetColor (rbColor np)) = some h₁ := hs₁
  have hs₂ : h₁.modify f.a rbSetBlack = some h₂ := hs₂
  simp only [raiseSibling, hnp, hs₁, hs₂, hno, hfar, hs₃, hs₄, Option.bind_eq_bind, Option.bind_some]

/-- What the code reads of the sibling. -/
theorem sib_read {c : Bool} (hh : Holds h (plug (f :: k) t)) (hsib : f.sib = nodeOn f.side c near o far) :
    ∃ no, h.get o = some no ∧ rbIsRed no = c ∧ no.child f.side = top near ∧
      h.redAt (no.child f.side.other) = some far.isRed ∧
      h.bothBlack no.rbLeft no.rbRight = some (!near.isRed && !far.isRed) := by
  rw [plug_nodeOn_sib hsib] at hh
  obtain ⟨no, hno, -, hc, hnear, hfar⟩ := hh.cell.get
  refine ⟨no, hno, hc, hnear, ?_, hh.bothBlack hno⟩
  rw [hfar]
  refine Holds.redAt (k := ⟨f.side.other, c, o, near⟩ :: ⟨f.side.other, f.red, f.a, t⟩ :: k) ?_
  rw [plug_cons, Frame.attach, nodeOn_other]
  exact hh

theorem turnSibling_far {c : Bool} (hh : Holds h (plug (f :: k) t))
    (hsib : f.sib = nodeOn f.side c near o far) (hfar : far.isRed = true) :
    turnSibling f.side f.a o h = some (o.1, h) := by
  obtain ⟨no, hno, -, -, hred, -⟩ := sib_read hh hsib
  simp only [turnSibling, hno, hred, hfar, if_true, Option.bind_eq_bind, Option.bind_some]
  rfl

/-- The inner child of the sibling goes above it. -/
theorem turnSibling_near {x y : RbTree Addr} {b : Addr} {c : Bool} (hh : Holds h (plug (f :: k) t))
    (hsib : f.sib = nodeOn f.side c (nodeOn f.side true x b y) o far) (hfar : far.isRed = false) :
    ∃ h', turnSibling f.side f.a o h = some (b.1, h') ∧
      Holds h' (plug ({ f with sib := nodeOn f.side false x b (nodeOn f.side true y o far) } :: k) t) := by
  obtain ⟨no, hno, -, hnear, hred, -⟩ := sib_read hh hsib
  rw [plug_nodeOn_sib hsib] at hh
  obtain ⟨h₁, hs₁, hh₁⟩ := Holds.setBlackOf (k := ⟨f.side, c, o, far⟩ :: ⟨f.side.other, f.red, f.a, t⟩ :: k)
    (t := nodeOn f.side true x b y) hh
  obtain ⟨h₂, hs₂, hh₂⟩ := colours_rbSetRed.holds (k := ⟨f.side.other, f.red, f.a, t⟩ :: k) hh₁ nodeOn_ne_nil
  rw [Frame.attach, paint_nodeOn, paint_nodeOn, ← nodeOn_other, ← nodeOn_other f.side false] at hh₂
  obtain ⟨h₃, hs₃, hh₃⟩ := holds_rotate hh₂
  rw [nodeOn_other, nodeOn_other, plug_cons, Frame.attach, nodeOn_other] at hh₃
  have hh' : Holds h₃ (plug ({ f with sib := nodeOn f.side false x b (nodeOn f.side true y o far) } :: k) t) := hh₃
  obtain ⟨np, hnp, -, -, -, hother⟩ := hh'.frame.get
  refine ⟨h₃, ?_, hh'⟩
  have hs₂ : h₁.modify o rbSetRed = some h₂ := hs₂
  rw [top_nodeOn] at hnear hs₁ hother
  simp only [turnSibling, hno, hred, hfar, hnear, hs₁, hs₂, hs₃, hnp, hother, Option.bind_eq_bind, Option.bind_some]
  rfl

/-- **A black sibling.** -/
theorem settle_spec (hh : Holds h (plug (f :: k) t)) (hsib : f.sib = nodeOn f.side false near o far) :
    ∃ h', settle f.side f.a o h = some ((mend f t near o far).2, h') ∧
      Holds h' (plug k (mend f t near o far).1) := by
  obtain ⟨no, hno, -, -, -, hboth⟩ := sib_read hh hsib
  rcases mend_cases f t near o far with ⟨hn, hf, hm⟩ | ⟨hf, hm⟩ | ⟨hf, x, b, y, rfl, hm⟩
  · rw [plug_nodeOn_sib hsib] at hh
    obtain ⟨h', hs, hh'⟩ := colours_rbSetRed.holds hh nodeOn_ne_nil
    rw [plug_cons, Frame.attach, nodeOn_other, paint_nodeOn] at hh'
    have hs : h.modify o rbSetRed = some h' := hs
    refine ⟨h', ?_, hm ▸ hh'⟩
    simp only [settle, hno, hboth, hn, hf, hs, hm, Option.bind_eq_bind, Option.bind_some]
    rfl
  · obtain ⟨h', hs, hh'⟩ := raiseSibling_spec hh hsib
    refine ⟨h', ?_, hm ▸ hh'⟩
    simp only [settle, hno, hboth, hf, Bool.not_true, Bool.and_false, turnSibling_far hh hsib hf, hs, hm,
      Option.bind_eq_bind, Option.bind_some]
    rfl
  · obtain ⟨h₁, hs₁, hh₁⟩ := turnSibling_near hh hsib hf
    obtain ⟨h', hs, hh'⟩ := raiseSibling_spec hh₁ (o := b) rfl
    refine ⟨h', ?_, hm ▸ hh'⟩
    simp only [settle, hno, hboth, isRed_nodeOn, Bool.not_true, Bool.false_and, hs₁, hs, hm,
      Option.bind_eq_bind, Option.bind_some]
    rfl

/-- **A red sibling** goes above the parent, which is red then; its child is the sibling. -/
theorem liftSibling_red {far' : RbTree Addr} {o' : Addr} (hh : Holds h (plug (f :: k) t))
    (hsib : f.sib = nodeOn f.side true (nodeOn f.side false near o' far) o far') :
    ∃ h', liftSibling f.side f.a o h = some (o'.1, h') ∧
      Holds h' (plug (⟨f.side, true, f.a, nodeOn f.side false near o' far⟩ :: ⟨f.side, false, o, far'⟩ :: k) t) := by
  obtain ⟨no, hno, hred, -, -, -⟩ := sib_read hh hsib
  rw [plug_nodeOn_sib hsib] at hh
  obtain ⟨h₁, hs₁, hh₁⟩ := colours_rbSetBlack.holds hh nodeOn_ne_nil
  obtain ⟨h₂, hs₂, hh₂⟩ := colours_rbSetRed.holds (k := k) hh₁ nodeOn_ne_nil
  rw [Frame.attach, paint_nodeOn, paint_nodeOn, nodeOn_other] at hh₂
  obtain ⟨h₃, hs₃, hh₃⟩ := holds_rotate hh₂
  have hh' : Holds h₃ (plug (⟨f.side, true, f.a, nodeOn f.side false near o' far⟩ ::
      ⟨f.side, false, o, far'⟩ :: k) t) := hh₃
  obtain ⟨np, hnp, -, -, -, hother⟩ := hh'.frame.get
  refine ⟨h₃, ?_, hh'⟩
  have hs₁ : h.modify o rbSetBlack = some h₁ := hs₁
  have hs₂ : h₁.modify f.a rbSetRed = some h₂ := hs₂
  have hother : np.child f.side.other = o' := hother
  have hnp : h₃.get f.a = some np := hnp
  simp only [liftSibling, hno, hred, if_true, hs₁, hs₂, hs₃, hnp, hother, Option.bind_eq_bind, Option.bind_some]
  rfl

theorem liftSibling_black (hh : Holds h (plug (f :: k) t)) (hsib : f.sib = nodeOn f.side false near o far) :
    liftSibling f.side f.a o h = some (o.1, h) := by
  obtain ⟨no, hno, hred, -, -, -⟩ := sib_read hh hsib
  simp only [liftSibling, hno, hred, Option.bind_eq_bind, Option.bind_some]
  rfl

theorem eraseStep_black (hh : Holds h (plug (f :: k) t)) (hsib : f.sib = nodeOn f.side false near o far) :
    ∃ h', eraseStep f.side f.a h = some ((mend f t near o far).2, h') ∧
      Holds h' (plug k (mend f t near o far).1) := by
  obtain ⟨np, hnp, -, -, -, hother⟩ := hh.frame.get
  rw [hsib, top_nodeOn] at hother
  obtain ⟨h', hs, hh'⟩ := settle_spec hh hsib
  refine ⟨h', ?_, hh'⟩
  simp only [eraseStep, hnp, hother, liftSibling_black hh hsib, hs, Option.bind_eq_bind, Option.bind_some]

theorem eraseStep_red {far' : RbTree Addr} {o' : Addr} (hh : Holds h (plug (f :: k) t))
    (hsib : f.sib = nodeOn f.side true (nodeOn f.side false near o' far) o far') :
    ∃ h', eraseStep f.side f.a h = some ((mend { f with red := true } t near o' far).2, h') ∧
      Holds h' (plug (⟨f.side, false, o, far'⟩ :: k) (mend { f with red := true } t near o' far).1) := by
  obtain ⟨np, hnp, -, -, -, hother⟩ := hh.frame.get
  rw [hsib, top_nodeOn] at hother
  obtain ⟨h₁, hs₁, hh₁⟩ := liftSibling_red hh hsib
  obtain ⟨h', hs, hh'⟩ := settle_spec hh₁ (o := o') rfl
  refine ⟨h', ?_, hh'⟩
  simp only [eraseStep, hnp, hother, hs₁, Option.bind_eq_bind, Option.bind_some]
  exact hs

end

/-! ## The loop -/

/-- The root points to the hole only where nothing is above that. -/
theorem RepPath.root_mem {h : Heap} {hole : Ptr} {f : Frame Addr} {k : List (Frame Addr)}
    (hp : RepPath h hole (f :: k)) : ∃ a ∈ around (f :: k), h.rbNode = a.1 := by
  induction k generalizing f hole with
  | nil => exact ⟨f.a, (around_cons f []).mem_iff.mpr List.mem_cons_self, hp.2.2⟩
  | cons g k ih =>
    obtain ⟨a, ha, hroot⟩ := ih hp.2.2
    exact ⟨a, (around_cons f (g :: k)).mem_iff.mpr (List.mem_append_right _ ha), hroot⟩

theorem Holds.ne_root {h : Heap} {f : Frame Addr} {k : List (Frame Addr)} {t : RbTree Addr}
    (hh : Holds h (plug (f :: k) t)) : top t ≠ h.rbNode := by
  obtain ⟨hpath, -, hnodup⟩ := holds_plug.mp hh
  obtain ⟨a, ha, hroot⟩ := hpath.root_mem
  intro htop
  exact (List.nodup_append.mp hnodup).2.2 a ha a (mem_of_top (htop.trans hroot)) rfl

theorem eraseLoop_red {fuel : ℕ} {h : Heap} {k : List (Frame Addr)} {t : RbTree Addr} {q : Ptr}
    (hh : Holds h (plug k t)) (ht : t.isRed = true) (hfuel : 0 < fuel) :
    eraseLoop fuel (top t) q h = some (top t, h) := by
  obtain ⟨fuel, rfl⟩ := Nat.exists_eq_add_one_of_ne_zero (Nat.ne_of_gt hfuel)
  simp only [eraseLoop, hh.redAt, ht, if_true, Option.bind_eq_bind, Option.bind_some]
  rfl

/-- One turn, with a black node in the hole. -/
theorem eraseLoop_step {fuel : ℕ} {h h' : Heap} {f : Frame Addr} {k : List (Frame Addr)} {t : RbTree Addr} {b : Bool}
    (hh : Holds h (plug (f :: k) t)) (ht : t.isRed = false) (hsib : f.sib ≠ nil)
    (hstep : eraseStep f.side f.a h = some (b, h')) :
    eraseLoop (fuel + 1) (top t) (above (f :: k)) h =
      if b then (h'.get f.a).bind fun n => eraseLoop fuel f.a (rbParent n) h' else some (h'.rbNode, h') := by
  obtain ⟨np, hnp, -, -, -, -⟩ := hh.frame.get
  have hne : top f.sib ≠ top t := by
    cases t with
    | nil => exact fun heq => hsib (top_eq_zero.mp heq)
    | node c l a r => exact hh.top_ne (node_ne_nil c l r a)
  have hside := hh.side_eq hne hnp
  have hroot := hh.ne_root
  rw [above]
  simp only [eraseLoop, hh.redAt, ht, hroot, if_false, Bool.false_eq_true, hnp, hside, hstep, Option.bind_eq_bind,
    Option.bind_some]
  cases b <;> rfl

/-- Behind the loop the node is painted black. -/
def Finishes (fuel : ℕ) (t : RbTree Addr) (k : List (Frame Addr)) (h : Heap) (u : RbTree Addr) : Prop :=
  ∃ p h₁ h', eraseLoop fuel (top t) (above k) h = some (p, h₁) ∧ h₁.setBlackOf p = some h' ∧ Holds h' u

/-- The root is painted black. -/
theorem Holds.setBlackOf_root {h : Heap} {t : RbTree Addr} (hh : Holds h t) :
    ∃ h', h.setBlackOf h.rbNode = some h' ∧ Holds h' (t.paint false) := by
  rw [hh.root]
  exact Holds.setBlackOf (k := []) hh

/-- The trouble is at the parent where it goes on. -/
theorem mend_flag {f : Frame Addr} {t near far : RbTree Addr} {o : Addr} (h : (mend f t near o far).2 = true) :
    ∃ y, (mend f t near o far).1 = nodeOn f.side f.red t f.a y := by
  rcases mend_cases f t near o far with ⟨-, -, hm⟩ | ⟨-, hm⟩ | ⟨-, x, b, y, -, hm⟩
  · exact ⟨_, congrArg Prod.fst hm⟩
  · rw [hm] at h
    cases h
  · rw [hm] at h
    cases h

/-- **The loop does what `eraseFix` says**, where the tree above the hole is a red-black tree. -/
theorem eraseLoop_spec {fuel n : ℕ} {h : Heap} {k : List (Frame Addr)} {t : RbTree Addr}
    (hh : Holds h (plug k t)) (hk : Fits k (n + 1)) (ht : t.Short n) (hfuel : k.length + 2 ≤ fuel) :
    Finishes fuel t k h (eraseFix k t) := by
  induction k generalizing fuel n h t with
  | nil =>
    obtain ⟨h', hs, hh'⟩ := Holds.setBlackOf (k := []) hh
    refine ⟨top t, h, h', ?_, hs, hh'⟩
    cases htc : t.isRed with
    | true => exact eraseLoop_red (k := []) hh htc (by omega)
    | false =>
      obtain ⟨fuel, rfl⟩ := Nat.exists_eq_add_one_of_ne_zero (show fuel ≠ 0 by omega)
      have hred : h.redAt (top t) = some t.isRed := Holds.redAt (k := []) hh
      rw [← show h.rbNode = top t from hh.root] at hred ⊢
      simp only [eraseLoop, hred, htc, if_false, Bool.false_eq_true, if_true, Option.bind_eq_bind, Option.bind_some]
      rfl
  | cons f k ih =>
    cases htc : t.isRed with
    | true =>
      obtain ⟨h', hs, hh'⟩ := hh.setBlackOf
      rw [eraseFix_red htc]
      exact ⟨top t, h, h', eraseLoop_red hh htc (by omega), hs, hh'⟩
    | false =>
      obtain ⟨fuel, rfl⟩ := Nat.exists_eq_add_one_of_ne_zero (show fuel ≠ 0 by omega)
      rw [List.length_cons] at hfuel
      rw [Short, if_neg (Bool.eq_false_iff.mp htc)] at ht
      obtain ⟨hsib, hf, hup⟩ := hk
      have hnil : f.sib ≠ nil := by
        intro hnil
        rw [hnil] at hsib
        exact absurd hsib (Nat.succ_ne_zero n)
      rcases sib_cases hsib with ⟨near, o, far, ho⟩ | ⟨near, o', far, o, far', ho⟩
      · rw [ho] at hsib
        obtain ⟨h₁, hs₁, hh₁⟩ := eraseStep_black hh ho
        obtain ⟨-, hmend⟩ := short_mend (f := f) ht hsib
        rw [eraseFix_black htc ho, Finishes, eraseLoop_step hh htc hnil hs₁]
        cases hflag : (mend f t near o far).2 with
        | false =>
          obtain ⟨h', hs, hh'⟩ := hh₁.setBlackOf_root
          exact ⟨h₁.rbNode, h₁, h', rfl, hs, hh'⟩
        | true =>
          obtain ⟨y, hy⟩ := mend_flag hflag
          rw [hflag, if_pos rfl] at hmend
          rw [hy] at hh₁ hmend ⊢
          obtain ⟨nf, hnf, hparent, -, -, -⟩ := hh₁.cell.get
          rw [if_pos rfl, if_pos rfl, hnf, Option.bind_some, hparent]
          cases hred : f.red with
          | true =>
            rw [hred, if_pos rfl] at hmend hup
            rw [hred] at hh₁
            exact ih hh₁ hup hmend (by omega)
          | false =>
            rw [hred, if_neg Bool.false_ne_true] at hmend hup
            rw [hred] at hh₁
            exact ih hh₁ hup hmend (by omega)
      · obtain ⟨h₁, hs₁, hh₁⟩ := eraseStep_red hh ho
        rw [eraseFix_lift htc ho, Finishes, eraseLoop_step hh htc hnil hs₁]
        cases hflag : (mend { f with red := true } t near o' far).2 with
        | false =>
          obtain ⟨h', hs, hh'⟩ := hh₁.setBlackOf_root
          exact ⟨h₁.rbNode, h₁, h', rfl, hs, hh'⟩
        | true =>
          -- the parent is red now, and turns black
          obtain ⟨y, hy⟩ := mend_flag hflag
          rw [hy] at hh₁ ⊢
          obtain ⟨nf, hnf, hparent, -, -, -⟩ := hh₁.cell.get
          have hnf : h₁.get f.a = some nf := hnf
          obtain ⟨h', hs, hh'⟩ := hh₁.setBlackOf
          rw [if_pos rfl, if_pos rfl, hnf, Option.bind_some, hparent]
          exact ⟨f.a, h₁, h', eraseLoop_red hh₁ rfl (by omega), hs, hh'⟩

theorem rbEraseColor_spec {fuel n : ℕ} {h : Heap} {k : List (Frame Addr)} {t : RbTree Addr}
    (hh : Holds h (plug k t)) (hk : Fits k (n + 1)) (ht : t.Short n) (hfuel : k.length + 2 ≤ fuel) :
    ∃ h', rbEraseColor fuel (top t) (above k) h = some h' ∧ Holds h' (eraseFix k t) := by
  obtain ⟨p, h₁, h', hs, hs', hh'⟩ := eraseLoop_spec hh hk ht hfuel
  refine ⟨h', ?_, hh'⟩
  simp only [rbEraseColor, hs, hs', Option.bind_eq_bind, Option.bind_some]

/-! ## The node goes -/

theorem outermostNode_spec {fuel : ℕ} {s : Side} {h : Heap} {p : Ptr} {fs : List (Frame Addr)} {c : Bool}
    {b : Addr} {y : RbTree Addr} (hrep : Rep h p (plug fs (nodeOn s c nil b y))) (hside : ∀ f ∈ fs, f.side = s)
    (hfuel : fs.length < fuel) :
    outermostNode s fuel (top (plug fs (nodeOn s c nil b y))) h = some b.1 := by
  induction fs using List.reverseRecOn generalizing fuel p with
  | nil =>
    obtain ⟨fuel, rfl⟩ := Nat.exists_eq_add_one_of_ne_zero (Nat.ne_of_gt hfuel)
    obtain ⟨n, hn, -, -, hx, -⟩ := (rep_nodeOn.mp hrep).1
    have hx : n.child s = 0 := hx
    rw [plug_nil, top_nodeOn]
    simp only [outermostNode, hn, hx, if_true, Option.bind_eq_bind, Option.bind_some]
    rfl
  | append_singleton fs f ih =>
    obtain ⟨hfs, hf⟩ := List.forall_mem_append.mp hside
    have hf : f.side = s := hf f List.mem_cons_self
    rw [List.length_append, List.length_singleton] at hfuel
    obtain ⟨fuel, rfl⟩ := Nat.exists_eq_add_one_of_ne_zero (Nat.ne_of_gt (Nat.zero_lt_of_lt hfuel))
    rw [plug_append, plug_cons, plug_nil, Frame.attach, hf] at hrep ⊢
    obtain ⟨⟨n, hn, -, -, hx, -⟩, hsub, -⟩ := rep_nodeOn.mp hrep
    have hne : top (plug fs (nodeOn s c nil b y)) ≠ 0 := fun h => plug_ne_nil fs nodeOn_ne_nil (top_eq_zero.mp h)
    rw [top_nodeOn]
    simp only [outermostNode, hn, hx, hne, if_false, Option.bind_eq_bind, Option.bind_some]
    exact ih hsub hfs (Nat.lt_of_succ_lt_succ hfuel)

/-- A node with a child missing leaves its place to the other one. -/
theorem Holds.detach {h : Heap} {s : Side} {k : List (Frame Addr)} {c : Bool} {b : Addr} {y : RbTree Addr}
    (hh : Holds h (plug k (nodeOn s c nil b y))) :
    ∃ h₁ h₂, h.setParentOf (top y) (above k) = some h₁ ∧ (linkOf k).write (top y) h₁ = some h₂ ∧
      h₁.relink .left (above k) b (top y) = some h₂ ∧ Holds h₂ (plug k y) ∧ h₂.get b = h.get b := by
  obtain ⟨hpath, hrep, hnodup⟩ := holds_plug.mp hh
  obtain ⟨-, -, hy⟩ := rep_nodeOn.mp hrep
  have hperm : (around k ++ (nodeOn s c nil b y).toList).Perm (around k ++ b :: y.toList) :=
    (nodeOn_perm ..).append_left _
  have hnodup := hperm.nodup_iff.mp hnodup
  have hall := List.nodup_append.mp hnodup
  have hbk : b ∉ around k := fun hb => hall.2.2 b hb b List.mem_cons_self rfl
  have hby := (List.nodup_cons.mp hall.2.1).1
  have hdisj : (around k).Disjoint y.toList := fun a ha ha' => hall.2.2 a ha a (List.mem_cons_of_mem _ ha') rfl
  obtain ⟨h₁, hs₁, hy₁, hk₁, hroot₁⟩ := hy.setParentOf (aligned_above k) (List.nodup_cons.mp hall.2.1).2
  have hpath₁ := hpath.keep hk₁ hroot₁ hdisj
  obtain ⟨h₂, hs₂, hpath₂, hk₂⟩ := hpath₁.write (top y) hall.1
  refine ⟨h₁, h₂, hs₁, hs₂, ?_, holds_plug.mpr ⟨hpath₂, hy₁.keep hk₂ hdisj.symm, ?_⟩, ?_⟩
  · rw [← hs₂]
    exact hpath₁.relink_eq .left (top y) (sib_ne_of_not_mem hbk)
  · exact hnodup.sublist ((List.sublist_cons_self b _).append_left _)
  · rw [hk₂ b hbk, hk₁ b hby]

/-- **A node with one child at most.** -/
theorem eraseOne_spec {fuel : ℕ} {h : Heap} {s : Side} {k : List (Frame Addr)} {c : Bool} {b : Addr}
    {y : RbTree Addr} (hh : Holds h (plug k (nodeOn s c nil b y))) (hrb : (plug k (nodeOn s c nil b y)).RedBlack)
    (hfuel : k.length + 2 ≤ fuel) :
    ∃ h', eraseOne fuel b (top y) h = some h' ∧ Holds h' (if c then plug k y else eraseFix k y) := by
  obtain ⟨n, hn, hp, hc, -, -⟩ := hh.cell.get
  obtain ⟨h₁, h₂, hs₁, -, hs₂, hh₂, -⟩ := hh.detach
  cases c with
  | true =>
    have hcolor : rbColor n ≠ RB_BLACK := fun heq => Bool.false_ne_true ((rbIsRed_eq_false.mpr heq).symm.trans hc)
    refine ⟨h₂, ?_, hh₂⟩
    simp only [eraseOne, hn, hp, hs₁, hs₂, hcolor, if_false, Option.bind_eq_bind, Option.bind_some]
    rfl
  | false =>
    have hcolor : rbColor n = RB_BLACK := rbIsRed_eq_false.mp hc
    obtain ⟨m, hk, hm, -⟩ := fits_of_redBlack hrb
    obtain ⟨m, rfl, -, hy⟩ := height_black.mp hm
    obtain ⟨h', hs', hh'⟩ := rbEraseColor_spec hh₂ hk hy.short hfuel
    refine ⟨h', ?_, hh'⟩
    simp only [eraseOne, hn, hp, hs₁, hs₂, hcolor, if_true, hs', Option.bind_eq_bind, Option.bind_some]

theorem unhook_spec {h : Heap} {fs k : List (Frame Addr)} {c c' : Bool} {a b : Addr} {l y : RbTree Addr}
    (hh : Holds h (plug (fs ++ ⟨.right, c, a, l⟩ :: k) (nodeOn .left c' nil b y)))
    (hside : ∀ f ∈ fs, f.side = .left) :
    ∃ h', unhook a b h = some (above (fs ++ ⟨.right, c, b, l⟩ :: k), h') ∧
      Holds h' (plug (fs ++ ⟨.right, c, a, l⟩ :: k) y) ∧ h'.get b = h.get b := by
  obtain ⟨n, hn, hp, -, -, hy⟩ := hh.cell.get
  have hy : n.rbRight = top y := hy
  obtain ⟨h₁, h₂, hs₁, hs₂, -, hh₂, hb⟩ := hh.detach
  refine ⟨h₂, ?_, hh₂, hb⟩
  cases fs with
  | nil =>
    have hp : rbParent n = a := hp
    have hs₁ : h.setParentOf (top y) a = some h₁ := hs₁
    have hs₂ : h₁.modify a (RbNode.setChild .right (top y)) = some h₂ := hs₂
    simp only [unhook, hn, hy, hp, hs₁, if_true, hs₂, Option.bind_eq_bind, Option.bind_some]
    rfl
  | cons f fs =>
    have hp : rbParent n = f.a := hp
    have hs₁ : h.setParentOf (top y) f.a = some h₁ := hs₁
    have hs₂ : h₁.modify f.a (RbNode.setChild .left (top y)) = some h₂ := by
      rw [← hside f List.mem_cons_self]
      exact hs₂
    -- the nodes above the next one are at different addresses
    have hne : f.a.1 ≠ a.1 := by
      intro heq
      have hnodup := (List.nodup_append.mp (holds_plug.mp hh).2.2).1
      rw [List.cons_append, (around_cons f _).nodup_iff, List.cons_append, List.nodup_cons] at hnodup
      refine hnodup.1 (List.mem_append_right _ ?_)
      rw [Subtype.ext heq, around, before_append, after_append]
      simp [before, after, Side.pick]
    simp only [unhook, hn, hy, hp, hs₁, hne, if_false, hs₂, Option.bind_eq_bind, Option.bind_some]
    rfl

/-- What points to a node is made to point to another one. -/
theorem Holds.surround {h : Heap} {k : List (Frame Addr)} {c : Bool} {a b : Addr} {l r : RbTree Addr} {o : RbNode}
    (hh : Holds h (plug k (.node c l a r))) (hb : b ∉ (plug k (.node c l a r)).toList) (ho : h.get a = some o) :
    ∃ h₂ h₃ h₄, h.relink .left (rbParent o) a b = some h₂ ∧ h₂.get a = some o ∧
      h₂.setParentOf o.rbLeft b = some h₃ ∧ h₃.get a = some o ∧ h₃.setParentOf o.rbRight b = some h₄ ∧
      h₄.get a = some o ∧ h₄.get b = h.get b ∧ RepPath h₄ b k ∧ Rep h₄ b l ∧ Rep h₄ b r := by
  obtain ⟨hpath, ⟨hcell, hlr, hrr⟩, hnodup⟩ := holds_plug.mp hh
  have hpath : RepPath h a k := hpath
  obtain ⟨o', ho', hop, -, hol, hor⟩ := hcell.get
  obtain rfl := Option.some.inj (ho.symm.trans ho')
  have hol : o.rbLeft = top l := hol
  have hor : o.rbRight = top r := hor
  have hperm : (around k ++ (RbTree.node c l a r).toList).Perm (around k ++ a :: (l.toList ++ r.toList)) :=
    List.perm_middle.append_left _
  rw [(plug_perm k _).mem_iff, hperm.mem_iff] at hb
  rw [hperm.nodup_iff] at hnodup
  simp only [List.nodup_append, List.nodup_cons, List.mem_append, List.mem_cons, not_or] at hnodup hb
  obtain ⟨h₂, hs₂, hpath₂, hk₂⟩ := hpath.relink .left b.1 hnodup.1 (sib_ne_of_not_mem (by grind))
  obtain ⟨h₃, hs₃, hl₃, hk₃, hroot₃⟩ := (hlr.keep hk₂ (by grind [List.Disjoint])).setParentOf b.2.2 hnodup.2.1.2.1
  have hk := hk₂.trans hk₃
  obtain ⟨h₄, hs₄, hr₄, hk₄, hroot₄⟩ :=
    (hrr.keep hk (by grind [List.Disjoint])).setParentOf b.2.2 hnodup.2.1.2.2.1
  rw [hop, hol, hor]
  refine ⟨h₂, h₃, h₄, hs₂, (hk₂ a (by grind)).trans ho, hs₃, (hk a (by grind)).trans ho, hs₄,
    ((hk.trans hk₄) a (by grind)).trans ho, (hk.trans hk₄) b (by grind), ?_, hl₃.keep hk₄ (by grind [List.Disjoint]),
    hr₄⟩
  exact (hpath₂.keep hk₃ hroot₃ (by grind [List.Disjoint])).keep hk₄ hroot₄ (by grind [List.Disjoint])

/-- A node that is not in the tree may change. -/
theorem Holds.put {h : Heap} {t : RbTree Addr} {b : Addr} (hh : Holds h t) (hb : b ∉ t.toList) (n : RbNode) :
    Holds (h.put b n) t :=
  ⟨hh.root, hh.rep.keep (keeps_put b n h) (List.disjoint_singleton.mpr hb), hh.nodup⟩

/-- With a copy of the node at the other address, the tree is the same but for the name. -/
theorem Holds.renamed {h : Heap} {k : List (Frame Addr)} {c : Bool} {a b : Addr} {l r : RbTree Addr} {o : RbNode}
    {h' : Heap} (hh : Holds h (plug k (.node c l a r))) (hb : b ∉ (plug k (.node c l a r)).toList)
    (ho : h.get a = some o) (hpath : RepPath h' b k) (hl : Rep h' b l) (hr : Rep h' b r)
    (hb' : h'.get b = some o) : Holds h' (plug k (.node c l b r)) := by
  obtain ⟨-, ⟨hcell, -, -⟩, hnodup⟩ := holds_plug.mp hh
  obtain ⟨o', ho', hrest⟩ := hcell.get
  obtain rfl := Option.some.inj (ho.symm.trans ho')
  refine holds_plug.mpr ⟨hpath, ⟨⟨o, hb', hrest⟩, hl, hr⟩, ?_⟩
  have hperm : ∀ x : Addr, (around k ++ (RbTree.node c l x r).toList).Perm
      (x :: (around k ++ (l.toList ++ r.toList))) :=
    fun x => (List.perm_middle.append_left _).trans List.perm_middle
  rw [(plug_perm k _).mem_iff, (hperm a).mem_iff, List.mem_cons, not_or] at hb
  rw [(hperm a).nodup_iff, List.nodup_cons] at hnodup
  exact (hperm b).nodup_iff.mpr (List.nodup_cons.mpr ⟨hb.2, hnodup.2⟩)

theorem takePlace_spec {h : Heap} {k : List (Frame Addr)} {c : Bool} {a b : Addr} {l r : RbTree Addr} {m : RbNode}
    (hh : Holds h (plug k (.node c l a r))) (hl : l ≠ nil) (hb : b ∉ (plug k (.node c l a r)).toList)
    (hm : h.get b = some m) :
    ∃ h', takePlace a b h = some h' ∧ Holds h' (plug k (.node c l b r)) := by
  obtain ⟨o, ho, -, -, hol, -⟩ := (Holds.cell (s := .left) hh).get
  have hol : o.rbLeft = top l := hol
  have hs₁ := Heap.modify_eq hm fun _ => o
  have hne : a ≠ b := by
    rintro rfl
    refine hb ((plug_perm k _).mem_iff.mpr (List.mem_append_right _ ?_))
    exact List.mem_append_right _ List.mem_cons_self
  have ho₁ : (h.put b o).get a = some o := by
    rw [Heap.get_put b.2.1, if_neg fun h => hne (Subtype.ext h), ho]
  obtain ⟨h₂, h₃, h₄, hs₂, ho₂, hs₃, ho₃, hs₄, -, hb₄, hpath₄, hl₄, hr₄⟩ := (hh.put hb o).surround hb ho₁
  rw [Heap.setParentOf, hol, if_neg fun h => hl (top_eq_zero.mp h), ← hol] at hs₃
  refine ⟨h₄, ?_, hh.renamed hb ho hpath₄ hl₄ hr₄ ?_⟩
  · simp only [takePlace, ho, hs₁, hs₂, ho₂, hs₃, ho₃, hs₄, Option.bind_eq_bind, Option.bind_some]
  · rw [hb₄, Heap.get_put b.2.1, if_pos rfl]

/-- **A node with two children.** -/
theorem eraseTwo_spec {fuel : ℕ} {h : Heap} {fs k : List (Frame Addr)} {c c' : Bool} {a b : Addr}
    {l y : RbTree Addr} (hh : Holds h (plug k (.node c l a (plug fs (nodeOn .left c' nil b y)))))
    (hrb : (plug k (.node c l a (plug fs (nodeOn .left c' nil b y)))).RedBlack)
    (hside : ∀ f ∈ fs, f.side = .left) (hl : l ≠ nil) (hfuel : fs.length + k.length + 3 ≤ fuel) :
    ∃ h', eraseTwo fuel a h = some h' ∧
      Holds h' (if c' then plug (fs ++ ⟨.right, c, b, l⟩ :: k) y else eraseFix (fs ++ ⟨.right, c, b, l⟩ :: k) y) := by
  have hplug : ∀ (x : Addr) (u : RbTree Addr),
      plug (fs ++ ⟨.right, c, x, l⟩ :: k) u = plug k (.node c l x (plug fs u)) :=
    fun x u => plug_append fs (⟨.right, c, x, l⟩ :: k) u
  obtain ⟨o, ho, -, -, -, hor⟩ := (Holds.cell (s := .left) hh).get
  have hor : o.rbRight = top (plug fs (nodeOn .left c' nil b y)) := hor
  have hlen : fs.length < fuel := by omega
  have hnext := outermostNode_spec (holds_plug.mp hh).2.1.2.2 hside hlen
  rw [← hplug] at hh
  obtain ⟨n, hn, -, hc, -, hy⟩ := hh.cell.get
  have hy : n.rbRight = top y := hy
  obtain ⟨h₁, hs₁, hh₁, hb₁⟩ := unhook_spec hh hside
  have hbmem : b ∉ (plug k (.node c l a (plug fs y))).toList := by
    rw [← hplug, (plug_perm _ _).mem_iff]
    intro hmem
    have hnodup := (holds_plug.mp hh).2.2
    have hnodup := ((nodeOn_perm .left c' nil y b).append_left _).nodup_iff.mp hnodup
    exact (List.nodup_cons.mp (List.perm_middle.nodup_iff.mp hnodup)).1 hmem
  rw [hplug] at hh₁
  obtain ⟨h₂, hs₂, hh₂⟩ := takePlace_spec hh₁ hl hbmem (hb₁.trans hn)
  rw [← hplug] at hh₂
  cases c' with
  | true =>
    have hcolor : rbColor n ≠ RB_BLACK := fun heq => Bool.false_ne_true ((rbIsRed_eq_false.mpr heq).symm.trans hc)
    refine ⟨h₂, ?_, hh₂⟩
    simp only [eraseTwo, ho, hor, hnext, hn, hs₁, hs₂, hcolor, if_false, Option.bind_eq_bind, Option.bind_some]
    rfl
  | false =>
    have hcolor : rbColor n = RB_BLACK := rbIsRed_eq_false.mp hc
    have hrb := hrb.relabel b
    rw [← hplug] at hrb
    obtain ⟨m, hk, hm, -⟩ := fits_of_redBlack hrb
    obtain ⟨m, rfl, -, hym⟩ := height_black.mp hm
    have hlength : (fs ++ ⟨.right, c, b, l⟩ :: k).length + 2 ≤ fuel := by
      rw [List.length_append, List.length_cons]
      omega
    obtain ⟨h', hs', hh'⟩ := rbEraseColor_spec hh₂ hk hym.short hlength
    refine ⟨h', ?_, hh'⟩
    simp only [eraseTwo, ho, hor, hnext, hn, hs₁, hs₂, hcolor, if_true, hy, hs', Option.bind_eq_bind, Option.bind_some]

/-- **`rb_erase` does what `eraseAt` says**, in any red-black tree. -/
theorem rbErase_spec {fuel : ℕ} {h : Heap} {k : List (Frame Addr)} {c : Bool} {l r : RbTree Addr} {a : Addr}
    (hh : Holds h (plug k (.node c l a r))) (hrb : (plug k (.node c l a r)).RedBlack)
    (hfuel : (plug k (.node c l a r)).depth < fuel) :
    ∃ h', rbErase fuel a h = some h' ∧ Holds h' (eraseAt k c l a r) := by
  obtain ⟨n, hn, -, -, hl, hr⟩ := (Holds.cell (s := .left) hh).get
  have hl : n.rbLeft = top l := hl
  have hr : n.rbRight = top r := hr
  have hdepth := length_add_depth_le k (.node c l a r)
  rcases eraseAt_cases k c l a r with ⟨s, x, hnode, he⟩ | ⟨fs, c', b, y, hside, rfl, hlnil, he⟩
  · have hlength : k.length + 2 ≤ fuel := by
      rw [depth] at hdepth
      omega
    rw [hnode] at hh hrb
    obtain ⟨h', hs, hh'⟩ := eraseOne_spec hh hrb hlength
    rw [he]
    refine ⟨h', ?_, hh'⟩
    -- the child that is there is asked for first, or is not there either
    have hchild : l = nil ∧ r = x ∨ l = x ∧ r = nil := by
      cases s
      · obtain ⟨-, hl, -, hr⟩ := RbTree.node.inj hnode
        exact .inl ⟨hl, hr⟩
      · obtain ⟨-, hl, -, hr⟩ := RbTree.node.inj hnode
        exact .inr ⟨hl, hr⟩
    by_cases hlnil : l = nil
    · have hx : top x = n.rbRight := by
        rcases hchild with ⟨-, hx⟩ | ⟨hx, hr'⟩
        · rw [hr, hx]
        · rw [hr, hr', ← hx, hlnil]
      have hzero : n.rbLeft = 0 := hl.trans (top_eq_zero.mpr hlnil)
      rw [hx] at hs
      simp only [rbErase, hn, hzero, if_true, hs, Option.bind_eq_bind, Option.bind_some]
    · obtain ⟨rfl, hr'⟩ := hchild.resolve_left fun h => hlnil h.1
      have hzero : n.rbLeft ≠ 0 := fun h => hlnil (top_eq_zero.mp (hl.symm.trans h))
      have hzero' : n.rbRight = 0 := hr.trans (top_eq_zero.mpr hr')
      rw [← hl] at hs
      simp only [rbErase, hn, hzero, if_false, hzero', if_true, hs, Option.bind_eq_bind, Option.bind_some]
  · rw [he]
    have hlength : fs.length + k.length + 3 ≤ fuel := by
      have hle := length_add_depth_le (fs ++ ⟨.right, c, a, l⟩ :: k) (.node c' nil b y)
      rw [plug_append, List.length_append, List.length_cons, depth] at hle
      have hlt : (plug (⟨.right, c, a, l⟩ :: k) (plug fs (.node c' nil b y))).depth < fuel := hfuel
      omega
    obtain ⟨h', hs, hh'⟩ := eraseTwo_spec hh hrb hside hlnil hlength
    have hzero : n.rbLeft ≠ 0 := fun h => hlnil (top_eq_zero.mp (hl.symm.trans h))
    have hzero' : n.rbRight ≠ 0 := fun h => plug_ne_nil fs (node_ne_nil c' nil y b) (top_eq_zero.mp (hr.symm.trans h))
    refine ⟨h', ?_, hh'⟩
    simp only [rbErase, hn, hzero, hzero', if_false, hs, Option.bind_eq_bind, Option.bind_some]

end Blktrace.Rbtree
