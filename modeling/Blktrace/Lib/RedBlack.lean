import Blktrace.Lib.Zipper
import Mathlib.Data.Nat.Log

/-!
# Red-black trees

A red node has black children, and all ways down from a node meet equally many black ones. A new red node may
break the first rule, the removal of a black one the second; each is mended on the way up from the place, by
recolouring while that moves the trouble further up, and by one rotation or two that end it.
-/

namespace SearchTree

namespace RbTree

variable {α : Type*}

/-! ## The invariant -/

/-- All ways down meet `n` black nodes, and no red node has a red child. -/
def Height : RbTree α → ℕ → Prop
  | nil, n => n = 0
  | node true l _ r, n => (l.isRed = false ∧ r.isRed = false) ∧ l.Height n ∧ r.Height n
  | node false l _ r, n => ∃ m, n = m + 1 ∧ l.Height m ∧ r.Height m

/-- A red-black tree: the root is black too. -/
structure RedBlack (t : RbTree α) : Prop where
  black : t.isRed = false
  height : ∃ n, t.Height n

@[simp] theorem height_nil {n : ℕ} : (nil : RbTree α).Height n ↔ n = 0 := Iff.rfl

theorem height_red {s : Side} {x y : RbTree α} {a : α} {n : ℕ} :
    (nodeOn s true x a y).Height n ↔ (x.isRed = false ∧ y.isRed = false) ∧ x.Height n ∧ y.Height n := by
  cases s
  · exact Iff.rfl
  · exact and_congr and_comm and_comm

theorem height_black {s : Side} {x y : RbTree α} {a : α} {n : ℕ} :
    (nodeOn s false x a y).Height n ↔ ∃ m, n = m + 1 ∧ x.Height m ∧ y.Height m := by
  cases s
  · exact Iff.rfl
  · exact exists_congr fun m => and_congr_right fun _ => and_comm

theorem height_black_succ {s : Side} {x y : RbTree α} {a : α} {n : ℕ} :
    (nodeOn s false x a y).Height (n + 1) ↔ x.Height n ∧ y.Height n := by
  rw [height_black]
  constructor
  · rintro ⟨m, hm, h⟩
    obtain rfl := Nat.succ.inj hm
    exact h
  · intro h
    exact ⟨n, rfl, h⟩

/-- A subtree of some height below black nodes is not missing. -/
theorem Height.exists_node {t : RbTree α} {n : ℕ} (h : t.Height (n + 1)) (s : Side) :
    ∃ c x a y, t = nodeOn s c x a y := by
  cases t with
  | nil => exact absurd h (Nat.succ_ne_zero n)
  | node c l a r =>
    obtain ⟨x, y, hxy⟩ := exists_nodeOn s c l r a
    exact ⟨c, x, a, y, hxy⟩

/-- A red root may be painted black, at the cost of one more black node. -/
theorem Height.paint_black {t : RbTree α} {n : ℕ} (h : t.Height n) (hred : t.isRed = true) :
    (t.paint false).Height (n + 1) := by
  cases t with
  | nil => cases hred
  | node c l a r =>
    obtain rfl : c = true := hred
    exact ⟨n, rfl, h.2⟩

/-- And a black one red, where its children are black. -/
theorem Height.paint_red {s : Side} {x y : RbTree α} {a : α} {n : ℕ}
    (h : (nodeOn s false x a y).Height (n + 1)) (hx : x.isRed = false) (hy : y.isRed = false) :
    (nodeOn s true x a y).Height n :=
  height_red.mpr ⟨⟨hx, hy⟩, height_black_succ.mp h⟩

theorem RedBlack.of_height {t : RbTree α} {n : ℕ} (h : t.Height n) : (t.paint false).RedBlack := by
  cases t with
  | nil => exact ⟨rfl, n, h⟩
  | node c l a r =>
    cases c with
    | true => exact ⟨rfl, n + 1, h.paint_black rfl⟩
    | false => exact ⟨rfl, n, h⟩

/-! ## Depth -/

/-- The nodes on the longest way down. -/
def depth : RbTree α → ℕ
  | nil => 0
  | node _ l _ r => max l.depth r.depth + 1

/-- At least every other node on a way down is black. -/
theorem Height.depth_le {t : RbTree α} {n : ℕ} (h : t.Height n) :
    t.depth ≤ 2 * n + t.isRed.toNat := by
  induction t generalizing n with
  | nil => exact Nat.zero_le _
  | node c l a r ihl ihr =>
    cases c with
    | true =>
      obtain ⟨⟨hl, hr⟩, hln, hrn⟩ := h
      have hleft := ihl hln
      have hright := ihr hrn
      rw [hl, Bool.toNat_false] at hleft
      rw [hr, Bool.toNat_false] at hright
      simp only [depth, isRed, Bool.toNat_true]
      omega
    | false =>
      obtain ⟨m, rfl, hlm, hrm⟩ := h
      have hleft := ihl hlm
      have hright := ihr hrm
      have hl := Bool.toNat_le l.isRed
      have hr := Bool.toNat_le r.isRed
      simp only [depth, isRed, Bool.toNat_false]
      omega

theorem Height.length_ge {t : RbTree α} {n : ℕ} (h : t.Height n) : 2 ^ n ≤ t.toList.length + 1 := by
  induction t generalizing n with
  | nil =>
    obtain rfl : n = 0 := h
    exact le_refl 1
  | node c l a r ihl ihr =>
    rw [toList_node, List.length_append, List.length_cons]
    cases c with
    | true =>
      have hleft := ihl h.2.1
      omega
    | false =>
      obtain ⟨m, rfl, hlm, hrm⟩ := h
      have hleft := ihl hlm
      have hright := ihr hrm
      rw [pow_succ]
      omega

/-- **The tree is balanced.** -/
theorem RedBlack.depth_le {t : RbTree α} (h : t.RedBlack) : t.depth ≤ 2 * Nat.log 2 (t.toList.length + 1) := by
  obtain ⟨n, hn⟩ := h.height
  have hlog : n ≤ Nat.log 2 (t.toList.length + 1) := Nat.le_log_of_pow_le one_lt_two hn.length_ge
  have hdepth := hn.depth_le
  rw [h.black, Bool.toNat_false] at hdepth
  omega

/-- The way to a hole is not longer than the longest way down. -/
theorem length_add_depth_le (path : List (Frame α)) (t : RbTree α) :
    path.length + t.depth ≤ (plug path t).depth := by
  induction path generalizing t with
  | nil => exact le_of_eq (Nat.zero_add _)
  | cons f path ih =>
    refine le_trans ?_ (ih (f.attach t))
    have hstep : t.depth + 1 ≤ (f.attach t).depth := by
      rw [Frame.attach, nodeOn, depth]
      cases f.side
      · exact Nat.succ_le_succ (le_max_left _ _)
      · exact Nat.succ_le_succ (le_max_right _ _)
    rw [List.length_cons]
    omega

/-! ## A hole -/

/-- A red tree may stand in the hole: a node is above it, and that is black. -/
def mayRed : List (Frame α) → Bool
  | [] => false
  | f :: _ => !f.red

/-- A tree of height `n` with a black root fits in the hole. -/
def Fits : List (Frame α) → ℕ → Prop
  | [], _ => True
  | f :: path, n =>
    f.sib.Height n ∧ (f.red = true → f.sib.isRed = false ∧ mayRed path = true) ∧
      Fits path (if f.red then n else n + 1)

theorem redBlack_plug {path : List (Frame α)} {t : RbTree α} {n : ℕ} (hpath : Fits path n) (ht : t.Height n)
    (hred : t.isRed = true → mayRed path = true) : (plug path t).RedBlack := by
  induction path generalizing t n with
  | nil =>
    refine ⟨?_, n, ht⟩
    cases h : t.isRed with
    | false => exact h
    | true => cases hred h
  | cons f path ih =>
    obtain ⟨hsib, hf, hpath⟩ := hpath
    rw [plug_cons, Frame.attach]
    cases hc : f.red with
    | true =>
      obtain ⟨hsibc, hmay⟩ := hf hc
      rw [if_pos hc] at hpath
      refine ih hpath (height_red.mpr ⟨⟨?_, hsibc⟩, ht, hsib⟩) fun _ => hmay
      cases h : t.isRed with
      | false => rfl
      | true =>
        have := hred h
        rw [mayRed, hc] at this
        cases this
    | false =>
      rw [if_neg (Bool.eq_false_iff.mp hc)] at hpath
      refine ih hpath (height_black_succ.mpr ⟨ht, hsib⟩) fun h => ?_
      rw [isRed_nodeOn] at h
      cases h

/-- What stands in the hole of a red-black tree fits there. -/
theorem fits_of_redBlack {path : List (Frame α)} {t : RbTree α} (h : (plug path t).RedBlack) :
    ∃ n, Fits path n ∧ t.Height n ∧ (t.isRed = true → mayRed path = true) := by
  induction path generalizing t with
  | nil =>
    obtain ⟨hblack, n, hn⟩ := h
    refine ⟨n, trivial, hn, fun hred => ?_⟩
    rw [plug_nil] at hblack
    rw [hblack] at hred
    cases hred
  | cons f path ih =>
    obtain ⟨n, hpath, hn, hmay⟩ := ih h
    rw [Frame.attach] at hn hmay
    cases hc : f.red with
    | true =>
      rw [hc] at hn hmay
      obtain ⟨⟨ht, hsib⟩, htn, hsibn⟩ := height_red.mp hn
      refine ⟨n, ⟨hsibn, fun _ => ⟨hsib, hmay rfl⟩, ?_⟩, htn, fun hred => ?_⟩
      · rw [if_pos hc]
        exact hpath
      · rw [ht] at hred
        cases hred
    | false =>
      rw [hc] at hn
      obtain ⟨m, rfl, htm, hsibm⟩ := height_black.mp hn
      refine ⟨m, ⟨hsibm, fun hred => ?_, ?_⟩, htm, fun _ => ?_⟩
      · rw [hc] at hred
        cases hred
      · rw [if_neg (Bool.eq_false_iff.mp hc)]
        exact hpath
      · rw [mayRed, hc]
        rfl

theorem RedBlack.paint {t : RbTree α} (h : t.RedBlack) : (t.paint false).RedBlack := by
  rw [paint_eq_self h.black]
  exact h

/-! ## A new node -/

/-- A red node `t` below the red `p`, with a black uncle: one of the two that are red goes on top, in black. -/
def turn (p g : Frame α) (t : RbTree α) : RbTree α :=
  if p.side = g.side then nodeOn g.side false t p.a (nodeOn g.side true p.sib g.a g.sib)
  else
    match t with
    | nil => g.attach (p.attach nil)
    | node _ l x r =>
      nodeOn g.side false (nodeOn g.side true p.sib p.a (g.side.pick l r)) x
        (nodeOn g.side true (g.side.pick r l) g.a g.sib)

/-- The red node in the hole is made to have a black parent, unless it is the root. -/
def insertFix : List (Frame α) → RbTree α → RbTree α
  | p :: g :: path, t =>
    if p.red then
      if g.sib.isRed then
        insertFix path
          (nodeOn g.side true (nodeOn p.side false t p.a p.sib) g.a (g.sib.paint false))
      else plug path (turn p g t)
    else plug (p :: g :: path) t
  | path, t => plug path t

/-- The node is linked below the path, and the root ends up black. -/
def insertAt (path : List (Frame α)) (a : α) : RbTree α :=
  (insertFix path (node true nil a nil)).paint false

theorem turn_outer {p g : Frame α} (hside : p.side = g.side) (t : RbTree α) :
    turn p g t = nodeOn g.side false t p.a (nodeOn g.side true p.sib g.a g.sib) := by
  unfold turn
  rw [if_pos hside]

theorem turn_inner {p g : Frame α} (hside : p.side ≠ g.side) (c : Bool) (x y : RbTree α) (b : α) :
    turn p g (nodeOn g.side c x b y) =
      nodeOn g.side false (nodeOn g.side true p.sib p.a x) b (nodeOn g.side true y g.a g.sib) := by
  unfold turn
  rw [if_neg hside]
  cases g.side <;> rfl

theorem toList_turn (p g : Frame α) (t : RbTree α) : (turn p g t).toList = (g.attach (p.attach t)).toList := by
  by_cases hside : p.side = g.side
  · rw [turn_outer hside, Frame.attach, Frame.attach, hside]
    exact (toList_rotate g.side g.red false p.red true t p.sib g.sib p.a g.a).symm
  · cases t with
    | nil =>
      rw [turn, if_neg hside]
    | node c l x r =>
      obtain ⟨near, far, hnode⟩ := exists_nodeOn g.side c l r x
      rw [hnode, turn_inner hside, Frame.attach, Frame.attach, Side.eq_other_of_ne hside, nodeOn_other]
      cases g.side <;> simp [nodeOn, Side.pick]

theorem toList_insertFix (path : List (Frame α)) (t : RbTree α) :
    (insertFix path t).toList = (plug path t).toList := by
  induction path, t using insertFix.induct with
  | case1 p g path t hp huncle ih =>
    rw [insertFix, if_pos hp, if_pos huncle, ih]
    refine toList_plug_congr path ?_
    rw [Frame.attach, Frame.attach, toList_nodeOn, toList_nodeOn, toList_paint, toList_nodeOn, toList_nodeOn]
  | case2 p g path t hp huncle =>
    rw [insertFix, if_pos hp, if_neg huncle]
    exact toList_plug_congr path (toList_turn p g t)
  | case3 p g path t hp => rw [insertFix, if_neg hp]
  | case4 path t hpath => rw [insertFix.eq_2 path t hpath]

theorem toList_insertAt (path : List (Frame α)) (a : α) :
    (insertAt path a).toList = before path ++ a :: after path := by
  rw [insertAt, toList_paint, toList_insertFix, toList_plug]
  exact List.append_cons (before path) a (after path) ▸ rfl

/-- After the turn the subtree is as high as with the black node on top, and its root is black. -/
theorem height_turn {p g : Frame α} {t : RbTree α} {n : ℕ} (hred : t.isRed = true) (ht : t.Height n)
    (hp : p.sib.Height n) (hpc : p.sib.isRed = false) (hg : g.sib.Height n) (hgc : g.sib.isRed = false) :
    (turn p g t).Height (n + 1) ∧ (turn p g t).isRed = false := by
  by_cases hside : p.side = g.side
  · rw [turn_outer hside]
    exact ⟨height_black_succ.mpr ⟨ht, height_red.mpr ⟨⟨hpc, hgc⟩, hp, hg⟩⟩, rfl⟩
  · cases t with
    | nil => cases hred
    | node c l x r =>
      obtain rfl : c = true := hred
      obtain ⟨near, far, hnode⟩ := exists_nodeOn g.side true l r x
      rw [hnode] at ht ⊢
      obtain ⟨⟨hnc, hfc⟩, hn, hf⟩ := height_red.mp ht
      rw [turn_inner hside]
      exact ⟨height_black_succ.mpr
        ⟨height_red.mpr ⟨⟨hpc, hnc⟩, hp, hn⟩, height_red.mpr ⟨⟨hfc, hgc⟩, hf, hg⟩⟩, rfl⟩

/-- **A new red node is accommodated.** -/
theorem redBlack_insertFix {path : List (Frame α)} {t : RbTree α} {n : ℕ} (hpath : Fits path n)
    (ht : t.Height n) (hred : t.isRed = true) : ((insertFix path t).paint false).RedBlack := by
  induction path, t using insertFix.induct generalizing n with
  | case1 p g path t hp huncle ih =>
    obtain ⟨hpsib, hpred, hpath⟩ := hpath
    obtain ⟨hpc, hg⟩ := hpred hp
    have hg : g.red = false := Bool.not_eq_true' _ ▸ hg
    rw [if_pos hp] at hpath
    obtain ⟨hgsib, -, hpath⟩ := hpath
    rw [hg] at hpath
    rw [insertFix, if_pos hp, if_pos huncle]
    refine ih hpath (height_red.mpr ⟨⟨rfl, ?_⟩, height_black_succ.mpr ⟨ht, hpsib⟩, hgsib.paint_black huncle⟩) rfl
    cases g.sib <;> rfl
  | case2 p g path t hp huncle =>
    obtain ⟨hpsib, hpred, hpath⟩ := hpath
    obtain ⟨hpc, hg⟩ := hpred hp
    have hg : g.red = false := Bool.not_eq_true' _ ▸ hg
    rw [if_pos hp] at hpath
    obtain ⟨hgsib, -, hpath⟩ := hpath
    rw [hg] at hpath
    rw [insertFix, if_pos hp, if_neg huncle]
    obtain ⟨hturn, hblack⟩ := height_turn hred ht hpsib hpc hgsib (Bool.eq_false_iff.mpr huncle)
    refine (redBlack_plug hpath hturn fun h => ?_).paint
    rw [hblack] at h
    cases h
  | case3 p g path t hp =>
    rw [insertFix, if_neg hp]
    refine (redBlack_plug hpath ht fun _ => ?_).paint
    rw [mayRed, Bool.eq_false_iff.mpr hp]
    rfl
  | case4 path t hshort =>
    rw [insertFix.eq_2 path t hshort]
    match path, hshort with
    | [], _ => exact RedBlack.of_height ht
    | [f], _ =>
      -- the only node above is the root, which is black
      refine (redBlack_plug hpath ht fun _ => ?_).paint
      cases hf : f.red with
      | false =>
        rw [mayRed, hf]
        rfl
      | true => cases (hpath.2.1 hf).2
    | p :: g :: path, hshort => exact absurd rfl (hshort p g path)

theorem redBlack_insertAt {path : List (Frame α)} (h : (plug path nil).RedBlack) (a : α) :
    (insertAt path a).RedBlack := by
  obtain ⟨n, hpath, rfl, -⟩ := fits_of_redBlack h
  exact redBlack_insertFix hpath ⟨⟨rfl, rfl⟩, rfl, rfl⟩ rfl

end RbTree

end SearchTree
