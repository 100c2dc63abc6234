import Blktrace.Lib.RedBlack

/-!
# Red-black trees: a node is erased

Where a black node is gone, one is missing on all ways through the hole. A red node in the hole makes up for it
in black. Otherwise the sibling does, if it can: it turns red, and the trouble moves up, or one of its red
children allows a rotation that ends it. A red sibling is first rotated away.
-/

namespace SearchTree

namespace RbTree

variable {α : Type*}

/-- The hole below `f` has a black node too few; the black node `o`, with `near` on the side of the hole, is
the sibling. The flag says that the tree as a whole has one too few now. -/
def mend (f : Frame α) (t near : RbTree α) (o : α) (far : RbTree α) : RbTree α × Bool :=
  if near.isRed = false ∧ far.isRed = false then
    (nodeOn f.side f.red t f.a (nodeOn f.side true near o far), true)
  else if far.isRed = false then
    match near with
    | nil => (nodeOn f.side f.red t f.a (nodeOn f.side false nil o far), false)
    | node _ l x r =>
      (nodeOn f.side f.red (nodeOn f.side false t f.a (f.side.pick l r)) x
        (nodeOn f.side false (f.side.pick r l) o far), false)
  else (nodeOn f.side f.red (nodeOn f.side false t f.a near) o (far.paint false), false)

/-- The ways through the hole get the black node back. -/
def eraseFix : List (Frame α) → RbTree α → RbTree α
  | [], t => t.paint false
  | f :: path, t =>
    if t.isRed then plug (f :: path) (t.paint false)
    else
      match f.sib with
      | nil => plug (f :: path) t
      | node false l o r =>
        match mend f t (f.side.pick l r) o (f.side.pick r l) with
        | (u, true) => eraseFix path u
        | (u, false) => (plug path u).paint false
      | node true l o r =>
        -- the red sibling is rotated above `f`, and its child is the sibling then
        match f.side.pick l r with
        | nil => plug (f :: path) t
        | node _ l' o' r' =>
          match mend { f with red := true } t (f.side.pick l' r') o' (f.side.pick r' l') with
          | (u, true) => plug (⟨f.side, false, o, f.side.pick r l⟩ :: path) (u.paint false)
          | (u, false) => (plug (⟨f.side, false, o, f.side.pick r l⟩ :: path) u).paint false

/-- The node goes, or rather the next one takes its place where it has two children. -/
def eraseAt (path : List (Frame α)) (c : Bool) (l : RbTree α) (a : α) (r : RbTree α) : RbTree α :=
  match l, r with
  | nil, r => if c then plug path r else eraseFix path r
  | l, nil => if c then plug path l else eraseFix path l
  | l, r =>
    match outermost .left [] r with
    | (_, nil) => plug path (node c l a r)
    | (fs, node c' _ b y) =>
      if c' then plug (fs ++ ⟨.right, c, b, l⟩ :: path) y else eraseFix (fs ++ ⟨.right, c, b, l⟩ :: path) y

/-! ## One step up -/

section

variable {f : Frame α} {t near far : RbTree α} {o : α}

theorem mend_black (hn : near.isRed = false) (hf : far.isRed = false) :
    mend f t near o far = (nodeOn f.side f.red t f.a (nodeOn f.side true near o far), true) := by
  unfold mend
  rw [if_pos ⟨hn, hf⟩]

theorem mend_far (hf : far.isRed = true) :
    mend f t near o far =
      (nodeOn f.side f.red (nodeOn f.side false t f.a near) o (far.paint false), false) := by
  unfold mend
  rw [if_neg (fun h => Bool.false_ne_true (h.2.symm.trans hf)), if_neg (fun h => Bool.false_ne_true (h.symm.trans hf))]

theorem mend_near {x y : RbTree α} {b : α} (hf : far.isRed = false) :
    mend f t (nodeOn f.side true x b y) o far =
      (nodeOn f.side f.red (nodeOn f.side false t f.a x) b (nodeOn f.side false y o far), false) := by
  unfold mend
  rw [if_neg (fun h => Bool.false_ne_true h.1.symm), if_pos hf]
  cases f.side <;> rfl

/-- The three ways to mend. -/
theorem mend_cases (f : Frame α) (t near : RbTree α) (o : α) (far : RbTree α) :
    near.isRed = false ∧ far.isRed = false ∧
        mend f t near o far = (nodeOn f.side f.red t f.a (nodeOn f.side true near o far), true) ∨
      far.isRed = true ∧
        mend f t near o far =
          (nodeOn f.side f.red (nodeOn f.side false t f.a near) o (far.paint false), false) ∨
      far.isRed = false ∧ ∃ x b y, near = nodeOn f.side true x b y ∧
        mend f t near o far =
          (nodeOn f.side f.red (nodeOn f.side false t f.a x) b (nodeOn f.side false y o far), false) := by
  cases hf : far.isRed with
  | true => exact .inr (.inl ⟨rfl, mend_far hf⟩)
  | false =>
    cases near with
    | nil => exact .inl ⟨rfl, rfl, mend_black rfl hf⟩
    | node c l x r =>
      cases c with
      | false => exact .inl ⟨rfl, rfl, mend_black rfl hf⟩
      | true =>
        obtain ⟨near, far', hnode⟩ := exists_nodeOn f.side true l r x
        rw [hnode]
        exact .inr (.inr ⟨rfl, near, x, far', rfl, mend_near hf⟩)

theorem toList_mend (c : Bool) (f : Frame α) (t near : RbTree α) (o : α) (far : RbTree α) :
    (mend f t near o far).1.toList = (nodeOn f.side f.red t f.a (nodeOn f.side c near o far)).toList := by
  rcases mend_cases f t near o far with ⟨-, -, h⟩ | ⟨-, h⟩ | ⟨-, x, b, y, rfl, h⟩
  all_goals
    rw [h]
    cases f.side <;> simp [nodeOn, Side.pick]

/-- A tree in which a black node is missing on all ways, up to a red root that may turn black. -/
def Short (t : RbTree α) (n : ℕ) : Prop :=
  if t.isRed then (t.paint false).Height (n + 1) else t.Height n

theorem Height.short {n : ℕ} (h : t.Height n) : t.Short n := by
  unfold Short
  split_ifs with hred
  · exact h.paint_black hred
  · exact h

theorem Short.paint {n : ℕ} (h : t.Short n) : (t.paint false).RedBlack := by
  unfold Short at h
  split_ifs at h with hred
  · cases t with
    | nil => cases hred
    | node c l a r => exact ⟨rfl, n + 1, h⟩
  · exact RedBlack.of_height h

/-- **One step up.** Either the tree below `f` is still short, or it is as high as it was. -/
theorem short_mend {n : ℕ} (ht : t.Height n)
    (ho : (nodeOn f.side false near o far).Height (n + 1)) :
    (mend f t near o far).1.isRed = f.red ∧
      if (mend f t near o far).2 then (mend f t near o far).1.Short (if f.red then n else n + 1)
      else (mend f t near o far).1.Height (if f.red then n + 1 else n + 1 + 1) := by
  obtain ⟨hn, hf⟩ := height_black_succ.mp ho
  rcases mend_cases f t near o far with ⟨hnc, hfc, h⟩ | ⟨hfc, h⟩ | ⟨hfc, x, b, y, rfl, h⟩
  · rw [h]
    refine ⟨rfl, ?_⟩
    have hsib : (nodeOn f.side true near o far).Height n := ho.paint_red hnc hfc
    rw [if_pos rfl, Short, isRed_nodeOn]
    split_ifs with hred
    · exact height_black_succ.mpr ⟨ht, hsib⟩
    · rw [Bool.eq_false_iff.mpr hred]
      exact height_black_succ.mpr ⟨ht, hsib⟩
  · rw [h]
    refine ⟨rfl, ?_⟩
    have hleft : (nodeOn f.side false t f.a near).Height (n + 1) := height_black_succ.mpr ⟨ht, hn⟩
    have hright := hf.paint_black hfc
    rw [if_neg Bool.false_ne_true]
    split_ifs with hred
    · rw [hred]
      refine height_red.mpr ⟨⟨rfl, ?_⟩, hleft, hright⟩
      cases far <;> rfl
    · rw [Bool.eq_false_iff.mpr hred]
      exact height_black_succ.mpr ⟨hleft, hright⟩
  · rw [h]
    refine ⟨rfl, ?_⟩
    obtain ⟨-, hx, hy⟩ := height_red.mp hn
    have hleft : (nodeOn f.side false t f.a x).Height (n + 1) := height_black_succ.mpr ⟨ht, hx⟩
    have hright : (nodeOn f.side false y o far).Height (n + 1) := height_black_succ.mpr ⟨hy, hf⟩
    rw [if_neg Bool.false_ne_true]
    split_ifs with hred
    · rw [hred]
      exact height_red.mpr ⟨⟨rfl, rfl⟩, hleft, hright⟩
    · rw [Bool.eq_false_iff.mpr hred]
      exact height_black_succ.mpr ⟨hleft, hright⟩

end

/-! ## All the way -/

theorem eraseFix_red {f : Frame α} {path : List (Frame α)} {t : RbTree α} (h : t.isRed = true) :
    eraseFix (f :: path) t = plug (f :: path) (t.paint false) := by
  unfold eraseFix
  rw [if_pos h]

/-- The black sibling. -/
theorem eraseFix_black {f : Frame α} {path : List (Frame α)} {t near far : RbTree α} {o : α}
    (h : t.isRed = false) (hsib : f.sib = nodeOn f.side false near o far) :
    eraseFix (f :: path) t =
      if (mend f t near o far).2 then eraseFix path (mend f t near o far).1
      else (plug path (mend f t near o far).1).paint false := by
  have hpick : f.side.pick (f.side.pick near far) (f.side.pick far near) = near ∧
      f.side.pick (f.side.pick far near) (f.side.pick near far) = far := by cases f.side <;> exact ⟨rfl, rfl⟩
  rw [eraseFix, if_neg (Bool.eq_false_iff.mp h), hsib, nodeOn]
  dsimp only
  rw [hpick.1, hpick.2]
  rcases mend f t near o far with ⟨u, _ | _⟩ <;> rfl

/-- The red sibling `o`, whose child `o'` is the sibling then. -/
theorem eraseFix_lift {f : Frame α} {path : List (Frame α)} {t near far far' : RbTree α} {o o' : α} {c : Bool}
    (h : t.isRed = false) (hsib : f.sib = nodeOn f.side true (nodeOn f.side c near o' far) o far') :
    eraseFix (f :: path) t =
      if (mend { f with red := true } t near o' far).2 then
        plug (⟨f.side, false, o, far'⟩ :: path) ((mend { f with red := true } t near o' far).1.paint false)
      else (plug (⟨f.side, false, o, far'⟩ :: path) (mend { f with red := true } t near o' far).1).paint false := by
  have hpick : ∀ x y : RbTree α, f.side.pick (f.side.pick x y) (f.side.pick y x) = x := by
    intro x y
    cases f.side <;> rfl
  have hpick' : ∀ x y : RbTree α, f.side.pick (f.side.pick y x) (f.side.pick x y) = y := by
    intro x y
    cases f.side <;> rfl
  rw [eraseFix, if_neg (Bool.eq_false_iff.mp h), hsib, nodeOn]
  dsimp only
  rw [hpick, hpick', nodeOn]
  dsimp only
  rw [hpick, hpick']
  generalize mend _ t near o' far = m
  rcases m with ⟨u, _ | _⟩ <;> rfl

/-- What the tree above a black node that is missing looks like. -/
theorem sib_cases {f : Frame α} {n : ℕ} (h : f.sib.Height (n + 1)) :
    (∃ near o far, f.sib = nodeOn f.side false near o far) ∨
      ∃ near o' far o far', f.sib = nodeOn f.side true (nodeOn f.side false near o' far) o far' := by
  obtain ⟨c, x, o, y, hsib⟩ := h.exists_node f.side
  rw [hsib] at h ⊢
  cases c with
  | false => exact .inl ⟨x, o, y, rfl⟩
  | true =>
    obtain ⟨⟨hx, -⟩, hxn, -⟩ := height_red.mp h
    obtain ⟨c', near, o', far, rfl⟩ := hxn.exists_node f.side
    obtain rfl : c' = false := hx
    exact .inr ⟨near, o', far, o, y, rfl⟩

/-- **The missing black node is made up for.** -/
theorem redBlack_eraseFix {path : List (Frame α)} {t : RbTree α} {n : ℕ} (hpath : Fits path (n + 1))
    (ht : t.Short n) : (eraseFix path t).RedBlack := by
  induction path generalizing t n with
  | nil => exact ht.paint
  | cons f path ih =>
    cases htc : t.isRed with
    | true =>
      rw [Short, if_pos htc] at ht
      rw [eraseFix_red htc]
      refine redBlack_plug hpath ht fun h => ?_
      cases t <;> cases h
    | false =>
      rw [Short, if_neg (Bool.eq_false_iff.mp htc)] at ht
      obtain ⟨hsib, hf, hup⟩ := hpath
      rcases sib_cases hsib with ⟨near, o, far, ho⟩ | ⟨near, o', far, o, far', ho⟩
      · rw [ho] at hsib
        obtain ⟨hcolour, hmend⟩ := short_mend ht hsib
        rw [eraseFix_black htc ho]
        split_ifs at hmend ⊢ with hflag hred hred
        · rw [if_pos hred] at hup
          exact ih hup hmend
        · rw [if_neg hred] at hup
          exact ih hup hmend
        · rw [if_pos hred] at hup
          exact (redBlack_plug hup hmend fun _ => (hf hred).2).paint
        · rw [if_neg hred] at hup
          refine (redBlack_plug hup hmend fun h => ?_).paint
          exact absurd (hcolour.symm.trans h) hred
      · -- a red sibling has a black parent
        have hred : f.red = false := by
          cases hfr : f.red with
          | false => rfl
          | true =>
            have := (hf hfr).1
            rw [ho] at this
            cases this
        rw [hred] at hup
        rw [ho] at hsib
        obtain ⟨⟨-, hfar'c⟩, ho', hfar'⟩ := height_red.mp hsib
        obtain ⟨-, hmend⟩ := short_mend (f := { f with red := true }) ht ho'
        have hup' : Fits (⟨f.side, false, o, far'⟩ :: path) (n + 1) := ⟨hfar', fun h => absurd h Bool.false_ne_true, hup⟩
        rw [eraseFix_lift htc ho]
        rw [if_pos rfl, if_pos rfl] at hmend
        split_ifs at hmend ⊢ with hflag
        · have hblack : (mend { f with red := true } t near o' far).1.isRed = true :=
            (short_mend (f := { f with red := true }) ht ho').1
          rw [Short, if_pos hblack] at hmend
          refine redBlack_plug hup' hmend fun _ => rfl
        · exact (redBlack_plug hup' hmend fun _ => rfl).paint

theorem toList_eraseFix (path : List (Frame α)) (t : RbTree α) :
    (eraseFix path t).toList = (plug path t).toList := by
  induction path generalizing t with
  | nil => exact toList_paint false t
  | cons f path ih =>
    cases htc : t.isRed with
    | true =>
      rw [eraseFix_red htc]
      exact toList_plug_congr (f :: path) (toList_paint false t)
    | false =>
      cases hsib : f.sib with
      | nil =>
        unfold eraseFix
        rw [if_neg (Bool.eq_false_iff.mp htc), hsib]
      | node c l o r =>
        obtain ⟨near, far, hnode⟩ := exists_nodeOn f.side c l r o
        rw [hnode] at hsib
        cases c with
        | false =>
          have hlist := toList_mend false f t near o far
          rw [← hsib] at hlist
          rw [eraseFix_black htc hsib]
          split_ifs
          · rw [ih]
            exact toList_plug_congr path hlist
          · rw [toList_paint]
            exact toList_plug_congr path hlist
        | true =>
          cases near with
          | nil =>
            unfold eraseFix
            rw [if_neg (Bool.eq_false_iff.mp htc), hsib]
            cases f.side <;> rfl
          | node c' l' o' r' =>
            obtain ⟨near, far', hnode'⟩ := exists_nodeOn f.side c' l' r' o'
            rw [hnode'] at hsib
            -- the rotation first, then the step below it
            have hlist : (plug (⟨f.side, false, o, far⟩ :: path)
                (mend { f with red := true } t near o' far').1).toList = (plug (f :: path) t).toList := by
              refine (toList_plug_congr _ (toList_mend c' _ t near o' far')).trans ?_
              refine toList_plug_congr path ?_
              rw [Frame.attach, Frame.attach, hsib]
              exact toList_rotate f.side false f.red true true t _ far f.a o
            rw [eraseFix_lift htc hsib]
            split_ifs
            · exact (toList_plug_congr _ (toList_paint false _)).trans hlist
            · exact (toList_paint false _).trans hlist

/-! ## The node goes -/

theorem before_append (fs path : List (Frame α)) : before (fs ++ path) = before path ++ before fs := by
  induction fs with
  | nil => exact (List.append_nil _).symm
  | cons f fs ih => rw [List.cons_append, before, before, ih, List.append_assoc]

theorem after_append (fs path : List (Frame α)) : after (fs ++ path) = after fs ++ after path := by
  induction fs with
  | nil => rfl
  | cons f fs ih => rw [List.cons_append, after, after, ih, List.append_assoc]

theorem before_eq_nil {fs : List (Frame α)} (h : ∀ f ∈ fs, f.side = .left) : before fs = [] := by
  induction fs with
  | nil => rfl
  | cons f fs ih =>
    obtain ⟨hf, hfs⟩ := List.forall_mem_cons.mp h
    rw [before, ih hfs, hf]
    rfl

/-- The ways to erase a node: it has a child missing, or the next node takes its place. -/
theorem eraseAt_cases (path : List (Frame α)) (c : Bool) (l : RbTree α) (a : α) (r : RbTree α) :
    (∃ s x, node c l a r = nodeOn s c nil a x ∧
      eraseAt path c l a r = if c then plug path x else eraseFix path x) ∨
    ∃ fs c' b y, (∀ f ∈ fs, f.side = .left) ∧ plug fs (node c' nil b y) = r ∧ l ≠ nil ∧
      eraseAt path c l a r =
        if c' then plug (fs ++ ⟨.right, c, b, l⟩ :: path) y
        else eraseFix (fs ++ ⟨.right, c, b, l⟩ :: path) y := by
  cases l with
  | nil => exact .inl ⟨.left, r, rfl, rfl⟩
  | node cl ll al rl =>
    cases r with
    | nil => exact .inl ⟨.right, _, rfl, rfl⟩
    | node cr lr ar rr =>
      obtain ⟨fs, c', b, y, hway, hside, hplug⟩ :=
        outermost_spec .left [] (node_ne_nil cr lr rr ar)
      rw [List.append_nil] at hway
      refine .inr ⟨fs, c', b, y, hside, hplug, node_ne_nil cl ll rl al, ?_⟩
      unfold eraseAt
      dsimp only
      rw [hway]
      rfl

theorem toList_eraseAt (path : List (Frame α)) (c : Bool) (l : RbTree α) (a : α) (r : RbTree α) :
    (eraseAt path c l a r).toList = before path ++ (l.toList ++ r.toList) ++ after path := by
  rcases eraseAt_cases path c l a r with ⟨s, x, hnode, h⟩ | ⟨fs, c', b, y, hside, rfl, -, h⟩
  · have hx : l.toList ++ r.toList = x.toList := by
      cases s
      all_goals
        obtain ⟨-, rfl, -, rfl⟩ := RbTree.node.inj hnode
        simp [Side.pick]
    rw [h, hx]
    split_ifs
    · exact toList_plug path x
    · rw [toList_eraseFix, toList_plug]
  · have hlist : (plug (fs ++ ⟨.right, c, b, l⟩ :: path) y).toList =
        before path ++ (l.toList ++ (plug fs (node c' nil b y)).toList) ++ after path := by
      rw [toList_plug, toList_plug, before_append, after_append, before_eq_nil hside]
      simp [before, after, Side.pick]
    rw [h]
    split_ifs
    · exact hlist
    · rw [toList_eraseFix, hlist]

/-- The name of a node does not count. -/
theorem RedBlack.relabel {path : List (Frame α)} {c : Bool} {l r : RbTree α} {a : α}
    (h : (plug path (node c l a r)).RedBlack) (b : α) : (plug path (node c l b r)).RedBlack := by
  obtain ⟨n, hpath, hn, hmay⟩ := fits_of_redBlack h
  refine redBlack_plug hpath ?_ hmay
  cases c <;> exact hn

/-- **The tree without a node is a red-black tree.** -/
theorem redBlack_eraseAt {path : List (Frame α)} {c : Bool} {l r : RbTree α} {a : α}
    (h : (plug path (node c l a r)).RedBlack) : (eraseAt path c l a r).RedBlack := by
  -- one child is missing: the other one goes up
  have hone : ∀ (s : Side) (path : List (Frame α)) (c : Bool) (x : RbTree α) (a : α),
      (plug path (nodeOn s c nil a x)).RedBlack →
      (if c then plug path x else eraseFix path x).RedBlack := by
    intro s path c x a h
    obtain ⟨n, hpath, hn, hmay⟩ := fits_of_redBlack h
    cases c with
    | true =>
      obtain ⟨⟨-, hx⟩, -, hxn⟩ := height_red.mp hn
      rw [if_pos rfl]
      exact redBlack_plug hpath hxn fun hred => absurd (hx.symm.trans hred) Bool.false_ne_true
    | false =>
      obtain ⟨m, rfl, -, hxm⟩ := height_black.mp hn
      rw [if_neg Bool.false_ne_true]
      exact redBlack_eraseFix hpath hxm.short
  rcases eraseAt_cases path c l a r with ⟨s, x, hnode, he⟩ | ⟨fs, c', b, y, -, hplug, -, he⟩
  · rw [hnode] at h
    rw [he]
    exact hone s path c x a h
  · have hb := h.relabel b
    rw [he]
    refine hone .left (fs ++ ⟨.right, c, b, l⟩ :: path) c' y b ?_
    rw [plug_append, show nodeOn .left c' nil b y = node c' nil b y from rfl, hplug]
    exact hb

end RbTree

/-- **The red-black scheme**, in which a node is found by its place in the tree. -/
def Balancer.redBlack (α : Type*) [DecidableEq α] : Balancer α where
  insertColor a t :=
    match t.locate a [] with
    | none => t
    | some (path, t') => (RbTree.insertFix path t').paint false
  erase a t :=
    match t.locate a [] with
    | some (path, .node c l _ r) => RbTree.eraseAt path c l a r
    | _ => t
  toList_insertColor a t := by
    split
    · rfl
    · next path t' h =>
      rw [RbTree.toList_paint, RbTree.toList_insertFix, (RbTree.locate_spec h).1]
      rfl
  toList_erase a t hnodup := by
    split
    · next path c l b r h =>
      obtain ⟨hplug, c', l', r', hnode⟩ := RbTree.locate_spec h
      obtain ⟨rfl, rfl, rfl, rfl⟩ := RbTree.node.inj hnode
      rw [RbTree.plug_nil] at hplug
      have hlist : t.toList = (RbTree.before path ++ l.toList) ++ b :: (r.toList ++ RbTree.after path) := by
        rw [← hplug, RbTree.toList_plug, RbTree.toList_node]
        simp
      rw [hlist] at hnodup ⊢
      have hnot : b ∉ RbTree.before path ++ l.toList :=
        fun hb => (List.nodup_append.mp hnodup).2.2 b hb b List.mem_cons_self rfl
      rw [RbTree.toList_eraseAt, List.erase_append_right _ hnot, List.erase_cons_head]
      simp
    · next h =>
      refine (List.erase_of_not_mem fun ha => ?_).symm
      cases hway : t.locate a [] with
      | none => exact RbTree.locate_eq_none.mp hway ha
      | some found =>
        obtain ⟨path, t'⟩ := found
        obtain ⟨-, c, l, r, rfl⟩ := RbTree.locate_spec hway
        exact h path c l a r hway

/-! ## A search, and what it leads to -/

namespace RbTree

variable {α : Type*}

/-- A node is added where the search for its place ends, unless that finds one. -/
def insertBy (dir : α → Option Side) (a : α) (t : RbTree α) : RbTree α :=
  match descend dir [] t with
  | (path, nil) => insertAt path a
  | (_, node _ _ _ _) => t

def remove [DecidableEq α] (a : α) (t : RbTree α) : RbTree α := (Balancer.redBlack α).erase a t

theorem redBlack_nil : (nil : RbTree α).RedBlack := ⟨rfl, 0, rfl⟩

theorem redBlack_insertBy {dir : α → Option Side} {a : α} {t : RbTree α} (h : t.RedBlack) :
    (insertBy dir a t).RedBlack := by
  have hplug := plug_descend dir [] t
  rw [insertBy]
  rcases hdesc : descend dir [] t with ⟨path, _ | ⟨c, l, b, r⟩⟩
  · rw [hdesc] at hplug
    exact redBlack_insertAt (hplug.symm ▸ h) a
  · exact h

theorem redBlack_remove [DecidableEq α] {a : α} {t : RbTree α} (h : t.RedBlack) : (remove a t).RedBlack := by
  rw [remove, Balancer.redBlack]
  dsimp only
  split
  · next path c l b r hway =>
    obtain ⟨hplug, c', l', r', hnode⟩ := locate_spec hway
    obtain ⟨rfl, rfl, rfl, rfl⟩ := RbTree.node.inj hnode
    refine redBlack_eraseAt ?_
    rw [hplug]
    exact h
  · exact h

theorem toList_remove [DecidableEq α] {a : α} {t : RbTree α} (h : t.toList.Nodup) :
    (remove a t).toList = t.toList.filter fun b => b ≠ a := by
  rw [remove, (Balancer.redBlack α).toList_erase a t h, h.erase_eq_filter]
  refine List.filter_congr fun b _ => ?_
  rw [Bool.eq_iff_iff]
  simp

/-- Where the turns fit the order, the new node comes between those to be passed on its left and the others. -/
theorem toList_insertBy {dir : α → Option Side} {a : α} {t : RbTree α} (h : Guides dir t.toList) :
    ∃ xs ys, (∀ x ∈ xs, dir x = some .right) ∧
      ((∃ b, dir b = none ∧ t.toList = xs ++ b :: ys ∧ insertBy dir a t = t) ∨
        (∀ y ∈ ys, dir y = some .left) ∧ t.toList = xs ++ ys ∧ (insertBy dir a t).toList = xs ++ a :: ys) := by
  obtain ⟨xs, ys, hlist, hbefore, hafter, hx, hy, hend⟩ := descend_split h []
  rw [insertBy]
  rcases hdesc : descend dir [] t with ⟨path, _ | ⟨c, l, b, r⟩⟩
  · rw [hdesc] at hlist hbefore hafter
    refine ⟨xs, ys, hx, .inr ⟨hy, ?_, ?_⟩⟩
    · rw [hlist, toList_nil, List.append_nil]
    · dsimp only
      rw [toList_insertAt, hbefore, hafter, before, after, List.nil_append, List.append_nil]
  · rw [hdesc] at hlist hend
    have hdir := hend c l b r rfl
    have hlist : t.toList = (xs ++ l.toList) ++ b :: (r.toList ++ ys) := by
      rw [hlist]
      simp
    refine ⟨xs ++ l.toList, r.toList ++ ys, fun x hmem => ?_, .inl ⟨b, hdir, hlist, rfl⟩⟩
    rw [hlist] at h
    refine ((List.pairwise_append.mp h).2.2 x hmem b List.mem_cons_self).resolve_right fun hleft => ?_
    rw [hdir] at hleft
    cases hleft

end RbTree

end SearchTree
