import Blktrace.Rbtree.Walk

/-!
# Runs

The users of the tree search for the place of a new node themselves, link it there and have the colours mended.
Whatever such additions and removals follow upon each other, no step reads where no node is, none of the loops
goes on for long, and the memory holds a red-black tree. Where the searches go by a key it holds the nodes in the
order of their keys.
-/

namespace Blktrace.Rbtree

open SearchTree
open SearchTree.RbTree hiding node

/-! ## The code -/

/-- `*p` -/
def Link.read (h : Heap) : Link → Option Ptr
  | .root => some h.rbNode
  | .child p s => (h.get p).map (RbNode.child s)

/-- `while (*p) { parent = *p; ... }`, where `dir` says what the comparison with the node comes to; the third is the
node where the search stops. -/
def rbSearch (dir : Ptr → Option Side) : ℕ → Ptr → Link → Heap → Option (Ptr × Link × Ptr)
  | 0, _, _, _ => none
  | fuel + 1, parent, link, h => do
    let p ← link.read h
    if p = 0 then return (parent, link, 0)
    else
      match dir p with
      | none => return (parent, link, p)
      | some s => rbSearch dir fuel p (.child p s) h

/-- The node is linked where the search ends, unless that finds one. -/
def rbAdd (dir : Ptr → Option Side) (fuel : ℕ) (node : Ptr) (h : Heap) : Option Heap := do
  let (parent, link, found) ← rbSearch dir fuel 0 .root h
  if found = 0 then
    let h ← rbLinkNode node parent link h
    rbInsertColor fuel node h
  else return h

/-- What the users of a tree do with it. -/
inductive Op
  | add (a : Addr)
  | erase (a : Addr)

/-- `dir a p` is where the search for the place of `a` goes from the node `p`. -/
def Op.run (dir : Ptr → Ptr → Option Side) (fuel : ℕ) : Op → Heap → Option Heap
  | add a, h => rbAdd (dir a) fuel a h
  | erase a, h => rbErase fuel a h

/-- `RB_ROOT` -/
def rbRoot (mem : Ptr → Option RbNode) : Heap := ⟨mem, 0⟩

/-! ## The tree -/

def Op.apply (dir : Ptr → Ptr → Option Side) : Op → RbTree Addr → RbTree Addr
  | add a, t => insertBy (fun p : Addr => dir a p) a t
  | erase a, t => remove a t

/-- A node is added that is not in the tree, and erased where it is. -/
def Op.Fits : Op → List Addr → Prop
  | add a, l => a ∉ l
  | erase a, l => a ∈ l

def RunFits (dir : Ptr → Ptr → Option Side) : List Op → RbTree Addr → Prop
  | [], _ => True
  | op :: ops, t => op.Fits t.toList ∧ RunFits dir ops (op.apply dir t)

/-! ## One operation -/

section

variable {h : Heap} {k : List (Frame Addr)} {t : RbTree Addr} {fuel : ℕ}

theorem RepPath.read {hole : Ptr} (hp : RepPath h hole k) : (linkOf k).read h = some hole := by
  cases k with
  | nil => exact congrArg some hp
  | cons f k =>
    obtain ⟨n, hn, -, -, hx, -⟩ := hp.1.get
    rw [linkOf, Link.read, hn, Option.map_some, hx]

theorem rbSearch_spec (dir : Ptr → Option Side) (hh : Holds h (plug k t)) (hfuel : t.depth < fuel) :
    rbSearch dir fuel (above k) (linkOf k) h =
      some (above (descend (fun p : Addr => dir p) k t).1, linkOf (descend (fun p : Addr => dir p) k t).1,
        top (descend (fun p : Addr => dir p) k t).2) := by
  induction t generalizing k fuel with
  | nil =>
    obtain ⟨fuel, rfl⟩ := Nat.exists_eq_add_one_of_ne_zero (Nat.ne_of_gt hfuel)
    have hread := (holds_plug.mp hh).1.read
    simp only [rbSearch, hread, top, if_true, Option.bind_eq_bind, Option.bind_some]
    rfl
  | node c l a r ihl ihr =>
    obtain ⟨fuel, rfl⟩ := Nat.exists_eq_add_one_of_ne_zero (Nat.ne_of_gt (Nat.zero_lt_of_lt hfuel))
    have hread := (holds_plug.mp hh).1.read
    rw [depth] at hfuel
    rw [descend]
    simp only [rbSearch, hread, top, a.2.1, if_false, Option.bind_eq_bind, Option.bind_some]
    cases hdir : dir a with
    | none => rfl
    | some s =>
      cases s with
      | left => exact ihl (k := ⟨.left, c, a, r⟩ :: k) hh (by omega)
      | right => exact ihr (k := ⟨.right, c, a, l⟩ :: k) hh (by omega)

/-- The root of a red-black tree is the last one above any hole. -/
theorem RedBlack.getLast_black (h : (plug k t).RedBlack) : ∀ f ∈ k.getLast?, f.red = false := by
  induction k generalizing t with
  | nil => exact fun f hf => absurd hf (Option.not_mem_none f)
  | cons f k ih =>
    cases k with
    | nil =>
      intro g hg
      obtain rfl := Option.some.inj hg
      exact h.black
    | cons g k => exact ih h

theorem rbAdd_spec {dir : Ptr → Option Side} {a : Addr} (hh : Holds h t) (hrb : t.RedBlack) (ha : a ∉ t.toList)
    (hfuel : t.depth + 2 ≤ fuel) :
    ∃ h', rbAdd dir fuel a h = some h' ∧ Holds h' (insertBy (fun p : Addr => dir p) a t) := by
  have hsearch : rbSearch dir fuel 0 .root h = _ := rbSearch_spec (k := []) dir hh (show t.depth < fuel by omega)
  have hplug : plug _ _ = plug [] t := plug_descend (fun p : Addr => dir p) [] t
  rw [insertBy]
  rcases hdesc : descend (fun p : Addr => dir p) [] t with ⟨k, _ | ⟨c, l, b, r⟩⟩
  · rw [hdesc] at hsearch hplug
    have hplug : plug k nil = t := hplug
    have hsearch : rbSearch dir fuel 0 .root h = some (above k, linkOf k, 0) := hsearch
    have hlength := length_add_depth_le k nil
    rw [hplug] at hlength
    rw [← hplug] at hh ha hrb
    obtain ⟨h₁, hs₁, hh₁⟩ := rbLinkNode_spec hh ha
    have hturns : k.length + 4 ≤ 2 * fuel := by omega
    obtain ⟨h', hs, hh'⟩ := rbInsertColor_spec hh₁ rfl (RedBlack.getLast_black hrb) hturns
    refine ⟨h', ?_, hh'⟩
    have hs : rbInsertColor fuel a h₁ = some h' := hs
    simp only [rbAdd, hsearch, if_true, hs₁, hs, Option.bind_eq_bind, Option.bind_some]
  · rw [hdesc] at hsearch
    refine ⟨h, ?_, hh⟩
    have hsearch : rbSearch dir fuel 0 .root h = some (above k, linkOf k, b.1) := hsearch
    simp only [rbAdd, hsearch, b.2.1, if_false, Option.bind_eq_bind, Option.bind_some]
    rfl

theorem rbErase_remove {a : Addr} (hh : Holds h t) (hrb : t.RedBlack) (ha : a ∈ t.toList) (hfuel : t.depth < fuel) :
    ∃ h', rbErase fuel a h = some h' ∧ Holds h' (remove a t) := by
  rw [remove, Balancer.redBlack]
  dsimp only
  split
  · next k c l b r hway =>
    obtain ⟨hplug, c', l', r', hnode⟩ := locate_spec hway
    obtain ⟨rfl, rfl, rfl, rfl⟩ := RbTree.node.inj hnode
    rw [plug_nil] at hplug
    rw [← hplug] at hh hrb hfuel
    exact rbErase_spec hh hrb hfuel
  · next hnone =>
    cases hway : t.locate a [] with
    | none => exact absurd ha (locate_eq_none.mp hway)
    | some found =>
      obtain ⟨k, t'⟩ := found
      obtain ⟨-, c, l, r, rfl⟩ := locate_spec hway
      exact absurd hway (hnone k c l a r)

end

/-! ## Runs -/

section

variable {dir : Ptr → Ptr → Option Side} {h : Heap} {t : RbTree Addr} {fuel : ℕ}

theorem Op.redBlack_apply (op : Op) (hrb : t.RedBlack) : (op.apply dir t).RedBlack := by
  cases op with
  | add a => exact redBlack_insertBy hrb
  | erase a => exact redBlack_remove hrb

/-- One node more at most. -/
theorem Op.length_apply_le (op : Op) (hnodup : t.toList.Nodup) :
    (op.apply dir t).toList.length ≤ t.toList.length + 1 := by
  cases op with
  | add a =>
    have hplug := plug_descend (fun p : Addr => dir a p) [] t
    rw [Op.apply, insertBy]
    rcases hdesc : descend (fun p : Addr => dir a p) [] t with ⟨k, _ | ⟨c, l, b, r⟩⟩
    · rw [hdesc] at hplug
      have hlist : t.toList = before k ++ nil.toList ++ after k := by
        rw [← toList_plug]
        exact congrArg toList hplug.symm
      dsimp only
      rw [toList_insertAt, hlist, toList_nil]
      simp
      omega
    · exact Nat.le_succ _
  | erase a =>
    rw [Op.apply, toList_remove hnodup]
    exact (List.length_filter_le _ _).trans (Nat.le_succ _)

/-- **One step** keeps memory and tree together. -/
theorem Op.run_spec {op : Op} (hh : Holds h t) (hrb : t.RedBlack) (hfits : op.Fits t.toList)
    (hfuel : t.depth + 2 ≤ fuel) :
    ∃ h', op.run dir fuel h = some h' ∧ Holds h' (op.apply dir t) := by
  cases op with
  | add a => exact rbAdd_spec hh hrb hfits hfuel
  | erase a => exact rbErase_remove hh hrb hfits (by omega)

/-- **A whole run** does. -/
theorem run_spec {ops : List Op} (hh : Holds h t) (hrb : t.RedBlack) (hfits : RunFits dir ops t)
    (hfuel : 2 * Nat.log 2 (t.toList.length + ops.length + 1) + 2 ≤ fuel) :
    ∃ h', ops.foldlM (fun h op => op.run dir fuel h) h = some h' ∧
      Holds h' (ops.foldl (fun t op => op.apply dir t) t) ∧
      (ops.foldl (fun t op => op.apply dir t) t).RedBlack ∧
      (ops.foldl (fun t op => op.apply dir t) t).toList.length ≤ t.toList.length + ops.length := by
  induction ops generalizing h t with
  | nil => exact ⟨h, rfl, hh, hrb, le_refl _⟩
  | cons op ops ih =>
    obtain ⟨hop, hrest⟩ := hfits
    rw [List.length_cons] at hfuel
    have hlog : Nat.log 2 (t.toList.length + 1) ≤ Nat.log 2 (t.toList.length + (ops.length + 1) + 1) :=
      Nat.log_mono_right (by omega)
    have hdepth : t.depth + 2 ≤ fuel := by
      have hle := hrb.depth_le
      omega
    obtain ⟨h₁, hs₁, hh₁⟩ : ∃ h', op.run dir fuel h = some h' ∧ Holds h' (op.apply dir t) :=
      Op.run_spec hh hrb hop hdepth
    have hlen : (op.apply dir t).toList.length ≤ t.toList.length + 1 := op.length_apply_le hh.nodup
    have hmono : Nat.log 2 ((op.apply dir t).toList.length + ops.length + 1) ≤
        Nat.log 2 (t.toList.length + (ops.length + 1) + 1) := Nat.log_mono_right (by omega)
    obtain ⟨h', hs, hh', hrb', hlen'⟩ := ih hh₁ (op.redBlack_apply hrb) hrest (by omega)
    refine ⟨h', ?_, hh', hrb', ?_⟩
    · rw [List.foldlM_cons, hs₁, Option.bind_eq_bind, Option.bind_some]
      exact hs
    · rw [List.foldl_cons, List.length_cons]
      omega

theorem holds_rbRoot (mem : Ptr → Option RbNode) : Holds (rbRoot mem) nil := ⟨rfl, trivial, List.nodup_nil⟩

/-- **No run goes wrong**: it reads nodes only, no loop takes more turns than twice the logarithm of the number of
operations and two, and a red-black tree is in memory behind it. -/
theorem rbtree_run {ops : List Op} (mem : Ptr → Option RbNode) (hfits : RunFits dir ops nil)
    (hfuel : 2 * Nat.log 2 (ops.length + 1) + 2 ≤ fuel) :
    ∃ h, ops.foldlM (fun h op => op.run dir fuel h) (rbRoot mem) = some h ∧
      Holds h (ops.foldl (fun t op => op.apply dir t) nil) ∧
      (ops.foldl (fun t op => op.apply dir t) nil).RedBlack := by
  have hfuel' : 2 * Nat.log 2 ((nil : RbTree Addr).toList.length + ops.length + 1) + 2 ≤ fuel := by
    rw [toList_nil, List.length_nil, Nat.zero_add]
    exact hfuel
  obtain ⟨h, hs, hh, hrb, -⟩ := run_spec (holds_rbRoot mem) redBlack_nil hfits hfuel'
  exact ⟨h, hs, hh, hrb⟩

/-- Two nodes are added by their addresses, and one is erased. -/
theorem rbtree_run_three : ∃ h,
    [Op.add addr8, .add addr16, .erase addr8].foldlM
        (fun h op => op.run (fun a p => if a.toNat < p.toNat then some .left else some .right) 6 h)
        (rbRoot fun _ => none) = some h ∧
      Holds h ([Op.add addr8, .add addr16, .erase addr8].foldl
        (fun t op => op.apply (fun a p => if a.toNat < p.toNat then some .left else some .right) t) nil) ∧
      ([Op.add addr8, .add addr16, .erase addr8].foldl
        (fun t op => op.apply (fun a p => if a.toNat < p.toNat then some .left else some .right) t) nil).RedBlack :=
  rbtree_run _ (by simp [RunFits, Op.Fits, Op.apply, insertBy, descend, insertAt, insertFix, paint, plug,
    Frame.attach, nodeOn, Side.pick, addr8, addr16]) (by decide)

end

/-! ## The order -/

/-- Comparisons that put the nodes in an order: what is on the right of `x` is on the right of `x` for others too,
unless they come before it. -/
structure Orderly (dir : Ptr → Ptr → Option Side) : Prop where
  right : ∀ a b x, dir a x = some .right → dir b x = some .right ∨ dir b a = some .left
  left : ∀ a b y, dir a y = some .left → dir b a = some .right ∨ dir b y = some .left

/-- A comparison by keys; `tie` is what equal ones come to. -/
def keyDir {κ : Type*} [LinearOrder κ] (tie : Option Side) (key : Ptr → κ) (a p : Ptr) : Option Side :=
  if key a < key p then some .left else if key p < key a then some .right else tie

/-- Equal keys are the same to the search, or the new node goes behind the others. -/
theorem orderly_keyDir {κ : Type*} [LinearOrder κ] {tie : Option Side} (htie : tie ≠ some .left) (key : Ptr → κ) :
    Orderly (keyDir tie key) := by
  have hright : ∀ a p, keyDir tie key a p = some .right ↔
      key p < key a ∨ key p = key a ∧ tie = some .right := by
    intro a p
    rw [keyDir]
    rcases lt_trichotomy (key a) (key p) with hlt | heq | hgt
    · rw [if_pos hlt]
      refine iff_of_false (fun h => ?_) ?_
      · cases h
      · rintro (h | h)
        · exact hlt.asymm h
        · exact hlt.ne' h.1
    · rw [if_neg (heq ▸ lt_irrefl _), if_neg (heq ▸ lt_irrefl _)]
      exact ⟨fun h => .inr ⟨heq.symm, h⟩, fun h => (h.resolve_left (heq ▸ lt_irrefl _)).2⟩
    · rw [if_neg hgt.asymm, if_pos hgt]
      exact iff_of_true rfl (.inl hgt)
  have hleft : ∀ a p, keyDir tie key a p = some .left ↔ key a < key p := by
    intro a p
    rw [keyDir]
    split_ifs with hlt hgt
    · exact iff_of_true rfl hlt
    · exact iff_of_false (fun h => by cases h) hlt
    · exact iff_of_false htie hlt
  constructor
  · intro a b x h
    rw [hright, hleft]
    rw [hright] at h
    rcases lt_trichotomy (key b) (key x) with hlt | heq | hgt
    · rcases h with h | h
      · exact .inr (hlt.trans h)
      · exact .inr (h.1 ▸ hlt)
    · rcases h with h | h
      · exact .inr (heq ▸ h)
      · exact .inl (.inr ⟨heq.symm, h.2⟩)
    · exact .inl (.inl hgt)
  · intro a b y h
    rw [hright, hleft]
    rw [hleft] at h
    rcases lt_or_ge (key a) (key b) with hlt | hge
    · exact .inl (.inl hlt)
    · exact .inr (hge.trans_lt h)

/-- The list that the tree stands for: a new node goes before the first one that the search would turn left at. -/
def addSorted (dir : Ptr → Option Side) (a : Addr) : List Addr → List Addr
  | [] => [a]
  | b :: l =>
    match dir b with
    | none => b :: l
    | some .left => a :: b :: l
    | some .right => b :: addSorted dir a l

def Op.spec (dir : Ptr → Ptr → Option Side) : Op → List Addr → List Addr
  | add a, l => addSorted (dir a) a l
  | erase a, l => l.filter fun b => b ≠ a

def ListFits (dir : Ptr → Ptr → Option Side) : List Op → List Addr → Prop
  | [], _ => True
  | op :: ops, l => op.Fits l ∧ ListFits dir ops (op.spec dir l)

/-- Each search finds its way through the list. -/
def InOrder (dir : Ptr → Ptr → Option Side) (l : List Addr) : Prop :=
  ∀ a : Ptr, Guides (fun p : Addr => dir a p) l

section

variable {dir : Ptr → Ptr → Option Side} {t : RbTree Addr} {h : Heap} {fuel : ℕ}

theorem addSorted_split {dir : Ptr → Option Side} (a : Addr) {xs : List Addr} (hx : ∀ x ∈ xs, dir x.1 = some .right)
    (l : List Addr) : addSorted dir a (xs ++ l) = xs ++ addSorted dir a l := by
  induction xs with
  | nil => rfl
  | cons x xs ih =>
    obtain ⟨hx, hxs⟩ := List.forall_mem_cons.mp hx
    rw [List.cons_append, addSorted, hx, ih hxs]
    rfl

theorem mem_addSorted {dir : Ptr → Option Side} {a b : Addr} {l : List Addr} (h : b ∈ addSorted dir a l) :
    b = a ∨ b ∈ l := by
  induction l with
  | nil => exact .inl (List.mem_singleton.mp h)
  | cons c l ih =>
    rw [addSorted] at h
    cases hc : dir c with
    | none =>
      rw [hc] at h
      exact .inr h
    | some s =>
      rw [hc] at h
      cases s with
      | left => exact List.mem_cons.mp h
      | right =>
        rcases List.mem_cons.mp h with rfl | h
        · exact .inr List.mem_cons_self
        · exact (ih h).imp id (List.mem_cons_of_mem c)

theorem length_addSorted_le (dir : Ptr → Option Side) (a : Addr) (l : List Addr) :
    (addSorted dir a l).length ≤ l.length + 1 := by
  induction l with
  | nil => exact le_refl 1
  | cons b l ih =>
    rw [addSorted]
    cases dir b with
    | none => exact Nat.le_succ _
    | some s =>
      cases s with
      | left => exact le_refl _
      | right => exact Nat.succ_le_succ ih

theorem Op.nodup_spec {op : Op} {l : List Addr} (hnodup : l.Nodup) (hfits : op.Fits l) :
    (op.spec dir l).Nodup := by
  cases op with
  | erase a => exact hnodup.filter _
  | add a =>
    rw [Op.spec]
    induction l with
    | nil => exact List.nodup_singleton a
    | cons c l ih =>
      obtain ⟨hc, hl⟩ := List.nodup_cons.mp hnodup
      rw [Op.Fits, List.mem_cons, not_or] at hfits
      rw [addSorted]
      cases dir a c with
      | none => exact hnodup
      | some s =>
        cases s with
        | left => exact List.nodup_cons.mpr ⟨List.mem_cons.not.mpr (not_or.mpr hfits), hnodup⟩
        | right =>
          refine List.nodup_cons.mpr ⟨fun hmem => ?_, ih hl hfits.2⟩
          rcases mem_addSorted hmem with rfl | hmem
          · exact hfits.1 rfl
          · exact hc hmem

/-- The tree stands for the list. -/
theorem Op.toList_apply (op : Op) (hnodup : t.toList.Nodup) (horder : InOrder dir t.toList) :
    (op.apply dir t).toList = op.spec dir t.toList := by
  cases op with
  | erase a => exact toList_remove hnodup
  | add a =>
    rw [Op.apply, Op.spec]
    obtain ⟨xs, ys, hx, hsplit⟩ := toList_insertBy (a := a) (horder a)
    rcases hsplit with ⟨b, hb, hlist, hsame⟩ | ⟨hy, hlist, hlist'⟩
    · rw [hsame, hlist, addSorted_split a hx, addSorted, hb]
    · rw [hlist', hlist, addSorted_split a hx]
      cases ys with
      | nil => rfl
      | cons y ys => rw [addSorted, hy y List.mem_cons_self]

/-- **The order is kept.** -/
theorem Op.inOrder_spec (hdir : Orderly dir) (op : Op) {l : List Addr} (horder : InOrder dir l) :
    InOrder dir (op.spec dir l) := by
  cases op with
  | erase a => exact fun b => (horder b).filter _
  | add a =>
    intro b
    have ha := horder a
    have hb := horder b
    rw [Op.spec]
    induction l with
    | nil => exact List.pairwise_singleton _ _
    | cons c l ih =>
      obtain ⟨hca, hla⟩ := List.pairwise_cons.mp ha
      obtain ⟨hcb, hlb⟩ := List.pairwise_cons.mp hb
      rw [addSorted]
      cases hc : dir a c with
      | none => exact hb
      | some s =>
        cases s with
        | left =>
          refine List.pairwise_cons.mpr ⟨fun y hy => hdir.left a b y ?_, hb⟩
          rcases List.mem_cons.mp hy with rfl | hy
          · exact hc
          · refine (hca y hy).resolve_left fun hright => ?_
            cases hc.symm.trans hright
        | right =>
          refine List.pairwise_cons.mpr ⟨fun y hy => ?_, ih (fun b => (List.pairwise_cons.mp (horder b)).2) hla hlb⟩
          rcases mem_addSorted hy with rfl | hy
          · exact hdir.right y b c hc
          · exact hcb y hy

theorem run_toList (hdir : Orderly dir) {ops : List Op} (hnodup : t.toList.Nodup) (horder : InOrder dir t.toList)
    (h : ListFits dir ops t.toList) :
    RunFits dir ops t ∧
      (ops.foldl (fun t op => op.apply dir t) t).toList = ops.foldl (fun l op => op.spec dir l) t.toList := by
  induction ops generalizing t with
  | nil => exact ⟨trivial, rfl⟩
  | cons op ops ih =>
    obtain ⟨hop, hrest⟩ := h
    have hlist := op.toList_apply hnodup horder
    have horder' := op.inOrder_spec hdir horder
    have hnodup' : (op.spec dir t.toList).Nodup := op.nodup_spec hnodup hop
    rw [← hlist] at hrest horder' hnodup'
    obtain ⟨hfits, hfold⟩ := ih hnodup' horder' hrest
    refine ⟨⟨hop, hfits⟩, ?_⟩
    rw [List.foldl_cons, hfold, hlist]
    rfl

/-- What is in memory behind a run. -/
theorem run_list (hdir : Orderly dir) {ops : List Op} (mem : Ptr → Option RbNode) (hfits : ListFits dir ops [])
    (hfuel : 2 * Nat.log 2 (ops.length + 1) + 2 ≤ fuel) :
    ∃ h t, ops.foldlM (fun h op => op.run dir fuel h) (rbRoot mem) = some h ∧ Holds h t ∧
      t.toList = ops.foldl (fun l op => op.spec dir l) [] ∧ t.depth < fuel ∧ t.toList.length < ops.length + 1 := by
  have horder : InOrder dir (nil : RbTree Addr).toList := fun a => List.Pairwise.nil
  obtain ⟨hrun, hlist⟩ := run_toList (t := nil) hdir List.nodup_nil horder hfits
  have hfuel' : 2 * Nat.log 2 ((nil : RbTree Addr).toList.length + ops.length + 1) + 2 ≤ fuel := by
    rw [toList_nil, List.length_nil, Nat.zero_add]
    exact hfuel
  obtain ⟨h, hs, hh, hrb, hlen⟩ := run_spec (holds_rbRoot mem) redBlack_nil hrun hfuel'
  rw [toList_nil, List.length_nil, Nat.zero_add] at hlen
  have hle := hrb.depth_le
  have hmono : Nat.log 2 ((ops.foldl (fun t op => op.apply dir t) nil).toList.length + 1) ≤
      Nat.log 2 (ops.length + 1) := Nat.log_mono_right (by omega)
  exact ⟨h, _, hs, hh, hlist, by omega, by omega⟩

/-- **The tree in memory is the list in order**: after any run, the walks from both ends pass its nodes. -/
theorem run_inOrder (hdir : Orderly dir) {ops : List Op} (mem : Ptr → Option RbNode) (hfits : ListFits dir ops [])
    (hfuel : 2 * Nat.log 2 (ops.length + 1) + 2 ≤ fuel) :
    ∃ h p q, ops.foldlM (fun h op => op.run dir fuel h) (rbRoot mem) = some h ∧
      rbFirst fuel h = some p ∧ rbLast fuel h = some q ∧
      walk .right fuel (ops.length + 1) p h = some ((ops.foldl (fun l op => op.spec dir l) []).map (·.1)) ∧
      walk .left fuel (ops.length + 1) q h = some ((ops.foldl (fun l op => op.spec dir l) []).reverse.map (·.1)) := by
  obtain ⟨h, t, hs, hh, hlist, hdepth, hlen⟩ := run_list hdir mem hfits hfuel
  rw [← hlist]
  refine ⟨h, _, _, hs, rbEnd_spec (s := .right) hh hdepth.le, rbEnd_spec (s := .left) hh hdepth.le, ?_, ?_⟩
  · exact walk_spec (s := .right) (l := []) hh rfl hdepth hlen
  · refine walk_spec (s := .left) (l := []) hh rfl hdepth ?_
    rw [along, Side.pick, List.length_reverse]
    exact hlen

theorem run_inOrder_three : ∃ h p q,
    [Op.add addr16, .add addr8, .erase addr16].foldlM (fun h op => op.run (keyDir none BitVec.toNat) 6 h)
        (rbRoot fun _ => none) = some h ∧
      rbFirst 6 h = some p ∧ rbLast 6 h = some q ∧
      walk .right 6 4 p h = some (([Op.add addr16, .add addr8, .erase addr16].foldl
        (fun l op => op.spec (keyDir none BitVec.toNat) l) []).map (·.1)) ∧
      walk .left 6 4 q h = some (([Op.add addr16, .add addr8, .erase addr16].foldl
        (fun l op => op.spec (keyDir none BitVec.toNat) l) []).reverse.map (·.1)) :=
  run_inOrder (orderly_keyDir (by decide) _) _
    (by simp [ListFits, Op.Fits, Op.spec, addSorted, keyDir, addr8, addr16]) (by decide)

end

end Blktrace.Rbtree
