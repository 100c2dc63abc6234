import Blktrace.Lib.SearchTree

/-!
# Trees with a hole

A place in a tree is the subtree there and the way up from it, one frame for each node above. Every frame
remembers on which side it was left, so that one definition serves both mirror images.
-/

namespace SearchTree

inductive Side
  | left
  | right
  deriving DecidableEq, Repr

namespace Side

def other : Side → Side
  | left => right
  | right => left

@[simp] theorem other_other (s : Side) : s.other.other = s := by cases s <;> rfl

theorem other_ne (s : Side) : s.other ≠ s := by cases s <;> exact Side.noConfusion

theorem eq_other_of_ne {s s' : Side} (h : s ≠ s') : s = s'.other := by
  cases s <;> cases s' <;> first | rfl | exact absurd rfl h

/-- What is on the side, of a left thing and a right one. -/
def pick {β : Type*} (s : Side) (l r : β) : β :=
  match s with
  | left => l
  | right => r

end Side

namespace RbTree

variable {α : Type*}

/-- `x` on the side `s` of the node, `y` on the other. -/
def nodeOn (s : Side) (red : Bool) (x : RbTree α) (a : α) (y : RbTree α) : RbTree α :=
  node red (s.pick x y) a (s.pick y x)

theorem nodeOn_other (s : Side) (red : Bool) (x y : RbTree α) (a : α) :
    nodeOn s.other red x a y = nodeOn s red y a x := by cases s <;> rfl

/-- Any node, seen from a side. -/
theorem exists_nodeOn (s : Side) (red : Bool) (l r : RbTree α) (a : α) :
    ∃ x y, node red l a r = nodeOn s red x a y := by
  cases s
  · exact ⟨l, r, rfl⟩
  · exact ⟨r, l, rfl⟩

theorem toList_nodeOn (s : Side) (red : Bool) (x y : RbTree α) (a : α) :
    (nodeOn s red x a y).toList = s.pick (x.toList ++ a :: y.toList) (y.toList ++ a :: x.toList) := by
  cases s <;> rfl

/-- A rotation keeps the order. -/
theorem toList_rotate (s : Side) (c c' d d' : Bool) (x m y : RbTree α) (a b : α) :
    (nodeOn s c (nodeOn s d x a m) b y).toList = (nodeOn s c' x a (nodeOn s d' m b y)).toList := by
  cases s <;> simp [nodeOn, Side.pick]

/-- A node above the hole: `side` says where the hole is, `sib` is on the other side. -/
structure Frame (α : Type*) where
  side : Side
  red : Bool
  a : α
  sib : RbTree α

def Frame.attach (f : Frame α) (t : RbTree α) : RbTree α :=
  nodeOn f.side f.red t f.a f.sib

/-- The whole tree, with `t` in the hole. The first frame is the one just above it. -/
def plug : List (Frame α) → RbTree α → RbTree α
  | [], t => t
  | f :: path, t => plug path (f.attach t)

@[simp] theorem plug_nil (t : RbTree α) : plug [] t = t := rfl

@[simp] theorem plug_cons (f : Frame α) (path : List (Frame α)) (t : RbTree α) :
    plug (f :: path) t = plug path (f.attach t) := rfl

theorem plug_append (path path' : List (Frame α)) (t : RbTree α) :
    plug (path ++ path') t = plug path' (plug path t) := by
  induction path generalizing t with
  | nil => rfl
  | cons f path ih => exact ih (f.attach t)

/-- The nodes to the left of the hole. -/
def before : List (Frame α) → List α
  | [] => []
  | f :: path => before path ++ f.side.pick [] (f.sib.toList ++ [f.a])

/-- The nodes to the right of the hole. -/
def after : List (Frame α) → List α
  | [] => []
  | f :: path => f.side.pick (f.a :: f.sib.toList) [] ++ after path

theorem toList_plug (path : List (Frame α)) (t : RbTree α) :
    (plug path t).toList = before path ++ t.toList ++ after path := by
  induction path generalizing t with
  | nil => simp [before, after]
  | cons f path ih =>
    rw [plug_cons, ih, Frame.attach, toList_nodeOn, before, after]
    cases f.side <;> simp [Side.pick]

theorem node_ne_nil (c : Bool) (l r : RbTree α) (a : α) : node c l a r ≠ nil := by
  intro h
  cases h

theorem plug_ne_nil (path : List (Frame α)) {t : RbTree α} (ht : t ≠ nil) : plug path t ≠ nil := by
  intro hnil
  have hlist := toList_plug path t
  rw [hnil] at hlist
  exact ht (eq_nil_of_toList (List.append_eq_nil_iff.mp (List.append_eq_nil_iff.mp hlist.symm).1).2)

/-- What is in the hole counts by its order only. -/
theorem toList_plug_congr (path : List (Frame α)) {t t' : RbTree α} (h : t.toList = t'.toList) :
    (plug path t).toList = (plug path t').toList := by
  rw [toList_plug, toList_plug, h]

/-! ## Colours -/

/-- A missing node counts as black. -/
def isRed : RbTree α → Bool
  | nil => false
  | node c _ _ _ => c

def paint (c : Bool) : RbTree α → RbTree α
  | nil => nil
  | node _ l a r => node c l a r

@[simp] theorem isRed_nodeOn (s : Side) (c : Bool) (x y : RbTree α) (a : α) :
    (nodeOn s c x a y).isRed = c := rfl

@[simp] theorem isRed_attach (f : Frame α) (t : RbTree α) : (f.attach t).isRed = f.red := rfl

@[simp] theorem paint_nodeOn (s : Side) (c c' : Bool) (x y : RbTree α) (a : α) :
    (nodeOn s c x a y).paint c' = nodeOn s c' x a y := rfl

@[simp] theorem toList_paint (c : Bool) (t : RbTree α) : (t.paint c).toList = t.toList := by
  cases t <;> rfl

theorem paint_eq_self {c : Bool} {t : RbTree α} (h : t.isRed = c) : t.paint c = t := by
  cases t with
  | nil => rfl
  | node d l a r => exact congrArg (node · l a r) h.symm

/-! ## Ways down -/

/-- The way to the outermost node on a side. -/
def outermost (s : Side) (path : List (Frame α)) : RbTree α → List (Frame α) × RbTree α
  | nil => (path, nil)
  | node c l a r =>
    match s, l, r with
    | .left, nil, r => (path, node c nil a r)
    | .left, node c' l' a' r', r => outermost .left (⟨.left, c, a, r⟩ :: path) (node c' l' a' r')
    | .right, l, nil => (path, node c l a nil)
    | .right, l, node c' l' a' r' => outermost .right (⟨.right, c, a, l⟩ :: path) (node c' l' a' r')

/-- The way goes on along the side until no node is there any more. -/
theorem outermost_spec (s : Side) (path : List (Frame α)) {t : RbTree α} (ht : t ≠ nil) :
    ∃ fs c a y, outermost s path t = (fs ++ path, nodeOn s c nil a y) ∧ (∀ f ∈ fs, f.side = s) ∧
      plug fs (nodeOn s c nil a y) = t := by
  induction t generalizing path with
  | nil => exact absurd rfl ht
  | node c l a r ihl ihr =>
    cases s with
    | left =>
      cases l with
      | nil => exact ⟨[], c, a, r, rfl, List.forall_mem_nil _, rfl⟩
      | node c' l' a' r' =>
        obtain ⟨fs, d, b, y, hway, hside, hplug⟩ := ihl (⟨.left, c, a, r⟩ :: path) (node_ne_nil c' l' r' a')
        refine ⟨fs ++ [⟨.left, c, a, r⟩], d, b, y, ?_, ?_, ?_⟩
        · rw [List.append_assoc]
          exact hway
        · exact List.forall_mem_append.mpr ⟨hside, List.forall_mem_singleton.mpr rfl⟩
        · rw [plug_append, hplug]
          rfl
    | right =>
      cases r with
      | nil => exact ⟨[], c, a, l, rfl, List.forall_mem_nil _, rfl⟩
      | node c' l' a' r' =>
        obtain ⟨fs, d, b, y, hway, hside, hplug⟩ := ihr (⟨.right, c, a, l⟩ :: path) (node_ne_nil c' l' r' a')
        refine ⟨fs ++ [⟨.right, c, a, l⟩], d, b, y, ?_, ?_, ?_⟩
        · rw [List.append_assoc]
          exact hway
        · exact List.forall_mem_append.mpr ⟨hside, List.forall_mem_singleton.mpr rfl⟩
        · rw [plug_append, hplug]
          rfl

/-- The way to a node, by its first place in the tree. -/
def locate [DecidableEq α] (a : α) (path : List (Frame α)) : RbTree α → Option (List (Frame α) × RbTree α)
  | nil => none
  | node c l b r =>
    (locate a (⟨.left, c, b, r⟩ :: path) l).or
      (if b = a then some (path, node c l b r) else locate a (⟨.right, c, b, l⟩ :: path) r)

theorem locate_spec [DecidableEq α] {a : α} {path path' : List (Frame α)} {t t' : RbTree α}
    (h : locate a path t = some (path', t')) : plug path' t' = plug path t ∧ ∃ c l r, t' = node c l a r := by
  induction t generalizing path with
  | nil => cases h
  | node c l b r ihl ihr =>
    rw [locate, Option.or_eq_some_iff] at h
    rcases h with h | ⟨-, h⟩
    · exact ihl h
    · split_ifs at h with hb
      · obtain ⟨rfl, rfl⟩ := Prod.mk.inj (Option.some.inj h)
        exact ⟨rfl, c, l, r, congrArg (node c l · r) hb⟩
      · exact ihr h

theorem locate_eq_none [DecidableEq α] {a : α} {path : List (Frame α)} {t : RbTree α} :
    locate a path t = none ↔ a ∉ t.toList := by
  induction t generalizing path with
  | nil => simp [locate]
  | node c l b r ihl ihr =>
    rw [locate, Option.or_eq_none_iff, ihl, toList_node, List.mem_append, List.mem_cons, not_or, not_or]
    split_ifs with hb
    · simp [hb]
    · simp [ihr, Ne.symm hb]

/-! ## The search for a place -/

/-- A descent turns at each node as it is told, and stops at one where it is told nothing. -/
def descend (dir : α → Option Side) (path : List (Frame α)) : RbTree α → List (Frame α) × RbTree α
  | nil => (path, nil)
  | node c l a r =>
    match dir a with
    | none => (path, node c l a r)
    | some .left => descend dir (⟨.left, c, a, r⟩ :: path) l
    | some .right => descend dir (⟨.right, c, a, l⟩ :: path) r

theorem plug_descend (dir : α → Option Side) (path : List (Frame α)) (t : RbTree α) :
    plug (descend dir path t).1 (descend dir path t).2 = plug path t := by
  induction t generalizing path with
  | nil => rfl
  | node c l a r ihl ihr =>
    rw [descend]
    cases dir a with
    | none => rfl
    | some s =>
      cases s with
      | left => exact ihl _
      | right => exact ihr _

/-- The turns fit the order: of two nodes one at least points away from the other. -/
def Guides (dir : α → Option Side) (l : List α) : Prop :=
  l.Pairwise fun a b => dir a = some .right ∨ dir b = some .left

/-- The search leaves on its left what it would turn right at, and the other way round. -/
theorem descend_split {dir : α → Option Side} {t : RbTree α} (h : Guides dir t.toList) (path : List (Frame α)) :
    ∃ xs ys, t.toList = xs ++ (descend dir path t).2.toList ++ ys ∧
      before (descend dir path t).1 = before path ++ xs ∧ after (descend dir path t).1 = ys ++ after path ∧
      (∀ x ∈ xs, dir x = some .right) ∧ (∀ y ∈ ys, dir y = some .left) ∧
      ∀ c l a r, (descend dir path t).2 = node c l a r → dir a = none := by
  induction t generalizing path with
  | nil =>
    refine ⟨[], [], rfl, (List.append_nil _).symm, rfl, List.forall_mem_nil _, List.forall_mem_nil _, ?_⟩
    intro c l a r h
    exact absurd h.symm (node_ne_nil c l r a)
  | node c l a r ihl ihr =>
    obtain ⟨hl, hr, hcross⟩ := List.pairwise_append.mp h
    obtain ⟨har, hr⟩ := List.pairwise_cons.mp hr
    rw [descend]
    cases hdir : dir a with
    | none =>
      refine ⟨[], [], (List.append_nil _).symm, (List.append_nil _).symm, rfl, List.forall_mem_nil _,
        List.forall_mem_nil _, ?_⟩
      intro c' l' a' r' h
      obtain ⟨-, -, rfl, -⟩ := RbTree.node.inj h
      exact hdir
    | some s =>
      cases s with
      | left =>
        obtain ⟨xs, ys, hlist, hbefore, hafter, hx, hy, hend⟩ := ihl hl (⟨.left, c, a, r⟩ :: path)
        refine ⟨xs, ys ++ a :: r.toList, ?_, ?_, ?_, hx, ?_, hend⟩
        · rw [toList_node, hlist]
          simp
        · rw [hbefore]
          simp [before, Side.pick]
        · rw [hafter]
          simp [after, Side.pick]
        · intro y hmem
          rcases List.mem_append.mp hmem with hmem | hmem
          · exact hy y hmem
          · rcases List.mem_cons.mp hmem with rfl | hmem
            · exact hdir
            · refine (har y hmem).resolve_left fun hright => ?_
              rw [hdir] at hright
              cases hright
      | right =>
        obtain ⟨xs, ys, hlist, hbefore, hafter, hx, hy, hend⟩ := ihr hr (⟨.right, c, a, l⟩ :: path)
        refine ⟨l.toList ++ a :: xs, ys, ?_, ?_, ?_, ?_, hy, hend⟩
        · rw [toList_node, hlist]
          simp
        · rw [hbefore]
          simp [before, Side.pick]
        · rw [hafter]
          simp [after, Side.pick]
        · intro x hmem
          rcases List.mem_append.mp hmem with hmem | hmem
          · refine (hcross x hmem a List.mem_cons_self).resolve_right fun hleft => ?_
            rw [hdir] at hleft
            cases hleft
          · rcases List.mem_cons.mp hmem with rfl | hmem
            · exact hdir
            · exact hx x hmem

end RbTree

end SearchTree
