import Mathlib

/-!
# Search trees over intervals

A node lies in the tree by the lower end of its interval. The walk for the intervals inside a given one asks
each node whether a side of it is worth a visit. When the intervals are apart it finds them all; when they
overlap, it finds those that are not to the right of a node that ends too late (`Pruned`).

How a tree is kept balanced is left open: all that counts is the order of the nodes, `toList`.
-/

namespace SearchTree

/-- A node has the colour that a balancing scheme gives it. -/
inductive RbTree (α : Type*)
  | nil
  | node (red : Bool) (left : RbTree α) (a : α) (right : RbTree α)

namespace RbTree

variable {α κ : Type*} [LinearOrder κ]

/-- The nodes in order. -/
def toList : RbTree α → List α
  | nil => []
  | node _ l a r => l.toList ++ a :: r.toList

@[simp] theorem toList_nil : (nil : RbTree α).toList = [] := rfl

@[simp] theorem toList_node (c : Bool) (l r : RbTree α) (a : α) :
    (node c l a r).toList = l.toList ++ a :: r.toList := rfl

theorem eq_nil_of_toList {t : RbTree α} (h : t.toList = []) : t = nil := by
  cases t with
  | nil => rfl
  | node c l a r => simp at h

/-- The nodes, each after those below it. -/
def postorder : RbTree α → List α
  | nil => []
  | node _ l a r => l.postorder ++ (r.postorder ++ [a])

theorem postorder_perm (t : RbTree α) : t.postorder.Perm t.toList := by
  induction t with
  | nil => exact .nil
  | node c l a r ihl ihr => exact ihl.append ((List.perm_append_singleton a _).trans (ihr.cons a))

/-! ## A new node -/

/-- It is linked where the search for its key ends, unless that finds the key. -/
def link (key : α → κ) (b : α) : RbTree α → Option (RbTree α)
  | nil => some (node true nil b nil)
  | node c l a r =>
    if key b < key a then (link key b l).map fun l => node c l a r
    else if key a < key b then (link key b r).map fun r => node c l a r
    else none

variable {key : α → κ} {b : α}

/-- A key that is not there yet is linked. -/
theorem link_isSome {t : RbTree α} (h : ∀ a ∈ t.toList, key a ≠ key b) : (link key b t).isSome := by
  induction t with
  | nil => rfl
  | node c l a r ihl ihr =>
    simp only [toList_node, List.mem_append, List.mem_cons] at h
    unfold link
    split_ifs with hlt hgt
    · rw [Option.isSome_map]
      exact ihl fun x hx => h x (.inl hx)
    · rw [Option.isSome_map]
      exact ihr fun x hx => h x (.inr (.inr hx))
    · exact absurd (le_antisymm (not_lt.mp hlt) (not_lt.mp hgt)) (h a (.inr (.inl rfl)))

/-- It comes between the smaller keys and the greater ones. -/
theorem toList_link {t t' : RbTree α} (hsorted : t.toList.Pairwise fun a b => key a < key b)
    (h : link key b t = some t') :
    ∃ xs ys, t.toList = xs ++ ys ∧ t'.toList = xs ++ b :: ys ∧ (∀ x ∈ xs, key x < key b) ∧
      ∀ y ∈ ys, key b < key y := by
  induction t generalizing t' with
  | nil =>
    obtain rfl := Option.some.inj h
    exact ⟨[], [], rfl, rfl, nofun, nofun⟩
  | node c l a r ihl ihr =>
    obtain ⟨hl, hr, hcross⟩ := List.pairwise_append.mp hsorted
    obtain ⟨har, hr⟩ := List.pairwise_cons.mp hr
    unfold link at h
    split_ifs at h with hlt hgt
    · obtain ⟨l', hl', rfl⟩ := Option.map_eq_some_iff.mp h
      obtain ⟨xs, ys, hlist, hlist', hbelow, habove⟩ := ihl hl hl'
      refine ⟨xs, ys ++ a :: r.toList, by simp [hlist], by simp [hlist'], hbelow, ?_⟩
      intro y hy
      rcases List.mem_append.mp hy with hy | hy
      · exact habove y hy
      · rcases List.mem_cons.mp hy with rfl | hy
        · exact hlt
        · exact hlt.trans (har y hy)
    · obtain ⟨r', hr', rfl⟩ := Option.map_eq_some_iff.mp h
      obtain ⟨xs, ys, hlist, hlist', hbelow, habove⟩ := ihr hr hr'
      refine ⟨l.toList ++ a :: xs, ys, by simp [hlist], by simp [hlist'], ?_, habove⟩
      intro x hx
      rcases List.mem_append.mp hx with hx | hx
      · exact (hcross x hx a List.mem_cons_self).trans hgt
      · rcases List.mem_cons.mp hx with rfl | hx
        · exact hgt
        · exact hbelow x hx

/-- The new node is the only one that is new. -/
theorem link_spec {t t' : RbTree α} (hsorted : t.toList.Pairwise fun a b => key a < key b)
    (h : link key b t = some t') :
    (t'.toList.Pairwise fun a b => key a < key b) ∧ (∀ a, a ∈ t'.toList ↔ a = b ∨ a ∈ t.toList) ∧
      ∀ a ∈ t.toList, key a ≠ key b := by
  obtain ⟨xs, ys, hlist, hlist', hbelow, habove⟩ := toList_link hsorted h
  rw [hlist] at hsorted ⊢
  rw [hlist']
  obtain ⟨hxs, hys, hcross⟩ := List.pairwise_append.mp hsorted
  refine ⟨?_, fun a => ?_, fun a ha => ?_⟩
  · rw [List.pairwise_append, List.pairwise_cons]
    refine ⟨hxs, ⟨habove, hys⟩, fun x hx y hy => ?_⟩
    rcases List.mem_cons.mp hy with rfl | hy
    · exact hbelow x hx
    · exact hcross x hx y hy
  · rw [List.mem_append, List.mem_append, List.mem_cons]
    exact or_left_comm
  · rcases List.mem_append.mp ha with ha | ha
    · exact (hbelow a ha).ne
    · exact (habove a ha).ne'

/-! ## The node with a key -/

section

variable (key)

def lookup (k : κ) : RbTree α → Option α
  | nil => none
  | node _ l a r => if k < key a then lookup k l else if key a < k then lookup k r else some a

/-- The node with the key is changed where it is. -/
def modify (k : κ) (f : α → α) : RbTree α → RbTree α
  | nil => nil
  | node c l a r =>
    if k < key a then node c (modify k f l) a r
    else if key a < k then node c l a (modify k f r)
    else node c l (f a) r

variable {key}

theorem lookup_eq_some {t : RbTree α} (hsorted : t.toList.Pairwise fun a b => key a < key b) {k : κ} {a : α} :
    lookup key k t = some a ↔ a ∈ t.toList ∧ key a = k := by
  induction t with
  | nil => simp [lookup]
  | node c l b r ihl ihr =>
    obtain ⟨hl, hr, hcross⟩ := List.pairwise_append.mp hsorted
    obtain ⟨hbr, hr⟩ := List.pairwise_cons.mp hr
    have hlb : ∀ a ∈ l.toList, key a < key b := fun a ha => hcross a ha b List.mem_cons_self
    rw [lookup, toList_node, List.mem_append, List.mem_cons]
    split_ifs with hlt hgt
    · rw [ihl hl]
      constructor
      · rintro ⟨ha, hk⟩
        exact ⟨.inl ha, hk⟩
      · rintro ⟨ha | rfl | ha, rfl⟩
        · exact ⟨ha, rfl⟩
        · exact absurd hlt (lt_irrefl _)
        · exact absurd (hlt.trans (hbr a ha)) (lt_irrefl _)
    · rw [ihr hr]
      constructor
      · rintro ⟨ha, hk⟩
        exact ⟨.inr (.inr ha), hk⟩
      · rintro ⟨ha | rfl | ha, rfl⟩
        · exact absurd (hgt.trans (hlb a ha)) (lt_irrefl _)
        · exact absurd hgt (lt_irrefl _)
        · exact ⟨ha, rfl⟩
    · have hk : key b = k := le_antisymm (not_lt.mp hlt) (not_lt.mp hgt)
      rw [Option.some_inj]
      constructor
      · rintro rfl
        exact ⟨.inr (.inl rfl), hk⟩
      · rintro ⟨ha | rfl | ha, ha'⟩
        · exact absurd (hlb a ha) (by rw [ha', hk]; exact lt_irrefl _)
        · rfl
        · exact absurd (hbr a ha) (by rw [ha', hk]; exact lt_irrefl _)

theorem lookup_eq_none {t : RbTree α} (hsorted : t.toList.Pairwise fun a b => key a < key b) {k : κ} :
    lookup key k t = none ↔ ∀ a ∈ t.toList, key a ≠ k := by
  rw [Option.eq_none_iff_forall_ne_some]
  exact forall_congr' fun a => (not_congr (lookup_eq_some hsorted)).trans not_and

/-- What is found has the key, in whatever order the tree is. -/
theorem mem_of_lookup {k : κ} {t : RbTree α} {a : α} (h : lookup key k t = some a) :
    a ∈ t.toList ∧ key a = k := by
  induction t with
  | nil => nomatch h
  | node c l b r ihl ihr =>
    rw [lookup] at h
    split_ifs at h with hlt hgt
    · exact ⟨List.mem_append_left _ (ihl h).1, (ihl h).2⟩
    · exact ⟨List.mem_append_right _ (List.mem_cons_of_mem _ (ihr h).1), (ihr h).2⟩
    · obtain rfl := Option.some.inj h
      exact ⟨List.mem_append_right _ List.mem_cons_self, le_antisymm (not_lt.mp hlt) (not_lt.mp hgt)⟩

/-- A tree in which the search finds each node by its key is in the order of the keys. -/
theorem sorted_of_lookup {t : RbTree α} (hne : t.toList.Pairwise fun a b => key a ≠ key b)
    (h : ∀ a ∈ t.toList, lookup key (key a) t = some a) : t.toList.Pairwise fun a b => key a < key b := by
  induction t with
  | nil => exact List.Pairwise.nil
  | node c l b r ihl ihr =>
    obtain ⟨hnel, hner, hcross⟩ := List.pairwise_append.mp hne
    obtain ⟨hneb, hner⟩ := List.pairwise_cons.mp hner
    -- a node on the left is not found on the right, and the other way round
    have hleft : ∀ a ∈ l.toList, key a < key b ∧ lookup key (key a) l = some a := by
      intro a ha
      have hlookup := h a (List.mem_append_left _ ha)
      rw [lookup] at hlookup
      split_ifs at hlookup with hlt hgt
      · exact ⟨hlt, hlookup⟩
      · exact absurd rfl (hcross a ha a (List.mem_cons_of_mem _ (mem_of_lookup hlookup).1))
      · obtain rfl := Option.some.inj hlookup
        exact absurd rfl (hcross b ha b List.mem_cons_self)
    have hright : ∀ a ∈ r.toList, key b < key a ∧ lookup key (key a) r = some a := by
      intro a ha
      have hlookup := h a (List.mem_append_right _ (List.mem_cons_of_mem _ ha))
      rw [lookup] at hlookup
      split_ifs at hlookup with hlt hgt
      · exact absurd rfl (hcross a (mem_of_lookup hlookup).1 a (List.mem_cons_of_mem _ ha))
      · exact ⟨hgt, hlookup⟩
      · obtain rfl := Option.some.inj hlookup
        exact absurd rfl (hneb b ha)
    rw [toList_node, List.pairwise_append, List.pairwise_cons]
    refine ⟨ihl hnel fun a ha => (hleft a ha).2,
      ⟨fun a ha => (hright a ha).1, ihr hner fun a ha => (hright a ha).2⟩, fun a ha a' ha' => ?_⟩
    rcases List.mem_cons.mp ha' with rfl | ha'
    · exact (hleft a ha).1
    · exact (hleft a ha).1.trans (hright a' ha').1

/-- A new node finds no place just if its key is there. -/
theorem link_eq_none {t : RbTree α} (hsorted : t.toList.Pairwise fun a b => key a < key b) :
    link key b t = none ↔ ∃ a ∈ t.toList, key a = key b := by
  constructor
  · intro hnone
    by_contra hfresh
    have hsome := link_isSome fun a ha heq => hfresh ⟨a, ha, heq⟩
    rw [hnone] at hsome
    exact absurd hsome nofun
  · rintro ⟨a, ha, heq⟩
    cases h : link key b t with
    | none => rfl
    | some t' => exact absurd heq ((link_spec hsorted h).2.2 a ha)

/-- What a change leaves alone in a node stays in all of them. -/
theorem map_modify {β : Type*} {g : α → β} {f : α → α} (hf : ∀ a, g (f a) = g a) (k : κ) (t : RbTree α) :
    (modify key k f t).toList.map g = t.toList.map g := by
  induction t with
  | nil => rfl
  | node c l b r ihl ihr =>
    rw [modify]
    split_ifs <;> simp [ihl, ihr, hf]

/-- Where a change leaves the keys alone, the search for another key finds what it did. -/
theorem lookup_modify {f : α → α} (hf : ∀ a, key (f a) = key a) (k k' : κ) (t : RbTree α) :
    lookup key k' (modify key k f t) = if k' = k then (lookup key k t).map f else lookup key k' t := by
  by_cases hk : k' = k
  · subst hk
    rw [if_pos rfl]
    induction t with
    | nil => rfl
    | node c l a r ihl ihr =>
      rw [modify, lookup]
      split_ifs with hlt hgt <;> simp [lookup, *]
  · rw [if_neg hk]
    induction t with
    | nil => rfl
    | node c l a r ihl ihr =>
      rw [modify]
      split_ifs with hlt hgt
      · rw [lookup, lookup, ihl]
      · rw [lookup, lookup, ihr]
      · have hak : key a = k := le_antisymm (not_lt.mp hlt) (not_lt.mp hgt)
        rw [lookup, lookup, hf]
        split_ifs with hlt' hgt'
        · rfl
        · rfl
        · exact absurd ((le_antisymm (not_lt.mp hgt') (not_lt.mp hlt')).trans hak) hk

/-- Nothing else is changed. -/
theorem toList_modify {t : RbTree α} (hsorted : t.toList.Pairwise fun a b => key a < key b) {f : α → α}
    {a : α} (ha : a ∈ t.toList) :
    ∃ xs ys, t.toList = xs ++ a :: ys ∧ (modify key (key a) f t).toList = xs ++ f a :: ys := by
  induction t with
  | nil => nomatch ha
  | node c l b r ihl ihr =>
    obtain ⟨hl, hr, hcross⟩ := List.pairwise_append.mp hsorted
    obtain ⟨hbr, hr⟩ := List.pairwise_cons.mp hr
    rw [modify]
    rcases List.mem_append.mp ha with ha | ha
    · have hlt := hcross a ha b List.mem_cons_self
      obtain ⟨xs, ys, hlist, hlist'⟩ := ihl hl ha
      rw [if_pos hlt]
      exact ⟨xs, ys ++ b :: r.toList, by simp [hlist], by simp [hlist']⟩
    · rcases List.mem_cons.mp ha with rfl | ha
      · rw [if_neg (lt_irrefl _), if_neg (lt_irrefl _)]
        exact ⟨l.toList, r.toList, rfl, rfl⟩
      · have hgt := hbr a ha
        obtain ⟨xs, ys, hlist, hlist'⟩ := ihr hr ha
        rw [if_neg hgt.asymm, if_pos hgt]
        exact ⟨l.toList ++ b :: xs, ys, by simp [hlist], by simp [hlist']⟩

/-- Where the key stays the same, the tree is in order as before. -/
theorem modify_spec {t : RbTree α} (hsorted : t.toList.Pairwise fun a b => key a < key b) {f : α → α}
    {a : α} (ha : a ∈ t.toList) (hkey : key (f a) = key a) :
    ((modify key (key a) f t).toList.Pairwise fun a b => key a < key b) ∧
      ∀ x, x ∈ (modify key (key a) f t).toList ↔ x = f a ∨ (x ∈ t.toList ∧ key x ≠ key a) := by
  obtain ⟨xs, ys, hlist, hlist'⟩ := toList_modify hsorted ha
  rw [hlist] at hsorted ⊢
  rw [hlist']
  obtain ⟨hxs, hys, hcross⟩ := List.pairwise_append.mp hsorted
  obtain ⟨habove, hys⟩ := List.pairwise_cons.mp hys
  have hbelow : ∀ x ∈ xs, key x < key a := fun x hx => hcross x hx a List.mem_cons_self
  constructor
  · rw [List.pairwise_append, List.pairwise_cons, hkey]
    refine ⟨hxs, ⟨habove, hys⟩, fun x hx y hy => ?_⟩
    rcases List.mem_cons.mp hy with rfl | hy
    · rw [hkey]
      exact hbelow x hx
    · exact hcross x hx y (List.mem_cons_of_mem _ hy)
  · intro x
    rw [List.mem_append, List.mem_append, List.mem_cons, List.mem_cons]
    constructor
    · rintro (hx | rfl | hx)
      · exact .inr ⟨.inl hx, (hbelow x hx).ne⟩
      · exact .inl rfl
      · exact .inr ⟨.inr (.inr hx), (habove x hx).ne'⟩
    · rintro (rfl | ⟨hx | rfl | hx, hne⟩)
      · exact .inr (.inl rfl)
      · exact .inl hx
      · exact absurd rfl hne
      · exact .inr (.inr hx)

end

/-! ## A walk down -/

section

variable (stop left : α → Prop) [DecidablePred stop] [DecidablePred left]

/-- The first node on the way down that the walk stops at. -/
def stopsAt : RbTree α → Option α
  | nil => none
  | node _ l a r => if stop a then some a else if left a then stopsAt l else stopsAt r

/-- A new node is linked where the way down ends. -/
def attach (b : α) : RbTree α → RbTree α
  | nil => node true nil b nil
  | node c l a r => if left a then node c (attach b l) a r else node c l a (attach b r)

variable {stop left}

theorem mem_of_stopsAt {t : RbTree α} {a : α} (h : stopsAt stop left t = some a) : a ∈ t.toList ∧ stop a := by
  induction t with
  | nil => nomatch h
  | node c l b r ihl ihr =>
    unfold stopsAt at h
    split_ifs at h with hstop hleft
    · obtain rfl := Option.some.inj h
      exact ⟨List.mem_append_right _ List.mem_cons_self, hstop⟩
    · exact ⟨List.mem_append_left _ (ihl h).1, (ihl h).2⟩
    · exact ⟨List.mem_append_right _ (List.mem_cons_of_mem _ (ihr h).1), (ihr h).2⟩

/-- A walk that stops nowhere has missed no node to stop at, if a node that sends it to one side has none on
the other. -/
theorem not_stop_of_stopsAt {t : RbTree α}
    (hleft : t.toList.Pairwise fun a b => ¬ stop a → left a → ¬ stop b)
    (hright : t.toList.Pairwise fun a b => ¬ stop b → ¬ left b → ¬ stop a)
    (h : stopsAt stop left t = none) : ∀ a ∈ t.toList, ¬ stop a := by
  induction t with
  | nil => nofun
  | node c l b r ihl ihr =>
    obtain ⟨hll, hlr, hlcross⟩ := List.pairwise_append.mp hleft
    obtain ⟨hrl, hrr, hrcross⟩ := List.pairwise_append.mp hright
    unfold stopsAt at h
    split_ifs at h with hstop hto
    · intro a ha
      rcases List.mem_append.mp ha with ha | ha
      · exact ihl hll hrl h a ha
      · rcases List.mem_cons.mp ha with rfl | ha
        · exact hstop
        · exact (List.pairwise_cons.mp hlr).1 a ha hstop hto
    · intro a ha
      rcases List.mem_append.mp ha with ha | ha
      · exact hrcross a ha b List.mem_cons_self hstop hto
      · rcases List.mem_cons.mp ha with rfl | ha
        · exact hstop
        · exact ihr (List.pairwise_cons.mp hlr).2 (List.pairwise_cons.mp hrr).2 h a ha

/-- It comes between the nodes that send the walk to the right and those that send it to the left. -/
theorem toList_attach (b : α) {t : RbTree α} (h : t.toList.Pairwise fun x y => left x → left y) :
    ∃ xs ys, t.toList = xs ++ ys ∧ (attach left b t).toList = xs ++ b :: ys ∧ (∀ x ∈ xs, ¬ left x) ∧
      ∀ y ∈ ys, left y := by
  induction t with
  | nil => exact ⟨[], [], rfl, rfl, nofun, nofun⟩
  | node c l a r ihl ihr =>
    obtain ⟨hl, hr, hcross⟩ := List.pairwise_append.mp h
    obtain ⟨har, hr⟩ := List.pairwise_cons.mp hr
    unfold attach
    split_ifs with hto
    · obtain ⟨xs, ys, hlist, hlist', hbelow, habove⟩ := ihl hl
      refine ⟨xs, ys ++ a :: r.toList, by simp [hlist], by simp [hlist'], hbelow, ?_⟩
      intro y hy
      rcases List.mem_append.mp hy with hy | hy
      · exact habove y hy
      · rcases List.mem_cons.mp hy with rfl | hy
        · exact hto
        · exact har y hy hto
    · obtain ⟨xs, ys, hlist, hlist', hbelow, habove⟩ := ihr hr
      refine ⟨l.toList ++ a :: xs, ys, by simp [hlist], by simp [hlist'], ?_, habove⟩
      intro x hx hleft
      rcases List.mem_append.mp hx with hx | hx
      · exact hto (hcross x hx a List.mem_cons_self hleft)
      · rcases List.mem_cons.mp hx with rfl | hx
        · exact hto hleft
        · exact hbelow x hx hleft

end

/-! ## Intervals -/

section

variable (lo hi : α → κ)

/-- The node whose interval a number is in. -/
def find (k : κ) : RbTree α → Option α
  | nil => none
  | node _ l a r => if k < lo a then find k l else if hi a ≤ k then find k r else some a

/-- The search for `k` does not come to `a`: it lies to the left of a node that begins and ends by then. -/
def Hidden (k : κ) (a : α) : RbTree α → Prop
  | nil => False
  | node _ l b r => (a ∈ l.toList ∧ lo b ≤ k ∧ hi b ≤ k) ∨ Hidden k a l ∨ Hidden k a r

/-- The nodes whose intervals are inside the one from `s` to `e`, in the order of the visit. -/
def covered (s e : κ) : RbTree α → List α
  | nil => []
  | node _ l a r =>
    (if s ≤ lo a ∧ hi a ≤ e then [a] else []) ++ (if s < lo a then covered s e l else []) ++
      if hi a < e then covered s e r else []

/-- The walk up to `e` does not come to `a`: it lies to the right of a node that does not end before. -/
def Pruned (e : κ) (a : α) : RbTree α → Prop
  | nil => False
  | node _ l b r => (a ∈ r.toList ∧ e ≤ hi b) ∨ Pruned e a l ∨ Pruned e a r

variable {lo hi}

/-- What is found has the number in its interval. -/
theorem mem_of_find {k : κ} {t : RbTree α} {a : α} (h : find lo hi k t = some a) :
    a ∈ t.toList ∧ lo a ≤ k ∧ k < hi a := by
  induction t with
  | nil => nomatch h
  | node c l b r ihl ihr =>
    unfold find at h
    split_ifs at h with hlt hle
    · exact ⟨List.mem_append_left _ (ihl h).1, (ihl h).2⟩
    · exact ⟨List.mem_append_right _ (List.mem_cons_of_mem _ (ihr h).1), (ihr h).2⟩
    · obtain rfl := Option.some.inj h
      exact ⟨List.mem_append_right _ List.mem_cons_self, not_lt.mp hlt, not_le.mp hle⟩

theorem Hidden.mem {k : κ} {a : α} {t : RbTree α} (h : Hidden lo hi k a t) : a ∈ t.toList := by
  induction t with
  | nil => exact h.elim
  | node c l b r ihl ihr =>
    rcases h with h | h | h
    · exact List.mem_append_left _ h.1
    · exact List.mem_append_left _ (ihl h)
    · exact List.mem_append_right _ (List.mem_cons_of_mem _ (ihr h))

/-- A node that hides another comes after it and ends before. -/
theorem Hidden.exists_past {k : κ} {a : α} {t : RbTree α} (h : Hidden lo hi k a t)
    (hsorted : t.toList.Pairwise fun a b => lo a < lo b) : ∃ b ∈ t.toList, lo a < lo b ∧ hi b ≤ k := by
  induction t with
  | nil => exact h.elim
  | node c l b r ihl ihr =>
    obtain ⟨hl, hr, hcross⟩ := List.pairwise_append.mp hsorted
    rcases h with h | h | h
    · exact ⟨b, List.mem_append_right _ List.mem_cons_self, hcross a h.1 b List.mem_cons_self, h.2.2⟩
    · obtain ⟨b', hb', hpast⟩ := ihl h hl
      exact ⟨b', List.mem_append_left _ hb', hpast⟩
    · obtain ⟨b', hb', hpast⟩ := ihr h (List.pairwise_cons.mp hr).2
      exact ⟨b', List.mem_append_right _ (List.mem_cons_of_mem _ hb'), hpast⟩

/-- **The search is successful** if some interval with the number in it is not hidden. -/
theorem find_isSome_iff {t : RbTree α} (hsorted : t.toList.Pairwise fun a b => lo a < lo b) (k : κ) :
    (find lo hi k t).isSome ↔ ∃ a ∈ t.toList, (lo a ≤ k ∧ k < hi a) ∧ ¬ Hidden lo hi k a t := by
  induction t with
  | nil => simp [find]
  | node c l b r ihl ihr =>
    obtain ⟨hl, hr, hcross⟩ := List.pairwise_append.mp hsorted
    obtain ⟨hbr, hr⟩ := List.pairwise_cons.mp hr
    have hlb : ∀ a ∈ l.toList, lo a < lo b := fun a ha => hcross a ha b List.mem_cons_self
    -- no node is on both sides
    have hnotl : ∀ a ∈ r.toList, a ∉ l.toList :=
      fun a ha hmem => absurd (hcross a hmem a (List.mem_cons_of_mem _ ha)) (lt_irrefl _)
    rw [find]
    split_ifs with hlt hle
    · rw [ihl hl]
      constructor
      · rintro ⟨a, ha, hin, hseen⟩
        refine ⟨a, List.mem_append_left _ ha, hin, ?_⟩
        rintro (h | h | h)
        · exact absurd hlt (not_lt.mpr h.2.1)
        · exact hseen h
        · exact hnotl a h.mem ha
      · rintro ⟨a, ha, hin, hseen⟩
        rcases List.mem_append.mp ha with ha | ha
        · exact ⟨a, ha, hin, fun h => hseen (.inr (.inl h))⟩
        · have hba : lo b ≤ lo a := by
            rcases List.mem_cons.mp ha with rfl | ha
            · exact le_refl _
            · exact (hbr a ha).le
          exact absurd hlt (not_lt.mpr (hba.trans hin.1))
    · rw [ihr hr]
      constructor
      · rintro ⟨a, ha, hin, hseen⟩
        refine ⟨a, List.mem_append_right _ (List.mem_cons_of_mem _ ha), hin, ?_⟩
        rintro (h | h | h)
        · exact hnotl a ha h.1
        · exact hnotl a ha h.mem
        · exact hseen h
      · rintro ⟨a, ha, hin, hseen⟩
        rcases List.mem_append.mp ha with ha | ha
        · exact absurd (.inl ⟨ha, not_lt.mp hlt, hle⟩) hseen
        · rcases List.mem_cons.mp ha with rfl | ha
          · exact absurd hin.2 (not_lt.mpr hle)
          · exact ⟨a, ha, hin, fun h => hseen (.inr (.inr h))⟩
    · refine iff_of_true rfl ⟨b, List.mem_append_right _ List.mem_cons_self,
        ⟨not_lt.mp hlt, not_le.mp hle⟩, ?_⟩
      rintro (h | h | h)
      · exact absurd (hlb b h.1) (lt_irrefl _)
      · exact absurd (hlb b h.mem) (lt_irrefl _)
      · exact absurd (hbr b h.mem) (lt_irrefl _)

/-- An interval away from all others finds a place between them. -/
theorem link_apart {t : RbTree α} {b : α} (hne : ∀ a ∈ t.toList, lo a < hi a)
    (hapart : t.toList.Pairwise fun a b => hi a ≤ lo b) (hb : lo b < hi b)
    (haway : ∀ a ∈ t.toList, hi a ≤ lo b ∨ hi b ≤ lo a) :
    ∃ t', link lo b t = some t' ∧ (∀ a, a ∈ t'.toList ↔ a = b ∨ a ∈ t.toList) ∧
      t'.toList.Pairwise fun a b => hi a ≤ lo b := by
  have hfresh : ∀ a ∈ t.toList, lo a ≠ lo b := by
    intro a ha hsame
    rcases haway a ha with hle | hle
    · exact absurd ((hne a ha).trans_le hle) (by rw [hsame]; exact lt_irrefl _)
    · exact absurd (hb.trans_le hle) (by rw [hsame]; exact lt_irrefl _)
  obtain ⟨t', ht'⟩ := Option.isSome_iff_exists.mp (link_isSome hfresh)
  have hsorted : t.toList.Pairwise fun a b => lo a < lo b :=
    hapart.imp_of_mem fun ha _ hab => (hne _ ha).trans_le hab
  obtain ⟨xs, ys, hlist, hlist', hbelow, habove⟩ := toList_link hsorted ht'
  refine ⟨t', ht', fun a => ?_, ?_⟩
  · rw [hlist, hlist']
    simp only [List.mem_append, List.mem_cons]
    exact or_left_comm
  rw [hlist] at hapart hne haway
  obtain ⟨hxs, hys, hcross⟩ := List.pairwise_append.mp hapart
  rw [hlist', List.pairwise_append, List.pairwise_cons]
  refine ⟨hxs, ⟨fun y hy => ?_, hys⟩, fun x hx y hy => ?_⟩
  · have hmem := List.mem_append_right xs hy
    refine (haway y hmem).resolve_left fun hle => ?_
    exact absurd ((hne y hmem).trans_le hle) (habove y hy).asymm
  · rcases List.mem_cons.mp hy with rfl | hy
    · have hmem := List.mem_append_left ys hx
      refine (haway x hmem).resolve_right fun hle => ?_
      exact absurd (hb.trans_le hle) (hbelow x hx).asymm
    · exact hcross x hx y hy

theorem Pruned.mem {e : κ} {a : α} {t : RbTree α} (h : Pruned hi e a t) : a ∈ t.toList := by
  induction t with
  | nil => exact h.elim
  | node c l b r ihl ihr =>
    rcases h with h | h | h
    · exact List.mem_append_right _ (List.mem_cons_of_mem _ h.1)
    · exact List.mem_append_left _ (ihl h)
    · exact List.mem_append_right _ (List.mem_cons_of_mem _ (ihr h))

/-- A node that prunes another comes before it and does not end before `e`. -/
theorem Pruned.exists_late {e : κ} {a : α} {t : RbTree α} (h : Pruned hi e a t)
    (hsorted : t.toList.Pairwise fun a b => lo a < lo b) : ∃ b ∈ t.toList, lo b < lo a ∧ e ≤ hi b := by
  induction t with
  | nil => exact h.elim
  | node c l b r ihl ihr =>
    obtain ⟨hl, hr, hcross⟩ := List.pairwise_append.mp hsorted
    obtain ⟨hbr, hr⟩ := List.pairwise_cons.mp hr
    rcases h with h | h | h
    · exact ⟨b, List.mem_append_right _ List.mem_cons_self, hbr a h.1, h.2⟩
    · obtain ⟨b', hb', hlate⟩ := ihl h hl
      exact ⟨b', List.mem_append_left _ hb', hlate⟩
    · obtain ⟨b', hb', hlate⟩ := ihr h hr
      exact ⟨b', List.mem_append_right _ (List.mem_cons_of_mem _ hb'), hlate⟩

/-- Each node is visited at most once. -/
theorem covered_subperm (lo hi : α → κ) (s e : κ) (t : RbTree α) :
    (covered lo hi s e t).Subperm t.toList := by
  induction t with
  | nil => exact List.Subperm.refl _
  | node c l a r ihl ihr =>
    have hnode : (if s ≤ lo a ∧ hi a ≤ e then [a] else []).Subperm [a] := by
      split_ifs
      · exact List.Subperm.refl _
      · exact List.nil_subperm
    have hleft : (if s < lo a then covered lo hi s e l else []).Subperm l.toList := by
      split_ifs
      · exact ihl
      · exact List.nil_subperm
    have hright : (if hi a < e then covered lo hi s e r else []).Subperm r.toList := by
      split_ifs
      · exact ihr
      · exact List.nil_subperm
    rw [covered, toList_node]
    refine ((hnode.append hleft).append hright).trans ?_
    exact List.perm_middle.symm.subperm

/-- **What the walk finds**: the intervals inside that are not pruned. -/
theorem mem_covered {t : RbTree α} (hsorted : t.toList.Pairwise fun a b => lo a < lo b) {s e : κ} {a : α} :
    a ∈ covered lo hi s e t ↔ a ∈ t.toList ∧ (s ≤ lo a ∧ hi a ≤ e) ∧ ¬ Pruned hi e a t := by
  induction t with
  | nil => simp [covered]
  | node c l b r ihl ihr =>
    obtain ⟨hl, hr, hcross⟩ := List.pairwise_append.mp hsorted
    obtain ⟨hbr, hr⟩ := List.pairwise_cons.mp hr
    have hlb : ∀ a ∈ l.toList, lo a < lo b := fun a ha => hcross a ha b List.mem_cons_self
    have hnotr : ∀ a ∈ l.toList, a ∉ r.toList :=
      fun a ha hmem => absurd (hcross a ha a (List.mem_cons_of_mem _ hmem)) (lt_irrefl _)
    rw [covered, List.append_assoc, List.mem_append, List.mem_append]
    constructor
    · rintro (ha | ha | ha)
      · obtain ⟨hin, ha⟩ := List.mem_ite_nil_right.mp ha
        obtain rfl := List.mem_singleton.mp ha
        refine ⟨List.mem_append_right _ List.mem_cons_self, hin, ?_⟩
        rintro (h | h | h)
        · exact absurd (hbr a h.1) (lt_irrefl _)
        · exact absurd (hlb a h.mem) (lt_irrefl _)
        · exact absurd (hbr a h.mem) (lt_irrefl _)
      · obtain ⟨-, ha⟩ := List.mem_ite_nil_right.mp ha
        obtain ⟨hmem, hin, hseen⟩ := (ihl hl).mp ha
        refine ⟨List.mem_append_left _ hmem, hin, ?_⟩
        rintro (h | h | h)
        · exact hnotr a hmem h.1
        · exact hseen h
        · exact hnotr a hmem h.mem
      · obtain ⟨hend, ha⟩ := List.mem_ite_nil_right.mp ha
        obtain ⟨hmem, hin, hseen⟩ := (ihr hr).mp ha
        refine ⟨List.mem_append_right _ (List.mem_cons_of_mem _ hmem), hin, ?_⟩
        rintro (h | h | h)
        · exact absurd hend (not_lt.mpr h.2)
        · exact hnotr a h.mem hmem
        · exact hseen h
    · rintro ⟨ha, hin, hseen⟩
      rcases List.mem_append.mp ha with ha | ha
      · have hs := hin.1.trans_lt (hlb a ha)
        refine .inr (.inl (List.mem_ite_nil_right.mpr ⟨hs, (ihl hl).mpr ⟨ha, hin, ?_⟩⟩))
        exact fun h => hseen (.inr (.inl h))
      · rcases List.mem_cons.mp ha with rfl | ha
        · exact .inl (List.mem_ite_nil_right.mpr ⟨hin, List.mem_singleton_self _⟩)
        · have he := not_le.mp fun h => hseen (.inl ⟨ha, h⟩)
          refine .inr (.inr (List.mem_ite_nil_right.mpr ⟨he, (ihr hr).mpr ⟨ha, hin, ?_⟩⟩))
          exact fun h => hseen (.inr (.inr h))

theorem nodup_of_sorted {t : RbTree α} (hsorted : t.toList.Pairwise fun a b => lo a < lo b) :
    t.toList.Nodup :=
  hsorted.imp fun h heq => absurd h (by rw [heq]; exact lt_irrefl _)

/-- **The walk is complete** just if nothing inside is pruned. -/
theorem covered_perm_iff {t : RbTree α} (hsorted : t.toList.Pairwise fun a b => lo a < lo b) (s e : κ) :
    (covered lo hi s e t).Perm (t.toList.filter fun a => s ≤ lo a ∧ hi a ≤ e) ↔
      ∀ a ∈ t.toList, s ≤ lo a ∧ hi a ≤ e → ¬ Pruned hi e a t := by
  have hnodup := nodup_of_sorted hsorted
  obtain ⟨found, hperm, hsub⟩ := covered_subperm lo hi s e t
  rw [List.perm_ext_iff_of_nodup (hperm.nodup (hsub.nodup hnodup)) (hnodup.filter _)]
  constructor
  · intro h a ha hin
    exact ((mem_covered hsorted).mp ((h a).mpr (List.mem_filter.mpr ⟨ha, decide_eq_true hin⟩))).2.2
  · intro h a
    rw [mem_covered hsorted, List.mem_filter, decide_eq_true_iff]
    exact ⟨fun ⟨ha, hin, _⟩ => ⟨ha, hin⟩, fun ⟨ha, hin⟩ => ⟨ha, hin, h a ha hin⟩⟩

/-- So it is when the intervals are apart, and none is empty. -/
theorem covered_perm {t : RbTree α} (s e : κ) (hne : ∀ a ∈ t.toList, lo a < hi a)
    (hapart : t.toList.Pairwise fun a b => hi a ≤ lo b) :
    (covered lo hi s e t).Perm (t.toList.filter fun a => s ≤ lo a ∧ hi a ≤ e) := by
  have hsorted : t.toList.Pairwise fun a b => lo a < lo b :=
    hapart.imp_of_mem fun ha _ hab => (hne _ ha).trans_le hab
  refine (covered_perm_iff hsorted s e).mpr fun a ha hin hpruned => ?_
  obtain ⟨b, hb, hlt, hlate⟩ := hpruned.exists_late hsorted
  -- `b` comes first, so it ends before `a` begins
  have hba : hi b ≤ lo a := by
    have hall : ∀ ⦃x⦄, x ∈ t.toList → ∀ ⦃y⦄, y ∈ t.toList → lo x < lo y → hi x ≤ lo y := by
      refine List.Pairwise.forall_of_forall_of_flip (fun x _ h => absurd h (lt_irrefl _)) ?_ ?_
      · refine hapart.imp ?_
        intro x y h _
        exact h
      · refine hsorted.imp ?_
        intro x y h h'
        exact absurd (h.trans h') (lt_irrefl _)
    exact hall hb ha hlt
  exact absurd ((hlate.trans hba).trans_lt (hne a ha)) (not_lt.mpr hin.2)

end

/-- A tree that is built anew from the nodes that are left has just these. -/
theorem toList_rebuild {α : Type*} [DecidableEq α] (a : α) (t : RbTree α) (_ : t.toList.Nodup) :
    ((t.toList.erase a).foldr (fun b t => RbTree.node false .nil b t) .nil).toList = t.toList.erase a := by
  generalize t.toList.erase a = l
  induction l with
  | nil => rfl
  | cons b l ih => exact congrArg (b :: ·) ih

end RbTree

/-- What is relied on of a balancing scheme: the nodes keep their order, and a node that is erased is the
only one to go. -/
structure Balancer (α : Type*) [DecidableEq α] where
  insertColor : α → RbTree α → RbTree α
  erase : α → RbTree α → RbTree α
  toList_insertColor : ∀ a t, (insertColor a t).toList = t.toList
  toList_erase : ∀ a t, t.toList.Nodup → (erase a t).toList = t.toList.erase a

/-- No balancing. -/
def Balancer.plain (α : Type*) [DecidableEq α] : Balancer α where
  insertColor _ t := t
  erase a t := (t.toList.erase a).foldr (fun b t => .node false .nil b t) .nil
  toList_insertColor _ _ := rfl
  toList_erase := RbTree.toList_rebuild

/-! ## An index -/

section

variable {α κ : Type*} [LinearOrder κ] [DecidableEq α] (bal : Balancer α) {key : α → κ}

/-- A node is added unless its key is there. -/
def Balancer.add (key : α → κ) (b : α) (t : RbTree α) : RbTree α :=
  match t.link key b with
  | none => t
  | some t' => bal.insertColor b t'

/-- A node whose key is there is not added. -/
theorem Balancer.add_taken {t : RbTree α} {b : α} (hsorted : t.toList.Pairwise fun a b => key a < key b)
    (htaken : t.lookup key (key b) ≠ none) : bal.add key b t = t := by
  obtain ⟨a, ha⟩ := Option.ne_none_iff_exists'.mp htaken
  rw [Balancer.add, (RbTree.link_eq_none hsorted).mpr ⟨a, (RbTree.lookup_eq_some hsorted).mp ha⟩]

/-- A node with a new key is the only one that is new. -/
theorem Balancer.add_perm {t : RbTree α} {b : α} (hsorted : t.toList.Pairwise fun a b => key a < key b)
    (hfresh : t.lookup key (key b) = none) : (bal.add key b t).toList.Perm (b :: t.toList) := by
  obtain ⟨t', ht'⟩ := Option.isSome_iff_exists.mp
    (RbTree.link_isSome fun a ha => (RbTree.lookup_eq_none hsorted).mp hfresh a ha)
  obtain ⟨xs, ys, hlist, hlist', -, -⟩ := RbTree.toList_link hsorted ht'
  rw [Balancer.add, ht']
  dsimp only
  rw [bal.toList_insertColor, hlist', hlist]
  exact List.perm_middle

/-- The tree stays in order, and the key leads to the node that had it first. -/
theorem Balancer.add_spec {t : RbTree α} {b : α} (hsorted : t.toList.Pairwise fun a b => key a < key b) :
    ((bal.add key b t).toList.Pairwise fun a b => key a < key b) ∧
      ∀ k, (bal.add key b t).lookup key k =
        if k = key b then some ((t.lookup key k).getD b) else t.lookup key k := by
  rw [Balancer.add]
  cases hlink : t.link key b with
  | none =>
    refine ⟨hsorted, fun k => ?_⟩
    obtain ⟨a, ha, hab⟩ := (RbTree.link_eq_none hsorted).mp hlink
    split_ifs with hk
    · rw [(RbTree.lookup_eq_some hsorted).mpr ⟨ha, hab.trans hk.symm⟩]
      rfl
    · rfl
  | some t' =>
    dsimp only
    obtain ⟨hsorted', hmem, hfresh⟩ := RbTree.link_spec hsorted hlink
    rw [← bal.toList_insertColor b t'] at hsorted' hmem
    refine ⟨hsorted', fun k => ?_⟩
    split_ifs with hk
    · have hnone := (RbTree.lookup_eq_none hsorted).mpr hfresh
      rw [hk, hnone]
      exact (RbTree.lookup_eq_some hsorted').mpr ⟨(hmem b).mpr (.inl rfl), rfl⟩
    · refine Option.ext fun a => ?_
      rw [RbTree.lookup_eq_some hsorted', RbTree.lookup_eq_some hsorted, hmem]
      refine and_congr_left fun hak => or_iff_right ?_
      rintro rfl
      exact hk hak.symm

/-- The tree without a node is in order, and its key leads nowhere. -/
theorem Balancer.erase_spec {t : RbTree α} {a : α} (hsorted : t.toList.Pairwise fun a b => key a < key b)
    (ha : a ∈ t.toList) : ((bal.erase a t).toList.Pairwise fun a b => key a < key b) ∧
      ∀ k, (bal.erase a t).lookup key k = if k = key a then none else t.lookup key k := by
  have hnodup := RbTree.nodup_of_sorted hsorted
  have hlist := bal.toList_erase a t hnodup
  have hsorted' : (bal.erase a t).toList.Pairwise fun a b => key a < key b := by
    rw [hlist]
    exact hsorted.sublist List.erase_sublist
  refine ⟨hsorted', fun k => ?_⟩
  refine Option.ext fun b => ?_
  rw [RbTree.lookup_eq_some hsorted', hlist, hnodup.mem_erase_iff]
  split_ifs with hk
  · refine iff_of_false ?_ nofun
    rintro ⟨⟨hne, hb⟩, hkey⟩
    have hsome := (RbTree.lookup_eq_some hsorted).mpr ⟨hb, hkey⟩
    rw [(RbTree.lookup_eq_some hsorted).mpr ⟨ha, hk.symm⟩] at hsome
    exact hne (Option.some.inj hsome).symm
  · rw [RbTree.lookup_eq_some hsorted]
    refine and_congr_left fun hkey => and_iff_right ?_
    rintro rfl
    exact hk hkey.symm

end

end SearchTree
