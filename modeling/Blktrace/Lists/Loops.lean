import Blktrace.Lists.Run

/-!
# Loops over lists

A loop goes from element to element by reading where it points. The one that may take elements out reads that before
its body is run: then the body can even free the element. A loop that reads it afterwards goes wrong at the first
one.
-/

namespace Blktrace.Lists

variable {τ : Type}

/-! ## The loops -/

/-- `for (; pos != head; pos = pos->next)`, or `prev`; as many turns as there is fuel for, and the last test. -/
def forEachFrom (step : Ptr → Heap → Option Ptr) (head : Ptr) (body : Ptr → Heap × τ → Option (Heap × τ)) :
    ℕ → Ptr → Heap × τ → Option (Heap × τ)
  | 0, _, _ => none
  | fuel + 1, pos, s =>
    if pos = head then some s
    else do
      let s ← body pos s
      forEachFrom step head body fuel (← step pos s.1) s

/-- `__list_for_each`, `list_for_each` and `list_for_each_entry` -/
def listForEach (body : Ptr → Heap × τ → Option (Heap × τ)) (fuel : ℕ) (head : Ptr) (s : Heap × τ) :
    Option (Heap × τ) := do
  forEachFrom Heap.next head body fuel (← s.1.next head) s

/-- `list_for_each_prev` and `list_for_each_entry_reverse` -/
def listForEachPrev (body : Ptr → Heap × τ → Option (Heap × τ)) (fuel : ℕ) (head : Ptr) (s : Heap × τ) :
    Option (Heap × τ) := do
  forEachFrom Heap.prev head body fuel (← s.1.prev head) s

/-- `list_for_each_safe`: the next place is read before the test and the body. -/
def forEachSafeFrom (head : Ptr) (body : Ptr → Heap × τ → Option (Heap × τ)) :
    ℕ → Ptr → Ptr → Heap × τ → Option (Heap × τ)
  | 0, _, _, _ => none
  | fuel + 1, pos, n, s =>
    if pos = head then some s
    else do
      let s ← body pos s
      forEachSafeFrom head body fuel n (← s.1.next n) s

/-- `list_for_each_safe` and `list_for_each_entry_safe` -/
def listForEachSafe (body : Ptr → Heap × τ → Option (Heap × τ)) (fuel : ℕ) (head : Ptr) (s : Heap × τ) :
    Option (Heap × τ) := do
  let pos ← s.1.next head
  forEachSafeFrom head body fuel pos (← s.1.next pos) s

def listLen (fuel : ℕ) (head : Ptr) (h : Heap) : Option ℕ :=
  (listForEach (fun _ s => some (s.1, s.2 + 1)) fuel head (h, 0)).map Prod.snd

/-! ## The loops go over the elements -/

variable {h : Heap} {A : Table} {x : Ptr} {l : List Ptr} {fuel : ℕ}
  {body : Ptr → Heap × τ → Option (Heap × τ)} {s : Heap × τ}

/-- A body that leaves the memory alone is run for the elements, one after the other. -/
theorem forEachFrom_eq {step : Ptr → Heap → Option Ptr} (f : Ptr → τ → τ) (hx : x ∉ l)
    (hstep : ∀ l₁ p l₂, l = l₁ ++ p :: l₂ → step p h = some (l₂.headD x)) {t : τ} (hfuel : l.length < fuel) :
    forEachFrom step x (fun p s => some (s.1, f p s.2)) fuel (l.headD x) (h, t) =
      some (h, l.foldl (fun t p => f p t) t) := by
  induction l generalizing fuel t with
  | nil =>
    obtain ⟨fuel, rfl⟩ := Nat.exists_eq_add_one_of_ne_zero (Nat.ne_of_gt hfuel)
    exact if_pos rfl
  | cons p l ih =>
    obtain ⟨fuel, rfl⟩ := Nat.exists_eq_add_one_of_ne_zero (Nat.ne_of_gt (Nat.zero_lt_of_lt hfuel))
    rw [List.mem_cons, not_or] at hx
    rw [List.headD_cons, forEachFrom, if_neg (Ne.symm hx.1), Option.bind_eq_bind, Option.bind_some,
      hstep [] p l rfl, List.foldl_cons]
    exact ih hx.2 (fun l₁ q l₂ hl => hstep (p :: l₁) q l₂ (hl ▸ rfl)) (Nat.lt_of_succ_lt_succ hfuel)

theorem Rep.next_eq (hrep : Rep h A) {l₁ l₂ : List Ptr} {p : Ptr} (hr : (x, l₁ ++ p :: l₂) ∈ A.lists) :
    h.next p = some (l₂.headD x) := by
  have hL := List.perm_cons_erase hr
  have hmem : p ∈ x :: (l₁ ++ p :: l₂) := List.mem_cons_of_mem x (List.mem_append_right l₁ List.mem_cons_self)
  rw [Heap.next_eq (hrep.isSome hL hmem), (hrep.ring_one hL).next_mid]

theorem Rep.prev_eq (hrep : Rep h A) {l₁ l₂ : List Ptr} {p : Ptr} (hr : (x, l₁ ++ p :: l₂) ∈ A.lists) :
    h.prev p = some (l₁.getLastD x) := by
  have hL := List.perm_cons_erase hr
  have hmem : p ∈ x :: (l₁ ++ p :: l₂) := List.mem_cons_of_mem x (List.mem_append_right l₁ List.mem_cons_self)
  rw [Heap.prev_eq (hrep.isSome hL hmem), (hrep.ring_one hL).prev_mid]

theorem Rep.listForEach (hrep : Rep h A) (hr : (x, l) ∈ A.lists) (f : Ptr → τ → τ) (t : τ) (hfuel : l.length < fuel) :
    listForEach (fun p s => some (s.1, f p s.2)) fuel x (h, t) = some (h, l.foldl (fun t p => f p t) t) := by
  have hL := List.perm_cons_erase hr
  have hx := (List.nodup_cons.mp (hrep.apart hL).nodup).1
  rw [Blktrace.Lists.listForEach, Heap.next_eq (hrep.isSome hL List.mem_cons_self), (hrep.ring_one hL).next_eq,
    Option.bind_eq_bind, Option.bind_some]
  exact forEachFrom_eq f hx (fun l₁ p l₂ hl => hrep.next_eq (hl ▸ hr)) hfuel

theorem Rep.listForEachPrev (hrep : Rep h A) (hr : (x, l) ∈ A.lists) (f : Ptr → τ → τ) (t : τ)
    (hfuel : l.length < fuel) :
    listForEachPrev (fun p s => some (s.1, f p s.2)) fuel x (h, t) =
      some (h, l.reverse.foldl (fun t p => f p t) t) := by
  have hL := List.perm_cons_erase hr
  have hx := (List.nodup_cons.mp (hrep.apart hL).nodup).1
  have hlast : ∀ m : List Ptr, m.getLastD x = m.reverse.headD x := by
    intro m
    rw [List.getLastD_eq_getLast?, List.headD_eq_head?_getD, List.head?_reverse]
  rw [Blktrace.Lists.listForEachPrev, Heap.prev_eq (hrep.isSome hL List.mem_cons_self), (hrep.ring_one hL).prev_eq,
    Option.bind_eq_bind, Option.bind_some, hlast]
  refine forEachFrom_eq f (fun h => hx (List.mem_reverse.mp h)) (fun l₁ p l₂ hl => ?_) (by rwa [List.length_reverse])
  have hl' : l = l₂.reverse ++ p :: l₁.reverse := by
    rw [← l.reverse_reverse, hl]
    simp
  rw [hrep.prev_eq (hl' ▸ hr), hlast, List.reverse_reverse]

/-- What the loops make of a list. -/
structure Walked (h : Heap) (x : Ptr) (l : List Ptr) : Prop where
  forward : ∀ fuel > l.length,
    listForEach (fun p s => some (s.1, s.2 ++ [p])) fuel x (h, []) = some (h, l)
  back : ∀ fuel > l.length,
    listForEachPrev (fun p s => some (s.1, s.2 ++ [p])) fuel x (h, []) = some (h, l.reverse)
  len : ∀ fuel > l.length, listLen fuel x h = some l.length

theorem foldl_concat (l m : List Ptr) : l.foldl (fun t p => t ++ [p]) m = m ++ l := by
  induction l generalizing m with
  | nil => exact (List.append_nil m).symm
  | cons p l ih => rw [List.foldl_cons, ih, List.append_assoc, List.singleton_append]

theorem Rep.walked (hrep : Rep h A) (hr : (x, l) ∈ A.lists) : Walked h x l where
  forward := fun fuel hfuel => by
    rw [hrep.listForEach hr (fun p t => t ++ [p]) [] hfuel, foldl_concat, List.nil_append]
  back := fun fuel hfuel => by
    rw [hrep.listForEachPrev hr (fun p t => t ++ [p]) [] hfuel, foldl_concat, List.nil_append]
  len := fun fuel hfuel => by
    rw [listLen, hrep.listForEach hr (fun _ t => t + 1) 0 hfuel, List.foldl_add_const]
    simp

/-! ## Runs -/

/-- **No run goes wrong**, and it leaves the lists in memory that it should: they are seen so, from both ends. -/
theorem lists_run {ops : List Op} (hfits : RunFits ops noLists) :
    ∃ h, ops.foldlM (fun h op => op.run h) noCells = some h ∧
      Rep h (ops.foldl (fun A op => op.apply A) noLists) ∧
      ∀ r ∈ (ops.foldl (fun A op => op.apply A) noLists).lists, Seen h r.1 r.2 ∧ Walked h r.1 r.2 := by
  obtain ⟨h, hrun, hrep⟩ := run_spec rep_noLists hfits
  exact ⟨h, hrun, hrep, fun r hr => ⟨hrep.seen hr, hrep.walked hr⟩⟩

/-- A list of two elements, the first of which was moved behind the other. -/
def twoElements : List Op :=
  [.alloc 0x1000 ⟨0, 0⟩, .init 0x1000, .alloc 0x2000 ⟨0, 0⟩, .addTail 0x2000 0x1000, .alloc 0x3000 ⟨0, 0⟩,
    .addTail 0x3000 0x1000, .moveTail 0x2000 0x1000]

/-- The list goes over to another head. -/
def handedOver : List Op := twoElements ++ [.alloc 0x4000 ⟨0, 0⟩, .replaceInit 0x1000 0x4000]

theorem lists_run_handedOver : ∃ h, handedOver.foldlM (fun h op => op.run h) noCells = some h ∧
    Rep h (handedOver.foldl (fun A op => op.apply A) noLists) ∧
    ∀ r ∈ (handedOver.foldl (fun A op => op.apply A) noLists).lists, Seen h r.1 r.2 ∧ Walked h r.1 r.2 :=
  lists_run (by decide)

example : (handedOver.foldl (fun A op => op.apply A) noLists).lists =
    [(0x1000, []), (0x4000, [0x3000, 0x2000])] := by decide

/-! ## Elements are taken out -/

theorem Rep.next_links (hrep : Rep h A) (hr : (x, l) ∈ A.lists) {p : Ptr} (hp : p ∈ x :: l) :
    h.next p = some (h.links.next p) :=
  Heap.next_eq (hrep.isSome (List.perm_cons_erase hr) hp)

theorem forEachSafeFrom_spec {P : List Ptr → Heap × τ → Prop}
    (hbody : ∀ p rest s, P (p :: rest) s → ∃ s', body p s = some s' ∧ P rest s')
    (hlist : ∀ rest s, P rest s → ∃ A l, Rep s.1 A ∧ (x, l ++ rest) ∈ A.lists) {rest : List Ptr} {n : Ptr}
    (hP : P rest s) (hn : s.1.next (rest.headD x) = some n) (hfuel : rest.length < fuel) :
    ∃ s', forEachSafeFrom x body fuel (rest.headD x) n s = some s' ∧ P [] s' := by
  induction rest generalizing s n fuel with
  | nil =>
    obtain ⟨fuel, rfl⟩ := Nat.exists_eq_add_one_of_ne_zero (Nat.ne_of_gt hfuel)
    exact ⟨s, if_pos rfl, hP⟩
  | cons p rest ih =>
    obtain ⟨fuel, rfl⟩ := Nat.exists_eq_add_one_of_ne_zero (Nat.ne_of_gt (Nat.zero_lt_of_lt hfuel))
    obtain ⟨A, l, hrep, hr⟩ := hlist _ _ hP
    have hne : p ≠ x := fun h => (List.nodup_cons.mp (hrep.apart (List.perm_cons_erase hr)).nodup).1
      (h ▸ List.mem_append_right l List.mem_cons_self)
    obtain rfl : rest.headD x = n := Option.some.inj ((hrep.next_eq hr).symm.trans hn)
    obtain ⟨s', hs', hP'⟩ := hbody p rest s hP
    obtain ⟨A', l', hrep', hr'⟩ := hlist _ _ hP'
    -- behind the last element is the head, which is read as well
    have hcell : rest.headD x ∈ x :: (l' ++ rest) := by
      cases rest with
      | nil => exact List.mem_cons_self
      | cons q rest => exact List.mem_cons_of_mem x (List.mem_append_right l' List.mem_cons_self)
    have hn' := hrep'.next_links hr' hcell
    obtain ⟨s'', hs'', hP''⟩ := ih hP' hn' (Nat.lt_of_succ_lt_succ hfuel)
    refine ⟨s'', ?_, hP''⟩
    rw [List.headD_cons, forEachSafeFrom, if_neg hne, hs', Option.bind_eq_bind, Option.bind_some, hn']
    exact hs''

/-- **The loop comes to all elements that there were**, whatever becomes of each when its turn is over. -/
theorem listForEachSafe_spec {P : List Ptr → Heap × τ → Prop}
    (hbody : ∀ p rest s, P (p :: rest) s → ∃ s', body p s = some s' ∧ P rest s')
    (hlist : ∀ rest s, P rest s → ∃ A l, Rep s.1 A ∧ (x, l ++ rest) ∈ A.lists) (hP : P l s)
    (hrep : Rep s.1 A) (hr : (x, l) ∈ A.lists) (hfuel : l.length < fuel) :
    ∃ s', listForEachSafe body fuel x s = some s' ∧ P [] s' := by
  have hpos : s.1.next x = some (l.headD x) := by
    rw [hrep.next_links hr List.mem_cons_self, (hrep.ring_one (List.perm_cons_erase hr)).next_eq]
  have hcell : l.headD x ∈ x :: l := by
    cases l with
    | nil => exact List.mem_cons_self
    | cons q l => exact List.mem_cons_of_mem x List.mem_cons_self
  have hn := hrep.next_links hr hcell
  rw [listForEachSafe, hpos, Option.bind_eq_bind, Option.bind_some, hn]
  exact forEachSafeFrom_spec hbody hlist hP hn hfuel

/-- `list_del(p); free(p)`, with what has been freed. -/
def delFree (p : Ptr) (s : Heap × List Ptr) : Option (Heap × List Ptr) := do
  let h ← listDel p s.1
  let h ← (Op.free p).run h
  return (h, s.2 ++ [p])

/-- The list at a head is another one. -/
def Table.setElements (x : Ptr) (l : List Ptr) (A : Table) : Table :=
  { A with lists := A.lists.map fun r => if r.1 = x then (x, l) else r }

/-- What has been freed is not there any more. -/
theorem delFree_gone {p : Ptr} {s s' : Heap × List Ptr} (h : delFree p s = some s') : s'.1.next p = none := by
  simp only [delFree, Op.run, Option.bind_eq_bind, Option.bind_eq_some_iff, Option.map_eq_some_iff] at h
  obtain ⟨h₁, -, h₂, ⟨c, -, rfl⟩, hs'⟩ := h
  obtain rfl := Option.some.inj hs'
  exact congrArg (Option.map ListHead.next) (Function.update_self p none h₁)

/-- A list is the only one at its head. -/
theorem Rep.eq_of_head (hrep : Rep h A) (hr : (x, l) ∈ A.lists) {r : Ptr × List Ptr} (hr' : r ∈ A.lists)
    (hhead : r.1 = x) : r = (x, l) := by
  by_contra hne
  exact (hrep.apart (List.perm_cons_erase hr)).head_ne r ((List.mem_erase_of_ne hne).mpr hr') hhead

theorem Rep.setElements_self (hrep : Rep h A) (hr : (x, l) ∈ A.lists) : A.setElements x l = A := by
  have hmap : A.lists.map (fun r => if r.1 = x then (x, l) else r) = A.lists := by
    refine (List.map_congr_left fun r hr' => ?_).trans A.lists.map_id
    split_ifs with hhead
    · exact (hrep.eq_of_head hr hr' hhead).symm
    · rfl
  rw [Table.setElements, hmap]

theorem mem_setElements (hx : x ∈ A.heads) : (x, l) ∈ (A.setElements x l).lists := by
  obtain ⟨r, hr, rfl⟩ := List.mem_map.mp hx
  exact List.mem_map.mpr ⟨r, hr, if_pos rfl⟩

theorem Rep.delFree {p : Ptr} {rest : List Ptr} (hrep : Rep h (A.setElements x (p :: rest))) (hx : x ∈ A.heads)
    (done : List Ptr) : ∃ h', delFree p (h, done) = some (h', done ++ [p]) ∧ Rep h' (A.setElements x rest) := by
  have hr := mem_setElements (l := p :: rest) hx
  obtain ⟨h₁, hdel, hrep₁⟩ := hrep.listDel (List.mem_flatMap.mpr ⟨_, hr, List.mem_cons_self⟩)
  have hloose : p ∈ ((A.setElements x (p :: rest)).take p).loose := List.mem_cons_self
  obtain ⟨c, hc⟩ := Option.isSome_iff_exists.mp (hrep₁.isSome_loose hloose)
  refine ⟨Function.update h₁ p none, ?_, ?_⟩
  · simp only [Blktrace.Lists.delFree, hdel, Op.run, hc, Option.map_some, Option.bind_eq_bind, Option.bind_some]
    rfl
  · have hlists : (A.setElements x (p :: rest)).lists.map (fun r => (r.1, r.2.erase p)) =
        (A.setElements x rest).lists := by
      show (A.lists.map _).map _ = A.lists.map _
      rw [List.map_map]
      refine List.map_congr_left fun r hr' => ?_
      by_cases hhead : r.1 = x
      · simp [hhead]
      · have hne : r ≠ (x, p :: rest) := fun h => hhead (congrArg Prod.fst h)
        have hmem : r ∈ (A.setElements x (p :: rest)).lists := List.mem_map.mpr ⟨r, hr', if_neg hhead⟩
        have hp : p ∉ r.1 :: r.2 := (hrep.apart (List.perm_cons_erase hr)).others p
          (List.mem_cons_of_mem x List.mem_cons_self) r ((List.mem_erase_of_ne hne).mpr hmem)
        simp [hhead, List.erase_of_not_mem fun h => hp (List.mem_cons_of_mem _ h)]
    have hfree := hrep₁.free hloose
    rw [show ((A.setElements x (p :: rest)).take p).lists = (A.setElements x rest).lists from hlists] at hfree
    rwa [show ((A.setElements x (p :: rest)).take p).loose.erase p = (A.setElements x rest).loose from
      List.erase_cons_head ..] at hfree

/-- **Lists that are done with.** The loop that reads the next place first frees all elements, one after the other,
and leaves the list empty and everything else as it was. The one that reads it last would go wrong at once, where
there is an element. -/
theorem listForEachSafe_delFree (hrep : Rep h A) (hx : x ∈ A.heads) :
    (∀ fuel > (A.elements x).length, ∃ h', listForEachSafe delFree fuel x (h, []) = some (h', A.elements x) ∧
      Rep h' (A.setElements x [])) ∧
    (A.elements x ≠ [] → ∀ fuel, listForEach delFree fuel x (h, []) = none) := by
  have hr := mem_lists_elements hx
  refine ⟨fun fuel hfuel => ?_, fun hne fuel => ?_⟩
  · have hself : Rep h (A.setElements x (A.elements x)) := by rwa [hrep.setElements_self hr]
    have hbody : ∀ p rest (s : Heap × List Ptr),
        s.2 ++ p :: rest = A.elements x ∧ Rep s.1 (A.setElements x (p :: rest)) →
        ∃ s', delFree p s = some s' ∧ s'.2 ++ rest = A.elements x ∧ Rep s'.1 (A.setElements x rest) := by
      rintro p rest ⟨h', done⟩ ⟨hdone, hrep'⟩
      obtain ⟨h'', hs'', hrep''⟩ := hrep'.delFree hx done
      exact ⟨_, hs'', by rw [← hdone, List.append_assoc, List.singleton_append], hrep''⟩
    obtain ⟨⟨h', done⟩, hs', hdone, hrep'⟩ := listForEachSafe_spec
      (P := fun rest (s : Heap × List Ptr) => s.2 ++ rest = A.elements x ∧ Rep s.1 (A.setElements x rest))
      (s := (h, [])) hbody (fun rest s hP => ⟨_, [], hP.2, mem_setElements hx⟩) ⟨List.nil_append _, hself⟩ hrep hr hfuel
    rw [List.append_nil] at hdone
    exact ⟨h', hdone ▸ hs', hrep'⟩
  · obtain ⟨a, l, hl⟩ := List.exists_cons_of_ne_nil hne
    rw [hl] at hr
    have hpos : h.next x = some a := by
      rw [hrep.next_links hr List.mem_cons_self, (hrep.ring_one (List.perm_cons_erase hr)).next_eq]
      rfl
    rw [listForEach, hpos, Option.bind_eq_bind, Option.bind_some]
    cases fuel with
    | zero => rfl
    | succ fuel =>
      have hax : a ≠ x := fun h => (List.nodup_cons.mp (hrep.apart (List.perm_cons_erase hr)).nodup).1
        (h ▸ List.mem_cons_self)
      rw [forEachFrom, if_neg hax]
      cases hdel : delFree a (h, []) with
      | none => rfl
      | some s => rw [Option.bind_eq_bind, Option.bind_some, delFree_gone hdel]; rfl

/-- The two elements are freed. -/
theorem listForEachSafe_delFree_two : ∃ h A, Rep h A ∧ A.elements 0x1000 = [0x3000, 0x2000] ∧
    (∀ fuel > (A.elements 0x1000).length, ∃ h', listForEachSafe delFree fuel 0x1000 (h, []) =
      some (h', A.elements 0x1000) ∧ Rep h' (A.setElements 0x1000 [])) ∧
    (A.elements 0x1000 ≠ [] → ∀ fuel, listForEach delFree fuel 0x1000 (h, []) = none) := by
  obtain ⟨h, -, hrep⟩ := run_spec rep_noLists (show RunFits twoElements noLists by decide)
  exact ⟨h, _, hrep, by decide, listForEachSafe_delFree hrep (by decide)⟩

end Blktrace.Lists
