import Blktrace.Lib.SearchTree
import Blktrace.Btt.TimeWindow
import Mathlib.Data.Rat.Defs

/-!
# `btt`: the times when IO was under way

`p_live.c` keeps the intervals from D to C in trees, one for each device and one for the system. An
interval that meets others takes their place, one after the other, from the root again each time.
-/

namespace Blktrace.Btt

open SearchTree

/-- `struct p_live`, and which one it is. -/
structure PLive where
  id : ℕ
  dt : UInt64
  ct : UInt64
deriving DecidableEq

/-- `inside`. -/
def PLive.inside (plp : PLive) (dt ct : UInt64) : Bool :=
  if plp.dt ≤ dt ∧ dt ≤ plp.ct then true
  else if plp.dt ≤ ct ∧ ct ≤ plp.ct then true
  else decide (dt < plp.dt ∧ plp.ct < ct)

/-- The trees, the one of the system under `none`, and `all_p_lives`. The next `malloc` gives `next`. -/
structure Lives where
  roots : Option UInt32 → RbTree PLive := fun _ => .nil
  all : List PLive := []
  next : ℕ := 0

/-- A call of `p_live_add` for a device. -/
structure LiveCall where
  device : UInt32
  dt : UInt64
  ct : UInt64
deriving DecidableEq

section

variable (bal : Balancer PLive)

/-- `__p_live_add`; `none` is more calls of itself than `fuel` allows. -/
def pLiveAddTo : ℕ → Lives → Option UInt32 → UInt64 → UInt64 → Option Lives
  | 0, _, _, _, _ => none
  | fuel + 1, s, k, dt, ct =>
    match (s.roots k).stopsAt (fun plp => plp.inside dt ct) (fun plp => ct < plp.dt) with
    | some plp =>
      pLiveAddTo fuel
        { s with
          all := s.all.erase plp
          roots := Function.update s.roots k (bal.erase plp (s.roots k)) }
        k (min plp.dt dt) (max plp.ct ct)
    | none =>
      let plp : PLive := ⟨s.next, dt, ct⟩
      some
        { roots := Function.update s.roots k
            (bal.insertColor plp ((s.roots k).attach (fun plp => ct < plp.dt) plp))
          all := s.all ++ [plp]
          next := s.next + 1 }

/-- `p_live_add`. -/
def pLiveAdd (fuel : ℕ) (s : Lives) (call : LiveCall) : Option Lives :=
  (pLiveAddTo bal fuel s (some call.device) call.dt call.ct).bind fun s =>
    pLiveAddTo bal fuel s none call.dt call.ct

/-- One call after the other, from the start. -/
def pLiveAdds (fuel : ℕ) (calls : List LiveCall) : Option Lives := calls.foldlM (pLiveAdd bal fuel) {}

end

/-! ## Sets of intervals -/

/-- The moments from `dt` to `ct`, both with them. -/
def span (dt ct : UInt64) : Set ℚ := Set.Icc (exactTime.bitTime dt) (exactTime.bitTime ct)

/-- The moments of all intervals in a tree. -/
def alive (root : RbTree PLive) : Set ℚ := {x | ∃ plp ∈ root.toList, x ∈ span plp.dt plp.ct}

/-- A search tree of closed intervals that do not meet. -/
structure Separate (root : RbTree PLive) : Prop where
  le : ∀ plp ∈ root.toList, plp.dt ≤ plp.ct
  sorted : root.toList.Pairwise fun a b => a.ct < b.dt

/-- The call is for the tree. -/
def LiveCall.Reaches (call : LiveCall) (k : Option UInt32) : Prop := k = none ∨ k = some call.device

/-- The moments of the calls for a tree. -/
def called (calls : List LiveCall) (k : Option UInt32) : Set ℚ :=
  {x | ∃ call ∈ calls, call.Reaches k ∧ x ∈ span call.dt call.ct}

/-- The list has the nodes of all trees, each once. -/
def Lists (s : Lives) : Prop := s.all.Nodup ∧ ∀ plp, plp ∈ s.all ↔ ∃ k, plp ∈ (s.roots k).toList

/-- Two intervals that meet are one. -/
theorem span_union {dt ct dt' ct' : UInt64} (h : dt' ≤ ct) (h' : dt ≤ ct') :
    span dt ct ∪ span dt' ct' = span (min dt dt') (max ct ct') := by
  unfold span
  rw [exactTime.mono.map_min, exactTime.mono.map_max]
  exact Set.Icc_union_Icc' (exactTime.mono h) (exactTime.mono h')

theorem PLive.inside_iff {plp : PLive} {dt ct : UInt64} (hplp : plp.dt ≤ plp.ct) (hle : dt ≤ ct) :
    plp.inside dt ct = true ↔ plp.dt ≤ ct ∧ dt ≤ plp.ct := by
  unfold PLive.inside
  split_ifs with h h'
  · exact iff_of_true rfl ⟨h.1.trans hle, h.2⟩
  · exact iff_of_true rfl ⟨h'.1, hle.trans h'.2⟩
  · rw [decide_eq_true_iff]
    constructor
    · intro hin
      exact ⟨hplp.trans hin.2.le, hin.1.le.trans hplp⟩
    · rintro ⟨hstart, hend⟩
      exact ⟨not_le.mp fun hdt => h ⟨hdt, hend⟩, not_le.mp fun hct => h' ⟨hstart, hct⟩⟩

theorem alive_eq {root root' : RbTree PLive} {plp : PLive}
    (h : ∀ p, p ∈ root'.toList ↔ p = plp ∨ p ∈ root.toList) :
    alive root' = alive root ∪ span plp.dt plp.ct := by
  ext x
  constructor
  · rintro ⟨p, hp, hx⟩
    rcases (h p).mp hp with rfl | hp
    · exact .inr hx
    · exact .inl ⟨p, hp, hx⟩
  · rintro (⟨p, hp, hx⟩ | hx)
    · exact ⟨p, (h p).mpr (.inr hp), hx⟩
    · exact ⟨plp, (h plp).mpr (.inl rfl), hx⟩

namespace Separate

variable {root : RbTree PLive}

theorem nodup (h : Separate root) : root.toList.Nodup :=
  h.sorted.imp_of_mem fun _ hb hab heq => absurd (heq ▸ hab) (not_lt.mpr (h.le _ hb))

/-- One taken out. -/
theorem erase (bal : Balancer PLive) (h : Separate root) (plp : PLive) : Separate (bal.erase plp root) := by
  have hlist := bal.toList_erase plp root h.nodup
  refine ⟨fun p hp => ?_, ?_⟩
  · rw [hlist] at hp
    exact h.le p (List.mem_of_mem_erase hp)
  · rw [hlist]
    exact h.sorted.sublist List.erase_sublist

/-- The walk down stops at an interval that meets the new one, if there is any. -/
theorem away_of_stopsAt {dt ct : UInt64} (h : Separate root) (hle : dt ≤ ct)
    (hnone : root.stopsAt (fun plp => plp.inside dt ct) (fun plp => ct < plp.dt) = none) :
    ∀ plp ∈ root.toList, plp.ct < dt ∨ ct < plp.dt := by
  have haway : ∀ plp ∈ root.toList, ¬ plp.inside dt ct = true → plp.ct < dt ∨ ct < plp.dt := by
    intro plp hplp hout
    rw [PLive.inside_iff (h.le plp hplp) hle, not_and_or, not_le, not_le] at hout
    exact hout.symm
  intro plp hplp
  refine haway plp hplp (RbTree.not_stop_of_stopsAt ?_ ?_ hnone plp hplp)
  · refine h.sorted.imp_of_mem ?_
    intro a b ha hb hab _ hleft hin
    -- those behind one that begins after `ct` begin after it too
    have hlate := hleft.trans_le ((h.le a ha).trans hab.le)
    exact absurd ((PLive.inside_iff (h.le b hb) hle).mp hin).1 (not_le.mpr hlate)
  · refine h.sorted.imp_of_mem ?_
    intro a b ha hb hab hout hright hin
    have hearly := (haway b hb hout).resolve_right hright
    have hbefore := (hab.trans_le (h.le b hb)).trans hearly
    exact absurd ((PLive.inside_iff (h.le a ha) hle).mp hin).2 (not_le.mpr hbefore)

/-- One away from all others, linked in. -/
theorem attach (bal : Balancer PLive) (h : Separate root) (plp : PLive) (hplp : plp.dt ≤ plp.ct)
    (haway : ∀ p ∈ root.toList, p.ct < plp.dt ∨ plp.ct < p.dt) :
    Separate (bal.insertColor plp (root.attach (fun p => plp.ct < p.dt) plp)) ∧
      (bal.insertColor plp (root.attach (fun p => plp.ct < p.dt) plp)).toList.Perm
        (plp :: root.toList) := by
  have hmono : root.toList.Pairwise fun x y => plp.ct < x.dt → plp.ct < y.dt := by
    refine h.sorted.imp_of_mem ?_
    intro x y hx _ hxy hlt
    exact hlt.trans_le ((h.le x hx).trans hxy.le)
  obtain ⟨xs, ys, hlist, hlist', hbelow, habove⟩ := RbTree.toList_attach plp hmono
  have hsorted := h.sorted
  rw [hlist] at hsorted
  obtain ⟨hxs, hys, hcross⟩ := List.pairwise_append.mp hsorted
  have hperm : (xs ++ plp :: ys).Perm (plp :: (xs ++ ys)) := List.perm_middle
  refine ⟨⟨fun p hp => ?_, ?_⟩, ?_⟩
  · rw [bal.toList_insertColor, hlist', hperm.mem_iff, ← hlist] at hp
    rcases List.mem_cons.mp hp with rfl | hp
    · exact hplp
    · exact h.le p hp
  · rw [bal.toList_insertColor, hlist', List.pairwise_append, List.pairwise_cons]
    refine ⟨hxs, ⟨habove, hys⟩, fun x hx y hy => ?_⟩
    rcases List.mem_cons.mp hy with rfl | hy
    · exact (haway x (hlist ▸ List.mem_append_left ys hx)).resolve_right (hbelow x hx)
    · exact hcross x hx y hy
  · rw [bal.toList_insertColor, hlist', hlist]
    exact hperm

end Separate

/-! ## One call -/

/-- What is kept from one call to the next. -/
structure Lives.Kept (s : Lives) : Prop where
  separate : ∀ k, Separate (s.roots k)
  fresh : ∀ k, ∀ plp ∈ (s.roots k).toList, plp.id < s.next
  once : ∀ k k', k ≠ k' → ∀ plp ∈ (s.roots k).toList, plp ∉ (s.roots k').toList
  lists : Lists s

/-- What `__p_live_add` does: the tree has the moments of the interval too, and at most one node more. -/
structure Lives.Added (s : Lives) (k : Option UInt32) (dt ct : UInt64) (s' : Lives) : Prop where
  kept : s'.Kept
  others : ∀ k' ≠ k, s'.roots k' = s.roots k'
  alive : alive (s'.roots k) = alive (s.roots k) ∪ span dt ct
  size : (s'.roots k).toList.length ≤ (s.roots k).toList.length + 1

namespace Lives

variable {s : Lives} {k : Option UInt32}

theorem kept_nil : Kept {} where
  separate _ := ⟨nofun, .nil⟩
  fresh _ := nofun
  once _ _ _ := nofun
  lists := ⟨.nil, fun _ => ⟨nofun, fun ⟨_, h⟩ => nomatch h⟩⟩

/-- A node is taken out of its tree and of the list. -/
theorem Kept.erase (bal : Balancer PLive) (h : s.Kept) {plp : PLive} (hplp : plp ∈ (s.roots k).toList) :
    Kept { s with
      all := s.all.erase plp
      roots := Function.update s.roots k (bal.erase plp (s.roots k)) } := by
  have hnodup := (h.separate k).nodup
  have hmem : ∀ k' p, p ∈ (Function.update s.roots k (bal.erase plp (s.roots k)) k').toList ↔
      p ≠ plp ∧ p ∈ (s.roots k').toList := by
    intro k' p
    by_cases hk : k' = k
    · rw [hk, Function.update_self, bal.toList_erase plp _ hnodup, hnodup.mem_erase_iff]
    · rw [Function.update_of_ne hk]
      exact ⟨fun hp => ⟨fun heq => h.once k' k hk p hp (heq ▸ hplp), hp⟩, And.right⟩
  refine ⟨fun k' => ?_, fun k' p hp => ?_, fun k' k'' hne p hp hp' => ?_, ?_, fun p => ?_⟩
  · by_cases hk : k' = k
    · show Separate (Function.update s.roots k _ k')
      rw [hk, Function.update_self]
      exact (h.separate k).erase bal plp
    · show Separate (Function.update s.roots k _ k')
      rw [Function.update_of_ne hk]
      exact h.separate k'
  · exact h.fresh k' p ((hmem k' p).mp hp).2
  · exact h.once k' k'' hne p ((hmem k' p).mp hp).2 ((hmem k'' p).mp hp').2
  · exact h.lists.1.erase plp
  · refine (h.lists.1.mem_erase_iff).trans ?_
    rw [h.lists.2 p]
    constructor
    · rintro ⟨hne, k', hp⟩
      exact ⟨k', (hmem k' p).mpr ⟨hne, hp⟩⟩
    · rintro ⟨k', hp⟩
      exact ⟨((hmem k' p).mp hp).1, k', ((hmem k' p).mp hp).2⟩

/-- A new node is in its tree, and listed. -/
theorem Kept.insert (h : s.Kept) {plp : PLive} (hid : plp.id = s.next) {root : RbTree PLive}
    (hroot : Separate root) (hperm : root.toList.Perm (plp :: (s.roots k).toList)) :
    s.Added k plp.dt plp.ct
      { roots := Function.update s.roots k root, all := s.all ++ [plp], next := s.next + 1 } := by
  have hmem : ∀ k' p, p ∈ (Function.update s.roots k root k').toList ↔
      (k' = k ∧ p = plp) ∨ p ∈ (s.roots k').toList := by
    intro k' p
    by_cases hk : k' = k
    · rw [hk, Function.update_self, hperm.mem_iff, List.mem_cons]
      exact or_congr_left (and_iff_right rfl).symm
    · rw [Function.update_of_ne hk]
      exact ⟨.inr, fun hp => hp.resolve_left fun h => hk h.1⟩
  have hnew : ∀ k', plp ∉ (s.roots k').toList :=
    fun k' hp => absurd (h.fresh k' _ hp) (hid ▸ lt_irrefl _)
  refine ⟨⟨fun k' => ?_, fun k' p hp => ?_, fun k' k'' hne p hp hp' => ?_, ?_, fun p => ?_⟩,
    fun k' hk => Function.update_of_ne hk _ _, ?_, ?_⟩
  · by_cases hk : k' = k
    · show Separate (Function.update s.roots k _ k')
      rw [hk, Function.update_self]
      exact hroot
    · show Separate (Function.update s.roots k _ k')
      rw [Function.update_of_ne hk]
      exact h.separate k'
  · rcases (hmem k' p).mp hp with ⟨-, rfl⟩ | hp
    · exact hid ▸ Nat.lt_succ_self _
    · exact (h.fresh k' p hp).trans (Nat.lt_succ_self _)
  · rcases (hmem k' p).mp hp with ⟨hk, rfl⟩ | hold
    · rcases (hmem k'' _).mp hp' with ⟨hk', -⟩ | hold'
      · exact hne (hk.trans hk'.symm)
      · exact hnew k'' hold'
    · rcases (hmem k'' p).mp hp' with ⟨-, rfl⟩ | hold'
      · exact hnew k' hold
      · exact h.once k' k'' hne p hold hold'
  · refine List.nodup_append.mpr ⟨h.lists.1, List.nodup_singleton _, ?_⟩
    rintro p hp _ hp' rfl
    obtain rfl := List.mem_singleton.mp hp'
    obtain ⟨k', hp⟩ := (h.lists.2 _).mp hp
    exact hnew k' hp
  · rw [List.mem_append, h.lists.2 p, List.mem_singleton]
    constructor
    · rintro (⟨k', hp⟩ | rfl)
      · exact ⟨k', (hmem k' p).mpr (.inr hp)⟩
      · exact ⟨k, (hmem k _).mpr (.inl ⟨rfl, rfl⟩)⟩
    · rintro ⟨k', hp⟩
      rcases (hmem k' p).mp hp with ⟨-, rfl⟩ | hp
      · exact .inr rfl
      · exact .inl ⟨k', hp⟩
  · show Btt.alive (Function.update s.roots k root k) = _
    rw [Function.update_self]
    exact alive_eq fun p => (hperm.mem_iff).trans List.mem_cons
  · show (Function.update s.roots k root k).toList.length ≤ _
    rw [Function.update_self, hperm.length_eq, List.length_cons]

/-- **`__p_live_add`** ends, as each round but the last takes a node out of the tree. -/
theorem Kept.addTo (bal : Balancer PLive) {fuel : ℕ} (h : s.Kept) {dt ct : UInt64} (hle : dt ≤ ct)
    (hfuel : (s.roots k).toList.length < fuel) :
    ∃ s', pLiveAddTo bal fuel s k dt ct = some s' ∧ s.Added k dt ct s' := by
  induction fuel generalizing s dt ct with
  | zero => exact absurd hfuel (Nat.not_lt_zero _)
  | succ fuel ih =>
    unfold pLiveAddTo
    cases hstop : (s.roots k).stopsAt (fun plp => plp.inside dt ct) (fun plp => ct < plp.dt) with
    | none =>
      have haway := (h.separate k).away_of_stopsAt hle hstop
      obtain ⟨hseparate, hperm⟩ := (h.separate k).attach bal ⟨s.next, dt, ct⟩ hle haway
      exact ⟨_, rfl, h.insert rfl hseparate hperm⟩
    | some plp =>
      obtain ⟨hplp, hin⟩ := RbTree.mem_of_stopsAt hstop
      have hple := (h.separate k).le plp hplp
      obtain ⟨hstart, hend⟩ := (PLive.inside_iff hple hle).mp hin
      have herase := h.erase bal hplp
      have hroot : Function.update s.roots k (bal.erase plp (s.roots k)) k = bal.erase plp (s.roots k) :=
        Function.update_self _ _ _
      have hlist := bal.toList_erase plp (s.roots k) (h.separate k).nodup
      have hlength := List.length_erase_add_one hplp
      have hbound : min plp.dt dt ≤ max plp.ct ct := (min_le_left _ _).trans (hple.trans (le_max_left _ _))
      obtain ⟨s', hs', hadded⟩ := ih herase hbound (by
        show (Function.update s.roots k _ k).toList.length < fuel
        rw [hroot, hlist]
        omega)
      refine ⟨s', hs', hadded.kept, fun k' hk => ?_, ?_, ?_⟩
      · exact (hadded.others k' hk).trans (Function.update_of_ne hk _ _)
      · have hback : Btt.alive (s.roots k) = Btt.alive (bal.erase plp (s.roots k)) ∪ span plp.dt plp.ct := by
          refine alive_eq fun p => ?_
          rw [hlist, (h.separate k).nodup.mem_erase_iff]
          by_cases hp : p = plp
          · exact iff_of_true (hp ▸ hplp) (.inl hp)
          · simp [hp]
        rw [hadded.alive, hback, Set.union_assoc, span_union hend hstart]
        show Btt.alive (Function.update s.roots k _ k) ∪ _ = _
        rw [hroot]
      · have hsize : (s'.roots k).toList.length ≤
            (Function.update s.roots k (bal.erase plp (s.roots k)) k).toList.length + 1 := hadded.size
        rw [hroot, hlist] at hsize
        omega

/-! ## One call after the other -/

/-- `p_live_add`: first the tree of the device, then that of the system. -/
theorem Kept.add (bal : Balancer PLive) {fuel : ℕ} (h : s.Kept) {call : LiveCall} (hle : call.dt ≤ call.ct)
    (hfuel : ∀ k, (s.roots k).toList.length < fuel) :
    ∃ s', pLiveAdd bal fuel s call = some s' ∧ s'.Kept ∧
      (∀ k, Btt.alive (s'.roots k) =
        Btt.alive (s.roots k) ∪ {x | call.Reaches k ∧ x ∈ span call.dt call.ct}) ∧
      ∀ k, (s'.roots k).toList.length ≤ (s.roots k).toList.length + 1 := by
  obtain ⟨s₁, hrun, hdevice⟩ := h.addTo bal hle (hfuel (some call.device))
  have hsame : s₁.roots none = s.roots none := hdevice.others none nofun
  obtain ⟨s₂, hrun', hsystem⟩ := hdevice.kept.addTo bal hle (hsame ▸ hfuel none)
  refine ⟨s₂, ?_, hsystem.kept, fun k => ?_, fun k => ?_⟩
  · rw [pLiveAdd, hrun]
    exact hrun'
  · by_cases hnone : k = none
    · rw [hnone, hsystem.alive, hsame]
      congr 1
      ext x
      exact ⟨fun hx => ⟨.inl rfl, hx⟩, And.right⟩
    · rw [hsystem.others k hnone]
      by_cases hk : k = some call.device
      · rw [hk, hdevice.alive]
        congr 1
        ext x
        exact ⟨fun hx => ⟨.inr rfl, hx⟩, And.right⟩
      · rw [hdevice.others k hk]
        refine (Set.union_eq_self_of_subset_right ?_).symm
        rintro x ⟨hreach, -⟩
        exact absurd hreach (not_or.mpr ⟨hnone, hk⟩)
  · by_cases hnone : k = none
    · rw [hnone, ← hsame]
      exact hsystem.size
    · rw [hsystem.others k hnone]
      by_cases hk : k = some call.device
      · rw [hk]
        exact hdevice.size
      · rw [hdevice.others k hk]
        exact Nat.le_succ _

/-- What holds after the calls `calls`. -/
theorem kept_adds (bal : Balancer PLive) {fuel : ℕ} {calls : List LiveCall}
    (hle : ∀ call ∈ calls, call.dt ≤ call.ct) (hfuel : calls.length ≤ fuel) :
    ∃ s, pLiveAdds bal fuel calls = some s ∧ s.Kept ∧
      (∀ k, Btt.alive (s.roots k) = called calls k) ∧ ∀ k, (s.roots k).toList.length ≤ calls.length := by
  induction calls using List.reverseRecOn with
  | nil =>
    refine ⟨{}, rfl, kept_nil, fun k => ?_, fun k => Nat.le_refl _⟩
    ext x
    constructor
    · rintro ⟨_, h, _⟩
      nomatch h
    · rintro ⟨_, h, _⟩
      nomatch h
  | append_singleton calls call ih =>
    rw [List.length_append, List.length_singleton] at hfuel
    obtain ⟨s, hrun, hkept, halive, hsize⟩ :=
      ih (fun c hc => hle c (List.mem_append_left _ hc)) (Nat.le_of_succ_le hfuel)
    have hlast := hle call (List.mem_append_right _ List.mem_cons_self)
    obtain ⟨s', hrun', hkept', halive', hsize'⟩ :=
      hkept.add bal hlast fun k => (hsize k).trans_lt hfuel
    refine ⟨s', ?_, hkept', fun k => ?_, fun k => ?_⟩
    · have hstart : calls.foldlM (pLiveAdd bal fuel) {} = some s := hrun
      rw [pLiveAdds, List.foldlM_append, hstart]
      simp [hrun']
    · rw [halive', halive]
      ext x
      constructor
      · rintro (⟨c, hc, hx⟩ | hx)
        · exact ⟨c, List.mem_append_left _ hc, hx⟩
        · exact ⟨call, List.mem_append_right _ List.mem_cons_self, hx⟩
      · rintro ⟨c, hc, hx⟩
        rcases List.mem_append.mp hc with hc | hc
        · exact .inl ⟨c, hc, hx⟩
        · obtain rfl := List.mem_singleton.mp hc
          exact .inr hx
    · rw [List.length_append]
      exact (hsize' k).trans (Nat.succ_le_succ (hsize k))

end Lives

/-- **The live intervals**: every call comes to an end, each tree is one of intervals that do not meet and
has the moments of the calls for it, and the list has the nodes of all trees. -/
theorem lives_of_calls (bal : Balancer PLive) (calls : List LiveCall)
    (hle : ∀ call ∈ calls, call.dt ≤ call.ct) (fuel : ℕ) (hfuel : calls.length ≤ fuel) :
    ∃ s, pLiveAdds bal fuel calls = some s ∧
      (∀ k, Separate (s.roots k) ∧ alive (s.roots k) = called calls k) ∧ Lists s := by
  obtain ⟨s, hrun, hkept, halive, -⟩ := Lives.kept_adds bal hle hfuel
  exact ⟨s, hrun, fun k => ⟨hkept.separate k, halive k⟩, hkept.lists⟩

theorem lives_of_calls_two : ∃ s, pLiveAdds (.plain PLive) 2 [⟨1, 0, 5⟩, ⟨1, 3, 9⟩] = some s ∧
    (∀ k, Separate (s.roots k) ∧ alive (s.roots k) = called [⟨1, 0, 5⟩, ⟨1, 3, 9⟩] k) ∧ Lists s :=
  lives_of_calls _ _ (by decide) 2 (Nat.le_refl _)

/-- After one call no tree has all nodes of the list. -/
theorem not_lists_tree : ¬ ∀ (fuel : ℕ) (calls : List LiveCall) (s : Lives),
    (∀ call ∈ calls, call.dt ≤ call.ct) → pLiveAdds (.plain PLive) fuel calls = some s →
      ∃ k, ∀ plp, plp ∈ s.all ↔ plp ∈ (s.roots k).toList := by
  intro h
  obtain ⟨k, hk⟩ := h 1 [⟨1, 0, 5⟩] _ (by decide) rfl
  have hfirst := (hk ⟨0, 0, 5⟩).mp (by decide)
  have hsecond := (hk ⟨1, 0, 5⟩).mp (by decide)
  cases k with
  | none => exact absurd hfirst (by decide)
  | some d =>
    by_cases hd : d = 1
    · rw [hd] at hsecond
      exact absurd hsecond (by decide)
    · simp [hd] at hsecond

end Blktrace.Btt
