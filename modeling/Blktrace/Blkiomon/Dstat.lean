import Blktrace.Blkiomon.Stats

/-!
# The statistics of the current interval

`blkiomon.c` keeps the statistics of each device in a record of its own, which a search tree and a
list of the current interval hold. Records of a finished interval are used again.
-/

namespace Blktrace.Blkiomon

/-- The records, by the order in which they were allocated, and the statics that hold them: of a tree,
the records in it. -/
structure Dstats where
  mem : ℕ → BlkiomonStat := fun _ => blkiomonStatInit
  brk : ℕ := 0
  vacant : List ℕ := []
  tree : Bool → List ℕ := fun _ => []
  list : Bool → List ℕ := fun _ => []
  curr : Bool := false

/-- `blkiomon_alloc_dstat`; `malloc` is whether there is memory. -/
def blkiomonAllocDstat (malloc : Bool) (s : Dstats) : Option (ℕ × Dstats) :=
  match s.vacant with
  | i :: vacant => some (i, { s with vacant, mem := Function.update s.mem i blkiomonStatInit })
  | [] =>
    if malloc then
      some (s.brk,
        { s with brk := s.brk + 1, mem := Function.update s.mem s.brk blkiomonStatInit })
    else none

/-- `blkiomon_find_dstat`. -/
def blkiomonFindDstat (s : Dstats) (device : UInt32) : Option ℕ :=
  (s.tree s.curr).find? fun i => (s.mem i).device == device

/-- `blkiomon_get_dstat`, all under the mutex. -/
def blkiomonGetDstat (malloc : Bool) (s : Dstats) (device : UInt32) : Option (ℕ × Dstats) :=
  match blkiomonFindDstat s device with
  | some i => some (i, s)
  | none =>
    (blkiomonAllocDstat malloc s).map fun (i, s) =>
      (i, { s with
        mem := Function.update s.mem i { s.mem i with device }
        tree := Function.update s.tree s.curr (i :: s.tree s.curr)
        list := Function.update s.list s.curr (i :: s.list s.curr) })

/-- `blkiomon_account`: `none` where the division traps. Without a record the pair is passed over. -/
def blkiomonAccount (malloc : Bool) (s : Dstats) (d c : BlkIoTrace) : Option Dstats :=
  if d2cOf d c = 0 then none
  else
    match blkiomonGetDstat malloc s d.device with
    | none => some s
    | some (i, s) => some { s with mem := Function.update s.mem i (accountStat d c (s.mem i)) }

/-! ## The records in use -/

/-- The records in use and the vacant ones are all different, and allocated. -/
structure Dstats.Pooled (s : Dstats) (used : List ℕ) : Prop where
  nodup : (used ++ s.vacant).Nodup
  below : ∀ i ∈ used ++ s.vacant, i < s.brk

/-- Record `i` is taken into use for a device that had none. -/
structure Taken (s s' : Dstats) (i : ℕ) (device : UInt32) : Prop where
  absent : ∀ j ∈ s.tree s.curr, (s.mem j).device ≠ device
  mem : s'.mem = Function.update s.mem i { blkiomonStatInit with device }
  tree : s'.tree = Function.update s.tree s.curr (i :: s.tree s.curr)
  list : s'.list = Function.update s.list s.curr (i :: s.list s.curr)
  curr : s'.curr = s.curr
  pool : s.vacant = i :: s'.vacant ∧ s'.brk = s.brk ∨
    s.vacant = [] ∧ s'.vacant = [] ∧ i = s.brk ∧ s'.brk = s.brk + 1

/-- **What `blkiomon_get_dstat` does**: it finds the record of the device or takes one into use. -/
theorem blkiomonGetDstat_cases {malloc : Bool} {s s' : Dstats} {device : UInt32} {i : ℕ}
    (h : blkiomonGetDstat malloc s device = some (i, s')) :
    i ∈ s.tree s.curr ∧ (s.mem i).device = device ∧ s' = s ∨ Taken s s' i device := by
  unfold blkiomonGetDstat at h
  cases hfind : blkiomonFindDstat s device with
  | some j =>
    rw [hfind] at h
    obtain ⟨rfl, rfl⟩ := Prod.mk.inj (Option.some.inj h)
    have hdev := List.find?_some hfind
    exact .inl ⟨List.mem_of_find?_eq_some hfind, by simpa using hdev, rfl⟩
  | none =>
    rw [hfind] at h
    have habsent : ∀ j ∈ s.tree s.curr, (s.mem j).device ≠ device := by
      intro j hj
      have hne := List.find?_eq_none.mp hfind j hj
      simpa using hne
    obtain ⟨⟨j, t⟩, halloc, heq⟩ := Option.map_eq_some_iff.mp h
    obtain ⟨rfl, rfl⟩ := Prod.mk.inj heq
    unfold blkiomonAllocDstat at halloc
    right
    split at halloc
    next j' vacant hvacant =>
      obtain ⟨rfl, rfl⟩ := Prod.mk.inj (Option.some.inj halloc)
      exact ⟨habsent, by simp, rfl, rfl, rfl, .inl ⟨hvacant, rfl⟩⟩
    next hvacant =>
      split_ifs at halloc
      obtain ⟨rfl, rfl⟩ := Prod.mk.inj (Option.some.inj halloc)
      exact ⟨habsent, by simp, rfl, rfl, rfl, .inr ⟨hvacant, hvacant, rfl, rfl⟩⟩

/-- With memory there is always a record. -/
theorem blkiomonGetDstat_isSome (s : Dstats) (device : UInt32) :
    (blkiomonGetDstat true s device).isSome := by
  unfold blkiomonGetDstat blkiomonAllocDstat
  cases blkiomonFindDstat s device with
  | some j => rfl
  | none => cases s.vacant <;> rfl

theorem Taken.pooled {s s' : Dstats} {i : ℕ} {device : UInt32} (h : Taken s s' i device)
    {used : List ℕ} (hp : s.Pooled used) : s'.Pooled (i :: used) := by
  rcases h.pool with ⟨hvacant, hbrk⟩ | ⟨hvacant, hvacant', hi, hbrk⟩
  · have hperm : (i :: used ++ s'.vacant).Perm (used ++ s.vacant) := by
      rw [hvacant]
      exact List.perm_middle.symm
    refine ⟨hperm.nodup_iff.mpr hp.nodup, fun j hj => ?_⟩
    rw [hbrk]
    exact hp.below j (hperm.mem_iff.mp hj)
  · have hsame : i :: used ++ s'.vacant = i :: (used ++ s.vacant) := by rw [hvacant, hvacant']; rfl
    refine ⟨?_, fun j hj => ?_⟩
    · rw [hsame, List.nodup_cons]
      exact ⟨fun hmem => absurd (hp.below i hmem) (by omega), hp.nodup⟩
    · rw [hsame, List.mem_cons] at hj
      rcases hj with rfl | hj
      · omega
      · exact lt_trans (hp.below j hj) (by omega)

/-! ## What a device is charged -/

/-- A dispatch and its completion, a microsecond later or more. -/
structure Pair where
  d : BlkIoTrace
  c : BlkIoTrace
  after : d.time.toNat + 1000 ≤ c.time.toNat

namespace Pair

variable (p : Pair)

def size : ℕ := p.d.bytes.toNat

def d2c : ℕ := (p.c.time.toNat - p.d.time.toNat) / 1000

/-- In bytes per millisecond. -/
def thrput : ℕ := p.size * 1000 / p.d2c

theorem d2c_pos : 0 < p.d2c := Nat.div_pos (by have := p.after; omega) (by norm_num)

theorem toNat_d2cOf : (d2cOf p.d p.c).toNat = p.d2c := by
  have hafter := p.after
  rw [d2cOf, UInt64.toNat_div, Word.toNat_sub_of_le (UInt64.le_iff_toNat_le.mpr (by omega))]
  rfl

theorem d2cOf_ne_zero : d2cOf p.d p.c ≠ 0 := by
  intro h
  have hpos := p.d2c_pos
  rw [← toNat_d2cOf, h] at hpos
  exact absurd hpos (lt_irrefl 0)

end Pair

/-- The statistics of a device after these pairs. -/
def statOf (device : UInt32) (pairs : List Pair) : BlkiomonStat :=
  pairs.foldl (fun p pair => accountStat pair.d pair.c p) { blkiomonStatInit with device }

/-- What an update leaves alone. -/
structure Untouched (p p' : BlkiomonStat) : Prop where
  device : p'.device = p.device
  time : p'.time = p.time

theorem accountUpdates_untouched {d c : BlkIoTrace} {f : BlkiomonStat → BlkiomonStat}
    (hf : f ∈ accountUpdates d c) (p : BlkiomonStat) : Untouched p (f p) := by
  unfold accountUpdates at hf
  split_ifs at hf <;>
    simp only [List.cons_append, List.nil_append, List.mem_cons, List.not_mem_nil, or_false] at hf
  · rcases hf with rfl | rfl | rfl | rfl | rfl <;> exact ⟨rfl, rfl⟩
  · rcases hf with rfl | rfl | rfl | rfl | rfl <;> exact ⟨rfl, rfl⟩
  · rcases hf with rfl | rfl | rfl <;> exact ⟨rfl, rfl⟩

theorem foldl_untouched {fs : List (BlkiomonStat → BlkiomonStat)}
    (h : ∀ f ∈ fs, ∀ p, Untouched p (f p)) (p : BlkiomonStat) :
    Untouched p (fs.foldl (fun p f => f p) p) := by
  induction fs generalizing p with
  | nil => exact ⟨rfl, rfl⟩
  | cons f fs ih =>
    have hf := h f List.mem_cons_self p
    have hfs := ih (fun g hg => h g (List.mem_cons_of_mem f hg)) (f p)
    exact ⟨hfs.device.trans hf.device, hfs.time.trans hf.time⟩

theorem accountStat_untouched (d c : BlkIoTrace) (p : BlkiomonStat) :
    Untouched p (accountStat d c p) :=
  foldl_untouched (fun _ hf => accountUpdates_untouched hf) p

theorem statOf_concat (device : UInt32) (pairs : List Pair) (p : Pair) :
    statOf device (pairs ++ [p]) = accountStat p.d p.c (statOf device pairs) := by
  rw [statOf, List.foldl_append]
  rfl

@[simp] theorem statOf_device (device : UInt32) (pairs : List Pair) :
    (statOf device pairs).device = device := by
  induction pairs using List.reverseRecOn with
  | nil => rfl
  | append_singleton pairs p ih =>
    rw [statOf_concat, (accountStat_untouched p.d p.c _).device, ih]

/-! ## An interval -/

/-- The records at the beginning of an interval: none of them in the tree. -/
structure Opening where
  s : Dstats
  empty : s.tree s.curr = []
  pooled : s.Pooled []

/-- The pairs of an interval, one after another. -/
def accountAll (s : Dstats) (pairs : List Pair) : Option Dstats :=
  pairs.foldlM (fun s p => blkiomonAccount true s p.d p.c) s

/-- The pairs of a device. -/
def pairsOf (device : UInt32) (pairs : List Pair) : List Pair :=
  pairs.filter fun p => p.d.device == device

theorem pairsOf_concat (device : UInt32) (pairs : List Pair) (p : Pair) :
    pairsOf device (pairs ++ [p]) =
      if p.d.device = device then pairsOf device pairs ++ [p] else pairsOf device pairs := by
  rw [pairsOf, List.filter_append]
  split_ifs with hdev <;> simp [pairsOf, hdev]

/-- Each device of these pairs has one record in the tree, which holds its statistics. -/
structure Booked (s : Dstats) (pairs : List Pair) : Prop where
  pooled : s.Pooled (s.tree s.curr)
  unique : ∀ i ∈ s.tree s.curr, ∀ j ∈ s.tree s.curr, (s.mem i).device = (s.mem j).device → i = j
  holds : ∀ i ∈ s.tree s.curr, s.mem i = statOf (s.mem i).device (pairsOf (s.mem i).device pairs)
  record : ∀ p ∈ pairs, ∃ i ∈ s.tree s.curr, (s.mem i).device = p.d.device
  pair : ∀ i ∈ s.tree s.curr, ∃ p ∈ pairs, p.d.device = (s.mem i).device

theorem Opening.booked (o : Opening) : Booked o.s [] := by
  constructor <;> rw [o.empty]
  · exact o.pooled
  · simp
  · simp
  · simp
  · simp

theorem Booked.book {s s' : Dstats} {pairs : List Pair} (h : Booked s pairs) (p : Pair) {i : ℕ}
    (hpool : s'.Pooled (s'.tree s'.curr))
    (htree : ∀ j, j ∈ s'.tree s'.curr ↔ j = i ∨ j ∈ s.tree s.curr)
    (hmem : s'.mem = Function.update s.mem i
      (statOf p.d.device (pairsOf p.d.device (pairs ++ [p]))))
    (hown : ∀ j ∈ s.tree s.curr, j = i ↔ (s.mem j).device = p.d.device) :
    Booked s' (pairs ++ [p]) := by
  have hi : s'.mem i = statOf p.d.device (pairsOf p.d.device (pairs ++ [p])) := by
    rw [hmem, Function.update_self]
  have hidev : (s'.mem i).device = p.d.device := by rw [hi, statOf_device]
  have hj : ∀ j, j ≠ i → s'.mem j = s.mem j := fun j hne => by
    rw [hmem, Function.update_of_ne hne]
  -- a record other than `i` was there before, for another device
  have hold : ∀ j ∈ s'.tree s'.curr, j ≠ i → j ∈ s.tree s.curr ∧ (s'.mem j).device ≠ p.d.device := by
    intro j hmemj hne
    have hjs := ((htree j).mp hmemj).resolve_left hne
    rw [hj j hne]
    exact ⟨hjs, fun hdev => hne ((hown j hjs).mpr hdev)⟩
  constructor
  · exact hpool
  · intro j hjt k hkt hdev
    by_cases hji : j = i
    · by_contra hne
      rw [hji, hidev] at hdev
      exact (hold k hkt (fun hk => hne (hji.trans hk.symm))).2 hdev.symm
    · by_cases hki : k = i
      · rw [hki, hidev] at hdev
        exact absurd hdev (hold j hjt hji).2
      · rw [hj j hji, hj k hki] at hdev
        exact h.unique j (hold j hjt hji).1 k (hold k hkt hki).1 hdev
  · intro j hjt
    by_cases hji : j = i
    · rw [hji, hidev]
      exact hi
    · obtain ⟨hjs, hne⟩ := hold j hjt hji
      rw [hj j hji] at hne ⊢
      rw [pairsOf_concat, if_neg (Ne.symm hne)]
      exact h.holds j hjs
  · intro q hq
    rcases List.mem_append.mp hq with hq | hq
    · obtain ⟨j, hjs, hdev⟩ := h.record q hq
      by_cases hji : j = i
      · have hqp := (hown j hjs).mp hji
        exact ⟨i, (htree i).mpr (.inl rfl), by rw [hidev, ← hqp, hdev]⟩
      · exact ⟨j, (htree j).mpr (.inr hjs), by rw [hj j hji, hdev]⟩
    · rw [List.mem_singleton.mp hq]
      exact ⟨i, (htree i).mpr (.inl rfl), hidev⟩
  · intro j hjt
    by_cases hji : j = i
    · exact ⟨p, List.mem_append_right _ List.mem_cons_self, by rw [hji, hidev]⟩
    · obtain ⟨q, hq, hdev⟩ := h.pair j (hold j hjt hji).1
      exact ⟨q, List.mem_append_left _ hq, by rw [hj j hji, hdev]⟩

theorem Booked.pairsOf_eq_nil {s : Dstats} {pairs : List Pair} (h : Booked s pairs)
    {device : UInt32} (habsent : ∀ j ∈ s.tree s.curr, (s.mem j).device ≠ device) :
    pairsOf device pairs = [] := by
  apply List.filter_eq_nil_iff.mpr
  intro q hq hdev
  obtain ⟨j, hj, hjdev⟩ := h.record q hq
  exact habsent j hj (hjdev.trans (by simpa using hdev))

/-- **A pair is booked** on the record of its device. -/
theorem Booked.account {s : Dstats} {pairs : List Pair} (h : Booked s pairs) (p : Pair) :
    ∃ s', blkiomonAccount true s p.d p.c = some s' ∧ Booked s' (pairs ++ [p]) := by
  obtain ⟨⟨i, t⟩, hget⟩ := Option.isSome_iff_exists.mp (blkiomonGetDstat_isSome s p.d.device)
  have haccount : blkiomonAccount true s p.d p.c =
      some { t with mem := Function.update t.mem i (accountStat p.d p.c (t.mem i)) } := by
    rw [blkiomonAccount, if_neg p.d2cOf_ne_zero, hget]
  refine ⟨_, haccount, ?_⟩
  rcases blkiomonGetDstat_cases hget with ⟨hi, hdev, rfl⟩ | htaken
  · apply h.book p (i := i)
    · exact ⟨h.pooled.nodup, h.pooled.below⟩
    · intro j
      exact ⟨.inr, fun hj => hj.elim (fun hji => hji ▸ hi) id⟩
    · have hstat := h.holds i hi
      rw [hdev] at hstat
      rw [pairsOf_concat, if_pos rfl, statOf_concat, ← hstat]
    · intro j hj
      exact ⟨fun hji => hji ▸ hdev, fun hjdev => h.unique j hj i hi (hjdev.trans hdev.symm)⟩
  · have hfresh := (List.nodup_cons.mp (htaken.pooled h.pooled).nodup).1
    have htree : t.tree t.curr = i :: s.tree s.curr := by
      rw [htaken.tree, htaken.curr, Function.update_self]
    apply h.book p (i := i)
    · have hpool := htaken.pooled h.pooled
      rw [← htree] at hpool
      exact ⟨hpool.nodup, hpool.below⟩
    · intro j
      show j ∈ t.tree t.curr ↔ _
      rw [htree, List.mem_cons]
    · rw [pairsOf_concat, if_pos rfl, statOf_concat, h.pairsOf_eq_nil htaken.absent, htaken.mem,
        Function.update_self, Function.update_idem]
      rfl
    · intro j hj
      exact ⟨fun hji => absurd (List.mem_append_left _ (hji ▸ hj)) hfresh,
        fun hjdev => absurd hjdev (htaken.absent j hj)⟩

/-- **An interval**: afterwards each device has the statistics of its pairs. -/
theorem accountAll_booked (o : Opening) (pairs : List Pair) :
    ∃ s, accountAll o.s pairs = some s ∧ Booked s pairs := by
  induction pairs using List.reverseRecOn with
  | nil => exact ⟨o.s, rfl, o.booked⟩
  | append_singleton pairs p ih =>
    obtain ⟨s, hs, hbooked⟩ := ih
    obtain ⟨s', hs', hbooked'⟩ := hbooked.account p
    refine ⟨s', ?_, hbooked'⟩
    rw [accountAll] at hs ⊢
    rw [List.foldlM_append, hs]
    simpa using hs'

end Blktrace.Blkiomon
