import Blktrace.Blkiomon.Dstat

/-!
# The statistics a device ends up with

The reference: number, minimum, maximum, sum and sum of squares of what each pair comes to, and how
many pairs fall between two limits of a histogram. The statistics are these just if no throughput
loses bits, no latency falls back into a lower bucket and no sum or count outgrows its word.
-/

namespace Blktrace.Blkiomon

/-! ## Minimum, maximum, sums -/

/-- The reference for a `struct minmax`; the minimum of nothing is the greatest word. -/
structure Minmax.Summary (mm : Minmax) (vs : List ℕ) : Prop where
  num : mm.num.toNat = vs.length
  min : mm.min.toNat = vs.foldl Min.min (2 ^ 64 - 1)
  max : mm.max.toNat = vs.foldl Max.max 0
  sum : mm.sum.toNat = vs.sum
  sos : mm.sos.toNat = (vs.map (· ^ 2)).sum

theorem minmaxAccount_min (mm : Minmax) (v : UInt64) :
    (minmaxAccount mm v).min.toNat = Min.min mm.min.toNat v.toNat := by
  simp only [minmaxAccount]
  split_ifs with h <;> rw [UInt64.lt_iff_toNat_lt] at h <;> omega

theorem minmaxAccount_max (mm : Minmax) (v : UInt64) :
    (minmaxAccount mm v).max.toNat = Max.max mm.max.toNat v.toNat := by
  simp only [minmaxAccount, gt_iff_lt]
  split_ifs with h <;> rw [UInt64.lt_iff_toNat_lt] at h <;> omega

/-- What a `struct minmax` holds, up to the width of its words. -/
structure Minmax.Wrapped (mm : Minmax) (vs : List ℕ) : Prop where
  num : mm.num.toNat = vs.length % 2 ^ 64
  min : mm.min.toNat = vs.foldl Min.min (2 ^ 64 - 1)
  max : mm.max.toNat = vs.foldl Max.max 0
  sum : mm.sum.toNat = vs.sum % 2 ^ 64
  sos : mm.sos.toNat = (vs.map (· ^ 2)).sum % 2 ^ 64

theorem foldl_minmaxAccount (us : List UInt64) :
    (us.foldl minmaxAccount minmaxInit).Wrapped (us.map UInt64.toNat) := by
  induction us using List.reverseRecOn with
  | nil => constructor <;> decide
  | append_singleton us u ih =>
    rw [List.foldl_append, List.foldl_cons, List.foldl_nil, List.map_append, List.map_singleton]
    constructor
    · have hnum := ih.num
      simp only [minmaxAccount, UInt64.toNat_add, hnum, List.length_append, List.length_singleton]
      simp
    · rw [minmaxAccount_min, ih.min, List.foldl_append]
      rfl
    · rw [minmaxAccount_max, ih.max, List.foldl_append]
      rfl
    · have hsum := ih.sum
      simp only [minmaxAccount, UInt64.toNat_add, hsum, List.sum_append, List.sum_singleton]
      simp
    · have hsos := ih.sos
      simp only [minmaxAccount, UInt64.toNat_add, UInt64.toNat_mul, hsos, List.map_append,
        List.sum_append, List.map_singleton, List.sum_singleton]
      rw [pow_two, Nat.add_mod, Nat.mod_mod, Nat.mod_mod, ← Nat.add_mod]

/-- The statistics of charges that are never too high. -/
theorem summary_iff {α : Type*} {charge : α → UInt64} {value : α → ℕ} {l : List α}
    (h : ∀ a ∈ l, (charge a).toNat ≤ value a) :
    ((l.map charge).foldl minmaxAccount minmaxInit).Summary (l.map value) ↔
      (∀ a ∈ l, (charge a).toNat = value a) ∧ l.length < 2 ^ 64 ∧ (l.map value).sum < 2 ^ 64 ∧
        (l.map (value · ^ 2)).sum < 2 ^ 64 := by
  have hw := foldl_minmaxAccount (l.map charge)
  have hsum := hw.sum
  rw [List.map_map] at hsum
  constructor
  · intro hs
    have hexact := hs.sum
    rw [hsum] at hexact
    obtain ⟨heq, hlt⟩ := (Tallies.sum_mod_eq_iff h (by norm_num)).mp hexact
    have hnum := hs.num
    have hsos := hs.sos
    rw [List.length_map] at hnum
    rw [List.map_map] at hsos
    refine ⟨heq, ?_, hlt, ?_⟩
    · rw [← hnum]
      exact UInt64.toNat_lt _
    · show (l.map ((· ^ 2) ∘ value)).sum < 2 ^ 64
      rw [← hsos]
      exact UInt64.toNat_lt _
  · rintro ⟨heq, hlen, hlt, hsq⟩
    have hvalues : (l.map charge).map UInt64.toNat = l.map value := by
      rw [List.map_map]
      exact List.map_congr_left heq
    rw [hvalues] at hw
    constructor
    · rw [hw.num, List.length_map, Nat.mod_eq_of_lt hlen]
    · exact hw.min
    · exact hw.max
    · rw [hw.sum, Nat.mod_eq_of_lt hlt]
    · rw [hw.sos, List.map_map]
      exact Nat.mod_eq_of_lt hsq

/-! ## Histograms -/

namespace Histlog2

variable (h : Histlog2)

/-- The limits of the buckets, as numbers. -/
def limit : ℕ → ℕ
  | 0 => h.first.toInt.toNat
  | i + 1 => h.first.toInt.toNat + h.delta.toInt.toNat * 2 ^ i

/-- The last bucket. -/
def top : Fin h.num := ⟨h.num - 1, Nat.sub_one_lt h.num_pos.ne'⟩

/-- The `int`s that are computed are these. -/
def Fits : Prop := ∀ i < h.num - 1, (histlog2UpperLimit i h).toNat = h.limit i

/-- A value belongs between the limits of a bucket; the last has no upper one. -/
def Holds (i : Fin h.num) (v : ℕ) : Prop :=
  (i.val ≠ 0 → h.limit (i - 1) < v) ∧ (i.val ≠ h.num - 1 → v ≤ h.limit i)

instance (i : Fin h.num) (v : ℕ) : Decidable (h.Holds i v) := by
  unfold Holds
  infer_instance

variable {h}

theorem limit_mono {i j : ℕ} (hij : i ≤ j) : h.limit i ≤ h.limit j := by
  cases i with
  | zero => cases j <;> simp [limit]
  | succ i =>
    obtain ⟨j, rfl⟩ : ∃ k, j = k + 1 := ⟨j - 1, by omega⟩
    have hpow : 2 ^ i ≤ 2 ^ j := Nat.pow_le_pow_right (by norm_num) (by omega)
    exact Nat.add_le_add_left (Nat.mul_le_mul_left _ hpow) _

theorem Holds.le {i j : Fin h.num} {v : ℕ} (hi : h.Holds i v) (hj : h.Holds j v) : j ≤ i := by
  by_contra hlt
  rw [not_le, Fin.lt_def] at hlt
  have hup := hi.2 (by omega)
  have hlow := hj.1 (by omega)
  have hmono : h.limit i ≤ h.limit (j - 1) := limit_mono (by omega)
  omega

theorem Holds.unique {i j : Fin h.num} {v : ℕ} (hi : h.Holds i v) (hj : h.Holds j v) : i = j :=
  le_antisymm (hj.le hi) (hi.le hj)

theorem holds_index (hfits : h.Fits) (v : UInt64) : h.Holds (histlog2Index v h) v.toNat := by
  have hpos := h.num_pos
  constructor
  · intro hne
    have hlt : (histlog2Index v h).val - 1 < (List.range (h.num - 1)).findIdx
        fun i => decide (v ≤ histlog2UpperLimit i h) := Nat.sub_one_lt hne
    have hnot := List.not_of_lt_findIdx hlt
    have hbound : (histlog2Index v h).val - 1 < h.num - 1 := by
      have hfin := (histlog2Index v h).isLt
      omega
    rw [List.getElem_range, decide_eq_false_iff_not, UInt64.not_le,
      UInt64.lt_iff_toNat_lt, hfits _ hbound] at hnot
    exact hnot
  · intro hne
    have hbound : (histlog2Index v h).val < h.num - 1 := by
      have hfin := (histlog2Index v h).isLt
      omega
    have hlt : (List.range (h.num - 1)).findIdx (fun i => decide (v ≤ histlog2UpperLimit i h)) <
        (List.range (h.num - 1)).length := by
      rw [List.length_range]
      exact hbound
    have hle := List.findIdx_getElem (w := hlt)
    rw [List.getElem_range, decide_eq_true_eq, UInt64.le_iff_toNat_le] at hle
    rwa [← hfits _ hbound]

theorem holds_iff (hfits : h.Fits) (i : Fin h.num) (v : UInt64) :
    h.Holds i v.toNat ↔ histlog2Index v h = i :=
  ⟨fun hi => (holds_index hfits v).unique hi, fun hi => hi ▸ holds_index hfits v⟩

end Histlog2

theorem sizeHist_fits : sizeHist.Fits := by unfold Histlog2.Fits; decide

theorem d2cHist_fits : d2cHist.Fits := by unfold Histlog2.Fits; decide

theorem histlog2Account_apply {h : Histlog2} (bucket : Fin h.num → UInt32) (val : UInt32)
    (i : Fin h.num) : histlog2Account bucket val i =
      if histlog2Index val.toUInt64 h = i then bucket i + 1 else bucket i := by
  unfold histlog2Account
  split_ifs with hi
  · rw [← hi, Function.update_self]
  · rw [Function.update_of_ne (Ne.symm hi)]

theorem foldl_histlog2Account {α : Type*} {h : Histlog2} (val : α → UInt32) (l : List α)
    (i : Fin h.num) :
    (l.foldl (fun b a => histlog2Account b (val a)) (fun _ : Fin h.num => (0 : UInt32)) i).toNat =
      l.countP (fun a => histlog2Index (val a).toUInt64 h = i) % 2 ^ 32 := by
  induction l using List.reverseRecOn with
  | nil => rfl
  | append_singleton l a ih =>
    rw [List.foldl_append, List.foldl_cons, List.foldl_nil, List.countP_append,
      List.countP_singleton, histlog2Account_apply]
    simp only [decide_eq_true_eq]
    split_ifs with hi
    · rw [UInt32.toNat_add, ih]
      simp
    · rw [ih, Nat.add_zero]

/-! ## The reference -/

/-- The three quantities that are kept for each direction. -/
inductive Quantity
  | size | d2c | thrput

namespace Quantity

/-- What a pair comes to. -/
def value : Quantity → Pair → ℕ
  | size => Pair.size
  | d2c => Pair.d2c
  | thrput => Pair.thrput

/-- What it is charged. -/
def charge : Quantity → Pair → UInt64
  | size, p => p.d.bytes.toUInt64
  | d2c, p => d2cOf p.d p.c
  | thrput, p => thrputOf p.d p.c

end Quantity

/-- The direction of a pair is the one of its completion: `w` for writes. -/
def Pair.goes (w : Bool) (p : Pair) : Bool := if w then isWrite p.c else isRead p.c

def BlkiomonStat.minmax (stat : BlkiomonStat) : Quantity → Bool → Minmax
  | .size, false => stat.sizeR
  | .size, true => stat.sizeW
  | .d2c, false => stat.d2cR
  | .d2c, true => stat.d2cW
  | .thrput, false => stat.thrputR
  | .thrput, true => stat.thrputW

/-- The statistics of these pairs. -/
structure Exact (stat : BlkiomonStat) (pairs : List Pair) : Prop where
  summary : ∀ q w, (stat.minmax q w).Summary ((pairs.filter (Pair.goes w)).map q.value)
  size : ∀ i, (stat.sizeHist i).toNat = pairs.countP fun p => sizeHist.Holds i p.size
  d2c : ∀ i, (stat.d2cHist i).toNat = pairs.countP fun p => d2cHist.Holds i p.d2c
  bidir : stat.bidir.toNat = pairs.countP fun p => !p.goes false && !p.goes true

/-- The pairs of which no word is too narrow. -/
structure Narrow (pairs : List Pair) : Prop where
  thrput : ∀ p ∈ pairs, p.goes false ∨ p.goes true →
    p.size * 1000 < 2 ^ 32 ∨ p.size * 1000 < p.d2c
  d2c : ∀ p ∈ pairs, p.d2c < 2 ^ 32 ∨ 2 ^ 25 < p.d2c % 2 ^ 32
  sum : ∀ (q : Quantity) w, ((pairs.filter (Pair.goes w)).map q.value).sum < 2 ^ 64
  sos : ∀ (q : Quantity) w, ((pairs.filter (Pair.goes w)).map (q.value · ^ 2)).sum < 2 ^ 64
  sizes : ∀ i, pairs.countP (fun p => sizeHist.Holds i p.size) < 2 ^ 32
  d2cs : ∀ i, pairs.countP (fun p => d2cHist.Holds i p.d2c) < 2 ^ 32

theorem narrow_nil : Narrow [] := by
  constructor <;> simp

/-! ## One pair -/

theorem accountStat_minmax (p : Pair) (stat : BlkiomonStat) (q : Quantity) (w : Bool) :
    (accountStat p.d p.c stat).minmax q w =
      if p.goes w then minmaxAccount (stat.minmax q w) (q.charge p) else stat.minmax q w := by
  unfold accountStat accountUpdates Pair.goes
  by_cases hr : isRead p.c = true
  · have hw : isWrite p.c = false := by simp [isWrite, hr]
    cases w <;> cases q <;> simp only [hr, hw] <;> rfl
  · rw [Bool.not_eq_true] at hr
    by_cases hw : isWrite p.c = true
    · cases w <;> cases q <;> simp only [hr, hw] <;> rfl
    · rw [Bool.not_eq_true] at hw
      cases w <;> cases q <;> simp only [hr, hw] <;> rfl

theorem accountStat_bidir (p : Pair) (stat : BlkiomonStat) :
    (accountStat p.d p.c stat).bidir =
      if !p.goes false && !p.goes true then stat.bidir + 1 else stat.bidir := by
  unfold accountStat accountUpdates Pair.goes
  by_cases hr : isRead p.c = true
  · simp only [hr]
    rfl
  · rw [Bool.not_eq_true] at hr
    by_cases hw : isWrite p.c = true
    · simp only [hr, hw]
      rfl
    · rw [Bool.not_eq_true] at hw
      simp only [hr, hw]
      rfl

theorem accountStat_sizeHist (p : Pair) (stat : BlkiomonStat) :
    (accountStat p.d p.c stat).sizeHist = histlog2Account stat.sizeHist p.d.bytes := by
  unfold accountStat accountUpdates
  split_ifs <;> rfl

theorem accountStat_d2cHist (p : Pair) (stat : BlkiomonStat) :
    (accountStat p.d p.c stat).d2cHist =
      histlog2Account stat.d2cHist (d2cOf p.d p.c).toUInt32 := by
  unfold accountStat accountUpdates
  split_ifs <;> rfl

/-! ## All of them -/

section All

variable (device : UInt32) (pairs : List Pair)

theorem statOf_minmax (q : Quantity) (w : Bool) : (statOf device pairs).minmax q w =
    ((pairs.filter (Pair.goes w)).map q.charge).foldl minmaxAccount minmaxInit := by
  induction pairs using List.reverseRecOn with
  | nil => cases q <;> cases w <;> rfl
  | append_singleton pairs p ih =>
    rw [statOf_concat, accountStat_minmax, ih, List.filter_append, List.map_append,
      List.foldl_append]
    cases hw : p.goes w <;> simp [hw]

theorem statOf_sizeHist : (statOf device pairs).sizeHist =
    pairs.foldl (fun b p => histlog2Account b p.d.bytes) fun _ => 0 := by
  induction pairs using List.reverseRecOn with
  | nil => rfl
  | append_singleton pairs p ih =>
    rw [statOf_concat, accountStat_sizeHist, ih, List.foldl_append]
    rfl

theorem statOf_d2cHist : (statOf device pairs).d2cHist =
    pairs.foldl (fun b p => histlog2Account b (d2cOf p.d p.c).toUInt32) fun _ => 0 := by
  induction pairs using List.reverseRecOn with
  | nil => rfl
  | append_singleton pairs p ih =>
    rw [statOf_concat, accountStat_d2cHist, ih, List.foldl_append]
    rfl

theorem statOf_bidir : (statOf device pairs).bidir.toNat =
    pairs.countP (fun p => !p.goes false && !p.goes true) % 2 ^ 64 := by
  induction pairs using List.reverseRecOn with
  | nil => rfl
  | append_singleton pairs p ih =>
    rw [statOf_concat, accountStat_bidir, List.countP_append, List.countP_singleton]
    split_ifs
    · rw [UInt64.toNat_add, ih]
      simp
    · rw [ih, Nat.add_zero]

end All

/-! ## Where the words are too narrow -/

/-- A quotient of a dividend that lost its upper bits. -/
theorem mod_div_eq_iff {x d m : ℕ} (hm : 0 < m) (hd : 0 < d) :
    x % m / d = x / d ↔ x < m ∨ x < d := by
  constructor
  · intro h
    by_contra hge
    rw [not_or, not_lt, not_lt] at hge
    obtain ⟨hmx, hdx⟩ := hge
    rcases le_or_gt d m with hdm | hmd
    · have hlost : x % m + m ≤ x := by
        have hdiv := Nat.mod_add_div x m
        have hq := Nat.le_mul_of_pos_right m (Nat.div_pos hmx hm)
        omega
      have hle : (x % m + d) / d ≤ x / d := Nat.div_le_div_right (by omega)
      rw [Nat.add_div_right _ hd] at hle
      omega
    · have hlow : x % m / d = 0 := Nat.div_eq_of_lt (lt_trans (Nat.mod_lt x hm) hmd)
      have hhigh : 0 < x / d := Nat.div_pos hdx hd
      omega
  · rintro (h | h)
    · rw [Nat.mod_eq_of_lt h]
    · rw [Nat.div_eq_of_lt h, Nat.div_eq_of_lt (lt_of_le_of_lt (Nat.mod_le x m) h)]

theorem Pair.toNat_thrputOf (p : Pair) :
    (thrputOf p.d p.c).toNat = p.size * 1000 % 2 ^ 32 / p.d2c := by
  rw [thrputOf, UInt64.toNat_div, p.toNat_d2cOf, UInt32.toNat_toUInt64, UInt32.toNat_mul]
  rfl

theorem Quantity.charge_le (q : Quantity) (p : Pair) : (q.charge p).toNat ≤ q.value p := by
  cases q with
  | size => exact (UInt32.toNat_toUInt64 _).le
  | d2c => exact p.toNat_d2cOf.le
  | thrput =>
    show (thrputOf p.d p.c).toNat ≤ p.size * 1000 / p.d2c
    rw [p.toNat_thrputOf]
    exact Nat.div_le_div_right (Nat.mod_le _ _)

theorem Quantity.charge_eq_iff (q : Quantity) (p : Pair) : (q.charge p).toNat = q.value p ↔
    (q = .thrput → p.size * 1000 < 2 ^ 32 ∨ p.size * 1000 < p.d2c) := by
  cases q with
  | size => exact ⟨fun _ h => (nomatch h), fun _ => UInt32.toNat_toUInt64 _⟩
  | d2c => exact ⟨fun _ h => (nomatch h), fun _ => p.toNat_d2cOf⟩
  | thrput =>
    show (thrputOf p.d p.c).toNat = p.size * 1000 / p.d2c ↔ _
    rw [p.toNat_thrputOf, mod_div_eq_iff (by norm_num) p.d2c_pos]
    simp

theorem index_top_iff (v : UInt64) : histlog2Index v d2cHist = d2cHist.top ↔ 2 ^ 25 < v.toNat := by
  have hlimit : d2cHist.limit 23 = 2 ^ 25 := by decide
  rw [← Histlog2.holds_iff d2cHist_fits, ← hlimit]
  exact ⟨fun h => h.1 (by decide), fun h => ⟨fun _ => h, fun hne => absurd rfl hne⟩⟩

/-- A narrowed latency goes where the whole one belongs. -/
theorem index_narrowed_iff (v : UInt64) :
    histlog2Index v.toUInt32.toUInt64 d2cHist = histlog2Index v d2cHist ↔
      v.toNat < 2 ^ 32 ∨ 2 ^ 25 < v.toNat % 2 ^ 32 := by
  have hnarrow : v.toUInt32.toUInt64.toNat = v.toNat % 2 ^ 32 := by simp
  by_cases hlt : v.toNat < 2 ^ 32
  · have hsame : v.toUInt32.toUInt64 = v := by
      apply UInt64.toNat_inj.mp
      rw [hnarrow, Nat.mod_eq_of_lt hlt]
    simp only [hsame, hlt, true_or]
  · have htop := (index_top_iff v).mpr (by omega)
    rw [htop, index_top_iff, hnarrow]
    exact ⟨.inr, fun h => h.resolve_left hlt⟩

/-! ## The device -/

theorem countP_sizeHist (pairs : List Pair) (i : Fin sizeHist.num) :
    (pairs.countP fun p => histlog2Index p.d.bytes.toUInt64 sizeHist = i) =
      pairs.countP fun p => sizeHist.Holds i p.size := by
  apply List.countP_congr
  intro p _
  rw [decide_eq_true_eq, decide_eq_true_eq, ← Histlog2.holds_iff sizeHist_fits]
  exact Iff.of_eq (by rw [UInt32.toNat_toUInt64]; rfl)

theorem sizes_iff (device : UInt32) (pairs : List Pair) :
    (∀ i, ((statOf device pairs).sizeHist i).toNat =
        pairs.countP fun p => sizeHist.Holds i p.size) ↔
      ∀ i, pairs.countP (fun p => sizeHist.Holds i p.size) < 2 ^ 32 := by
  refine forall_congr' fun i => ?_
  rw [statOf_sizeHist, foldl_histlog2Account (fun p : Pair => p.d.bytes), countP_sizeHist]
  exact Nat.mod_eq_iff_lt (by norm_num)

theorem d2cs_iff (device : UInt32) (pairs : List Pair) :
    (∀ i, ((statOf device pairs).d2cHist i).toNat =
        pairs.countP fun p => d2cHist.Holds i p.d2c) ↔
      (∀ p ∈ pairs, p.d2c < 2 ^ 32 ∨ 2 ^ 25 < p.d2c % 2 ^ 32) ∧
        ∀ i, pairs.countP (fun p => d2cHist.Holds i p.d2c) < 2 ^ 32 := by
  have hcount : ∀ i, (pairs.countP fun p => histlog2Index (d2cOf p.d p.c) d2cHist = i) =
      pairs.countP fun p => d2cHist.Holds i p.d2c := by
    intro i
    apply List.countP_congr
    intro p _
    rw [decide_eq_true_eq, decide_eq_true_eq, ← Histlog2.holds_iff d2cHist_fits, p.toNat_d2cOf]
  have hplace : ∀ p ∈ pairs, histlog2Index (d2cOf p.d p.c).toUInt32.toUInt64 d2cHist ≠
      histlog2Index (d2cOf p.d p.c) d2cHist → histlog2Index (d2cOf p.d p.c) d2cHist = d2cHist.top := by
    intro p _ hne
    rw [ne_eq, index_narrowed_iff, not_or, not_lt] at hne
    exact (index_top_iff _).mpr (by omega)
  have hiff := Tallies.countP_mod_eq_iff (m := 2 ^ 32) (by norm_num) hplace
  simp only [hcount, index_narrowed_iff, Pair.toNat_d2cOf] at hiff
  rw [← hiff]
  refine forall_congr' fun i => ?_
  rw [statOf_d2cHist, foldl_histlog2Account (fun p : Pair => (d2cOf p.d p.c).toUInt32)]

theorem summaries_iff (device : UInt32) (pairs : List Pair) (q : Quantity) (w : Bool) :
    ((statOf device pairs).minmax q w).Summary ((pairs.filter (Pair.goes w)).map q.value) ↔
      (∀ p ∈ pairs, p.goes w → (q.charge p).toNat = q.value p) ∧
        (pairs.filter (Pair.goes w)).length < 2 ^ 64 ∧
        ((pairs.filter (Pair.goes w)).map q.value).sum < 2 ^ 64 ∧
        ((pairs.filter (Pair.goes w)).map (q.value · ^ 2)).sum < 2 ^ 64 := by
  rw [statOf_minmax, summary_iff fun p _ => q.charge_le p]
  simp only [List.mem_filter, and_imp]

/-- As many pairs as the buckets can count are fewer than the other counters can. -/
theorem length_lt_of_sizes {pairs : List Pair}
    (h : ∀ i, pairs.countP (fun p => sizeHist.Holds i p.size) < 2 ^ 32) :
    pairs.length < 2 ^ 64 := by
  rw [← Tallies.sum_countP fun p : Pair => histlog2Index p.d.bytes.toUInt64 sizeHist]
  calc ∑ i, (pairs.countP fun p => histlog2Index p.d.bytes.toUInt64 sizeHist = i)
      ≤ ∑ _i : Fin sizeHist.num, 2 ^ 32 := 
        Finset.sum_le_sum fun i _ => (countP_sizeHist pairs i ▸ h i).le
    _ = sizeHist.num * 2 ^ 32 := by
      rw [Finset.sum_const, Finset.card_univ, Fintype.card_fin, smul_eq_mul]
    _ < 2 ^ 64 := by decide

/-- **The statistics of a device are the reference** just if no word is too narrow for its pairs. -/
theorem exact_iff (device : UInt32) (pairs : List Pair) :
    Exact (statOf device pairs) pairs ↔ Narrow pairs := by
  constructor
  · intro h
    have hsum := fun q w => (summaries_iff device pairs q w).mp (h.summary q w)
    obtain ⟨hd2c, hd2cs⟩ := (d2cs_iff device pairs).mp h.d2c
    constructor
    · rintro p hp (hw | hw)
      · exact ((Quantity.thrput.charge_eq_iff p).mp ((hsum .thrput false).1 p hp hw)) rfl
      · exact ((Quantity.thrput.charge_eq_iff p).mp ((hsum .thrput true).1 p hp hw)) rfl
    · exact hd2c
    · exact fun q w => (hsum q w).2.2.1
    · exact fun q w => (hsum q w).2.2.2
    · exact (sizes_iff device pairs).mp h.size
    · exact hd2cs
  · intro h
    have hlen := length_lt_of_sizes h.sizes
    constructor
    · intro q w
      refine (summaries_iff device pairs q w).mpr ⟨fun p hp hw => ?_, ?_, h.sum q w, h.sos q w⟩
      · rw [q.charge_eq_iff]
        intro _
        exact h.thrput p hp (by cases w <;> simp [hw])
      · exact lt_of_le_of_lt (List.length_filter_le _ _) hlen
    · exact (sizes_iff device pairs).mpr h.sizes
    · exact (d2cs_iff device pairs).mpr ⟨h.d2c, h.d2cs⟩
    · rw [statOf_bidir, Nat.mod_eq_of_lt (lt_of_le_of_lt List.countP_le_length hlen)]

/-- The pairs of an interval are accounted, and the record of the device, if it has any pair, holds
their statistics. -/
def Accounts (o : Opening) (pairs : List Pair) (device : UInt32) : Prop :=
  ∃ s, accountAll o.s pairs = some s ∧
    match blkiomonFindDstat s device with
    | some i => Exact (s.mem i) (pairsOf device pairs)
    | none => pairsOf device pairs = []

/-- **The statistics of every device of an interval.** -/
theorem accounts_iff (o : Opening) (pairs : List Pair) (device : UInt32) :
    Accounts o pairs device ↔ Narrow (pairsOf device pairs) := by
  obtain ⟨s, hs, hbooked⟩ := accountAll_booked o pairs
  have hrecord : Accounts o pairs device ↔ match blkiomonFindDstat s device with
      | some i => Exact (s.mem i) (pairsOf device pairs)
      | none => pairsOf device pairs = [] := by
    constructor
    · rintro ⟨s', hs', h⟩
      rw [hs] at hs'
      rw [Option.some.inj hs']
      exact h
    · exact fun h => ⟨s, hs, h⟩
  rw [hrecord]
  cases hfind : blkiomonFindDstat s device with
  | some i =>
    have hdev : (s.mem i).device = device := by simpa using List.find?_some hfind
    have hstat := hbooked.holds i (List.mem_of_find?_eq_some hfind)
    rw [hdev] at hstat
    rw [← exact_iff device, ← hstat]
  | none =>
    have hnil := hbooked.pairsOf_eq_nil fun j hj => by
      have hne := List.find?_eq_none.mp hfind j hj
      simpa using hne
    rw [hnil]
    exact ⟨fun _ => narrow_nil, fun _ => rfl⟩

/-- Five million bytes read in a millisecond. -/
def fastRead : Pair where
  d := { magic := 0x65617407, sequence := 1, time := 0, sector := 0, bytes := 5000000,
         action := 0x00410007, pid := 1, device := 0x800000, cpu := 0, error := 0, pduLen := 0,
         pdu := [] }
  c := { magic := 0x65617407, sequence := 2, time := 1000000, sector := 0, bytes := 5000000,
         action := 0x00810008, pid := 0, device := 0x800000, cpu := 0, error := 0, pduLen := 0,
         pdu := [] }
  after := by decide

def firstInterval : Opening := ⟨{}, rfl, ⟨List.nodup_nil, nofun⟩⟩

/-- Its product of 5000000 and 1000 loses the upper bits. -/
theorem not_accounts : ¬ Accounts firstInterval [fastRead] 0x800000 := by
  rintro ⟨s, hs, h⟩
  obtain rfl := Option.some.inj hs
  have hsum := (h.summary .thrput false).sum
  revert hsum
  decide

end Blktrace.Blkiomon
