import Mathlib

/-!
# Tallies

What a running count, sum, minimum or maximum over a list comes to, when it is kept in a word that
wraps, and what can be told of the charges from a total that came out right.
-/

namespace Tallies

variable {α : Type*}

/-! ## Totals that are never charged too much -/

/-- **A counter that is never charged too much**: its end value is right just if every charge was
right and the total fits. -/
theorem sum_mod_eq_iff {m : ℕ} {f g : α → ℕ} {l : List α} (h : ∀ a ∈ l, f a ≤ g a) (hm : 0 < m) :
    (l.map f).sum % m = (l.map g).sum ↔ (∀ a ∈ l, f a = g a) ∧ (l.map g).sum < m := by
  constructor
  · intro hsum
    have hlt : (l.map f).sum % m < m := Nat.mod_lt _ hm
    have hle : (l.map f).sum ≤ (l.map g).sum := List.sum_le_sum h
    have hge : (l.map f).sum % m ≤ (l.map f).sum := Nat.mod_le _ _
    refine ⟨?_, by omega⟩
    have heq : (l.map f).sum = (l.map g).sum := by omega
    clear hsum hlt hle hge
    induction l with
    | nil => simp
    | cons a l ih =>
      have ha := h a List.mem_cons_self
      have hl := fun b hb => h b (List.mem_cons_of_mem a hb)
      have hrest : (l.map f).sum ≤ (l.map g).sum := List.sum_le_sum hl
      rw [List.map_cons, List.sum_cons, List.map_cons, List.sum_cons] at heq
      rw [List.forall_mem_cons]
      exact ⟨by omega, ih hl (by omega)⟩
  · rintro ⟨heq, hlt⟩
    rw [List.map_congr_left heq, Nat.mod_eq_of_lt hlt]

/-! ## Classes -/

/-- Members counted class by class. -/
theorem sum_countP {κ : Type*} [Fintype κ] [DecidableEq κ] (idx : α → κ) (l : List α) :
    ∑ k, l.countP (fun a => idx a = k) = l.length := by
  induction l with
  | nil => simp
  | cons a l ih =>
    simp only [List.countP_cons, decide_eq_true_eq, Finset.sum_add_distrib, ih, List.length_cons]
    simp

theorem countP_eq_sum (p : α → Prop) [DecidablePred p] (l : List α) :
    l.countP (fun a => p a) = (l.map fun a => if p a then 1 else 0).sum := by
  induction l with
  | nil => rfl
  | cons a l ih => simp only [List.countP_cons, ih, List.map_cons, List.sum_cons, add_comm,
      decide_eq_true_eq]

/-- **Classes counted by words.** Where only members of `top` can be counted in another class than
their own, all counts are right just if every member is counted in its own class and the counts
fit. -/
theorem countP_mod_eq_iff {κ : Type*} [DecidableEq κ] {m : ℕ} (hm : 0 < m) {put idx : α → κ} {top : κ}
    {l : List α} (h : ∀ a ∈ l, put a ≠ idx a → idx a = top) :
    (∀ k, l.countP (fun a => put a = k) % m = l.countP (fun a => idx a = k)) ↔
      (∀ a ∈ l, put a = idx a) ∧ ∀ k, l.countP (fun a => idx a = k) < m := by
  constructor
  · intro hcount
    refine ⟨fun a ha => ?_, fun k => hcount k ▸ Nat.mod_lt _ hm⟩
    have htop := hcount top
    rw [countP_eq_sum, countP_eq_sum, sum_mod_eq_iff ?_ hm] at htop
    · by_contra hne
      have hidx : idx a = top := h a ha hne
      have hput := htop.1 a ha
      rw [if_pos hidx] at hput
      split_ifs at hput with hp
      exact hne (hp.trans hidx.symm)
    · intro b hb
      split_ifs with hput hidx
      · exact le_rfl
      · exact absurd (h b hb fun he => hidx (he ▸ hput)) hidx
      · exact Nat.zero_le _
      · exact le_rfl
  · rintro ⟨heq, hlt⟩ k
    have hcongr : l.countP (fun a => put a = k) = l.countP (fun a => idx a = k) :=
      List.countP_congr fun a ha => by rw [heq a ha]
    rw [hcongr, Nat.mod_eq_of_lt (hlt k)]

/-! ## Histograms in an array -/

/-- One is added to a cell, if there is one with the number. -/
def bump (cells : List ℕ) (idx : ℤ) : Option (List ℕ) :=
  if 0 ≤ idx ∧ idx < cells.length then some (cells.modify idx.toNat (· + 1)) else none

/-- One number after the other. -/
def bumps (cells : List ℕ) (idxs : List ℤ) : Option (List ℕ) := idxs.foldlM bump cells

theorem bumps_cons (cells : List ℕ) (idx : ℤ) (idxs : List ℤ) :
    bumps cells (idx :: idxs) = (bump cells idx).bind fun cells => bumps cells idxs := rfl

theorem sum_modify {cells : List ℕ} {n : ℕ} (hn : n < cells.length) :
    (cells.modify n (· + 1)).sum = cells.sum + 1 := by
  induction cells generalizing n with
  | nil => exact absurd hn (Nat.not_lt_zero _)
  | cons c cells ih =>
    cases n with
    | zero => simp [add_right_comm]
    | succ n => simp [ih (Nat.lt_of_succ_lt_succ hn), add_assoc]

theorem getD_modify {cells : List ℕ} {n : ℕ} (hn : n < cells.length) (k : ℕ) :
    (cells.modify n (· + 1)).getD k 0 = cells.getD k 0 + if n = k then 1 else 0 := by
  rw [List.getD_eq_getElem?_getD, List.getD_eq_getElem?_getD, List.getElem?_modify]
  by_cases hk : n = k
  · rw [← hk, List.getElem?_eq_getElem hn]
    simp
  · cases cells[k]? <;> simp [hk]

/-- What a step leaves: the array is as long, the cell has one more, and so has the sum. -/
theorem bump_spec {cells cells' : List ℕ} {idx : ℤ} (h : bump cells idx = some cells') :
    (0 ≤ idx ∧ idx < cells.length) ∧ cells'.length = cells.length ∧ cells'.sum = cells.sum + 1 ∧
      ∀ k : ℕ, cells'.getD k 0 = cells.getD k 0 + if idx = k then 1 else 0 := by
  rw [bump, Option.ite_none_right_eq_some] at h
  obtain ⟨hin, hcells⟩ := h
  obtain rfl := Option.some.inj hcells
  obtain ⟨n, rfl⟩ := Int.eq_ofNat_of_zero_le hin.1
  have hn : n < cells.length := by exact_mod_cast hin.2
  rw [Int.toNat_natCast]
  refine ⟨hin, List.length_modify _ _ _, sum_modify hn, fun k => ?_⟩
  rw [getD_modify hn]
  exact congrArg _ (if_congr Nat.cast_inj.symm rfl rfl)

/-- **A histogram** is defined just if all numbers have a cell, and has in each how often its number came. -/
theorem bumps_spec {cells : List ℕ} {idxs : List ℤ} :
    ((bumps cells idxs).isSome ↔ ∀ idx ∈ idxs, 0 ≤ idx ∧ idx < cells.length) ∧
      ∀ cells', bumps cells idxs = some cells' → cells'.length = cells.length ∧
        cells'.sum = cells.sum + idxs.length ∧
        ∀ k : ℕ, cells'.getD k 0 = cells.getD k 0 + idxs.countP (· = (k : ℤ)) := by
  induction idxs generalizing cells with
  | nil =>
    refine ⟨by simp [bumps], fun cells' h => ?_⟩
    obtain rfl := Option.some.inj h
    exact ⟨rfl, rfl, fun k => rfl⟩
  | cons idx idxs ih =>
    rw [bumps_cons, List.forall_mem_cons]
    cases hbump : bump cells idx with
    | none =>
      rw [bump, ite_eq_right_iff] at hbump
      exact ⟨iff_of_false (by simp) fun h => absurd (hbump h.1) (by simp), fun cells' h => absurd h (by simp)⟩
    | some next =>
      obtain ⟨hin, hlength, hsum, hcount⟩ := bump_spec hbump
      obtain ⟨hsome, hspec⟩ := @ih next
      refine ⟨?_, fun cells' h => ?_⟩
      · rw [Option.bind_some, hsome, hlength, and_iff_right hin]
      · obtain ⟨hlength', hsum', hcount'⟩ := hspec cells' h
        refine ⟨hlength'.trans hlength, ?_, fun k => ?_⟩
        · rw [hsum', hsum, List.length_cons, add_assoc, add_comm 1]
        · rw [hcount', hcount, List.countP_cons, add_assoc]
          simp [add_comm]

/-- From cells that are all 0. -/
theorem bumps_replicate {n : ℕ} {idxs : List ℤ} :
    ((bumps (.replicate n 0) idxs).isSome ↔ ∀ idx ∈ idxs, 0 ≤ idx ∧ idx < n) ∧
      ∀ cells, bumps (.replicate n 0) idxs = some cells →
        cells.sum = idxs.length ∧ ∀ k : ℕ, cells.getD k 0 = idxs.countP (· = (k : ℤ)) := by
  obtain ⟨hsome, hspec⟩ := @bumps_spec (.replicate n 0) idxs
  refine ⟨by rw [hsome, List.length_replicate], fun cells h => ?_⟩
  obtain ⟨-, hsum, hcount⟩ := hspec cells h
  refine ⟨by simpa using hsum, fun k => ?_⟩
  have hzero : (List.replicate n 0).getD k 0 = 0 := by
    rw [List.getD_eq_getElem?_getD, List.getElem?_replicate]
    split_ifs <;> rfl
  rw [hcount, hzero, zero_add]

/-- **Members in the cells of their classes.** Where a member that has a cell at all can only be in another
than that of its class when the class is `top`, the histogram is right just if every member is in its own. -/
theorem bumps_iff {put : α → ℤ} {cls : α → ℕ} {n top : ℕ} {l : List α} (hcls : ∀ a, cls a < n)
    (htop : ∀ a ∈ l, 0 ≤ put a → put a ≠ cls a → cls a = top) :
    (∃ cells, bumps (.replicate n 0) (l.map put) = some cells ∧ cells.sum = l.length ∧
      ∀ k : ℕ, cells.getD k 0 = l.countP fun a => cls a = k) ↔ ∀ a ∈ l, put a = cls a := by
  obtain ⟨hsome, hspec⟩ := @bumps_replicate n (l.map put)
  constructor
  · rintro ⟨cells, hcells, -, hcount⟩
    have hpos : ∀ a ∈ l, 0 ≤ put a := fun a ha =>
      (hsome.mp (by rw [hcells]; rfl) (put a) (List.mem_map_of_mem ha)).1
    have hnat : ∀ a ∈ l, ((put a).toNat : ℤ) = put a := fun a ha => Int.toNat_of_nonneg (hpos a ha)
    have hbelow : ∀ a ∈ l, (put a).toNat ≠ cls a → cls a = top := fun a ha hne =>
      htop a ha (hpos a ha) fun heq => hne (by rw [heq, Int.toNat_natCast])
    have hiff := countP_mod_eq_iff (Nat.succ_pos l.length) hbelow
    have hown := (hiff.mp fun k => ?_).1
    · intro a ha
      rw [← hnat a ha, hown a ha]
    · rw [Nat.mod_eq_of_lt (Nat.lt_succ_of_le List.countP_le_length), ← hcount k,
        (hspec cells hcells).2 k, List.countP_map]
      refine List.countP_congr fun a ha => ?_
      rw [decide_eq_true_iff, Function.comp_apply, decide_eq_true_iff, ← hnat a ha, Nat.cast_inj,
        Int.toNat_natCast]
  · intro hown
    have hrange : ∀ idx ∈ l.map put, 0 ≤ idx ∧ idx < n := by
      refine List.forall_mem_map.mpr fun a ha => ?_
      rw [hown a ha]
      exact ⟨Int.natCast_nonneg _, by exact_mod_cast hcls a⟩
    obtain ⟨cells, hcells⟩ := Option.isSome_iff_exists.mp (hsome.mpr hrange)
    obtain ⟨hsum, hcount⟩ := hspec cells hcells
    refine ⟨cells, hcells, by rw [hsum, List.length_map], fun k => ?_⟩
    rw [hcount, List.countP_map]
    refine List.countP_congr fun a ha => ?_
    rw [decide_eq_true_iff, Function.comp_apply, decide_eq_true_iff, hown a ha, Nat.cast_inj]

/-! ## Rows

The members come in groups of one key, and a row is written for each group.
-/

/-- A key, how many members have it, and what they weigh. -/
structure Row (κ : Type*) where
  key : κ
  count : ℕ
  weight : ℕ
deriving DecidableEq

section

variable {κ : Type*} [LinearOrder κ] (key : α → κ) (weight : α → ℕ)

/-- The row of a key. -/
def rowOf (l : List α) (k : κ) : Row κ :=
  ⟨k, l.countP fun a => key a = k, ((l.filter fun a => key a = k).map weight).sum⟩

/-- The rows are in order, each is that of its key, and no member is without a row. -/
structure Tallied (rows : List (Row κ)) (l : List α) : Prop where
  sorted : rows.Pairwise fun a b => a.key < b.key
  row_eq : ∀ row ∈ rows, row = rowOf key weight l row.key
  covers : ∀ a ∈ l, ∃ row ∈ rows, row.key = key a

variable {key weight} {rows : List (Row κ)} {l : List α}

theorem rowOf_append_self (l : List α) (a : α) : rowOf key weight (l ++ [a]) (key a) =
    ⟨key a, (rowOf key weight l (key a)).count + 1, (rowOf key weight l (key a)).weight + weight a⟩ := by
  simp [rowOf]

theorem rowOf_append_of_ne (l : List α) {a : α} {k : κ} (h : key a ≠ k) :
    rowOf key weight (l ++ [a]) k = rowOf key weight l k := by
  simp [rowOf, h]

namespace Tallied

theorem nil (key : α → κ) (weight : α → ℕ) : Tallied key weight [] [] := ⟨.nil, nofun, nofun⟩

/-- The rows of the smaller keys stay, and the last one is that of a new member. -/
theorem snoc {a : α} (hsorted : rows.Pairwise fun a b => a.key < b.key) (hbelow : ∀ row ∈ rows, row.key < key a)
    (hrow : ∀ row ∈ rows, row = rowOf key weight l row.key)
    (hcovers : ∀ b ∈ l, key b = key a ∨ ∃ row ∈ rows, row.key = key b) :
    Tallied key weight (rows ++ [rowOf key weight (l ++ [a]) (key a)]) (l ++ [a]) := by
  have hlast : rowOf key weight (l ++ [a]) (key a) ∈ rows ++ [rowOf key weight (l ++ [a]) (key a)] :=
    List.mem_append_right _ (List.mem_singleton_self _)
  refine ⟨?_, fun row hmem => ?_, fun b hb => ?_⟩
  · refine List.pairwise_append.mpr ⟨hsorted, List.pairwise_singleton _ _, fun row hmem b hb => ?_⟩
    rw [List.mem_singleton.mp hb]
    exact hbelow row hmem
  · rcases List.mem_append.mp hmem with hmem | hmem
    · rw [rowOf_append_of_ne l (hbelow row hmem).ne']
      exact hrow row hmem
    · rw [List.mem_singleton.mp hmem]
      rfl
  · have hkey : key b = key a ∨ ∃ row ∈ rows, row.key = key b := by
      rcases List.mem_append.mp hb with hb | hb
      · exact hcovers b hb
      · exact .inl (congrArg key (List.mem_singleton.mp hb))
    rcases hkey with hkey | ⟨row, hmem, hkey⟩
    · exact ⟨_, hlast, hkey.symm⟩
    · exact ⟨row, List.mem_append_left _ hmem, hkey⟩

/-- The first member of a new group. -/
theorem append_new (h : Tallied key weight rows l) {a : α} (hnew : ∀ row ∈ rows, row.key < key a) :
    Tallied key weight (rows ++ [⟨key a, 1, weight a⟩]) (l ++ [a]) := by
  have hnone : ∀ b ∈ l, key b ≠ key a := by
    intro b hb heq
    obtain ⟨row, hrow, hkey⟩ := h.covers b hb
    exact absurd (hkey.trans heq) (hnew row hrow).ne
  have hzero : rowOf key weight l (key a) = ⟨key a, 0, 0⟩ := by
    rw [rowOf, List.countP_eq_zero.mpr fun b hb => by simpa using hnone b hb,
      List.filter_eq_nil_iff.mpr fun b hb => by simpa using hnone b hb]
    rfl
  have hsnoc := snoc h.sorted hnew h.row_eq fun b hb => .inr (h.covers b hb)
  rw [rowOf_append_self, hzero, zero_add, zero_add] at hsnoc
  exact hsnoc

/-- One more of the last group. -/
theorem append_last {a : α} {count total : ℕ}
    (h : Tallied key weight (rows ++ [⟨key a, count, total⟩]) l) :
    Tallied key weight (rows ++ [⟨key a, count + 1, total + weight a⟩]) (l ++ [a]) := by
  obtain ⟨hrows, -, hbelow⟩ := List.pairwise_append.mp h.sorted
  have hcounted := h.row_eq _ (List.mem_append_right _ (List.mem_singleton_self _))
  have hcovers : ∀ b ∈ l, key b = key a ∨ ∃ row ∈ rows, row.key = key b := by
    intro b hb
    obtain ⟨row, hrow, hkey⟩ := h.covers b hb
    rcases List.mem_append.mp hrow with hrow | hrow
    · exact .inr ⟨row, hrow, hkey⟩
    · rw [List.mem_singleton.mp hrow] at hkey
      exact .inl hkey.symm
  have hsmaller : ∀ row ∈ rows, row.key < key a := fun row hrow => hbelow row hrow _ (List.mem_singleton_self _)
  have hsnoc := snoc hrows hsmaller (fun row hrow => h.row_eq row (List.mem_append_left _ hrow)) hcovers
  rw [rowOf_append_self, ← hcounted] at hsnoc
  exact hsnoc

theorem nodup_keys (h : Tallied key weight rows l) : (rows.map Row.key).Nodup :=
  (List.pairwise_map.mpr h.sorted).imp ne_of_lt

/-- **Each member is in just one row.** -/
theorem once (h : Tallied key weight rows l) {a : α} (ha : a ∈ l) :
    ∃! row, row ∈ rows ∧ row.key = key a := by
  obtain ⟨row, hrow, hkey⟩ := h.covers a ha
  refine ⟨row, ⟨hrow, hkey⟩, fun row' hrow' => ?_⟩
  rw [h.row_eq row hrow, h.row_eq row' hrow'.1, hrow'.2, hkey]

/-- What is summed over the keys is summed over the members. -/
theorem sum_keys {ks : List κ} (hks : ks.Nodup) (l : List α) (hcovers : ∀ a ∈ l, key a ∈ ks) (f : α → ℕ) :
    (ks.map fun k => ((l.filter fun a => key a = k).map f).sum).sum = (l.map f).sum := by
  induction l with
  | nil => simp
  | cons a l ih =>
    obtain ⟨ha, hl⟩ := List.forall_mem_cons.mp hcovers
    have hsplit : ∀ k, (((a :: l).filter fun a => key a = k).map f).sum =
        (if k = key a then f a else 0) + ((l.filter fun a => key a = k).map f).sum := by
      intro k
      by_cases hk : key a = k
      · rw [List.filter_cons_of_pos (by simpa using hk), if_pos hk.symm, List.map_cons, List.sum_cons]
      · rw [List.filter_cons_of_neg (by simpa using hk), if_neg (Ne.symm hk), zero_add]
    have hself : (ks.map fun k => if k = key a then f a else 0).sum = f a := by
      rw [List.sum_map_eq_nsmul_single (key a) _ fun k hk _ => if_neg hk, if_pos rfl,
        List.count_eq_one_of_mem hks ha, one_nsmul]
    rw [List.map_congr_left fun k _ => hsplit k, List.sum_map_add, hself, ih hl, List.map_cons, List.sum_cons]

/-- **No member is left out of the totals.** -/
theorem sums (h : Tallied key weight rows l) :
    (rows.map Row.count).sum = l.length ∧ (rows.map Row.weight).sum = (l.map weight).sum := by
  have hcovers : ∀ a ∈ l, key a ∈ rows.map Row.key := by
    intro a ha
    obtain ⟨row, hrow, hkey⟩ := h.covers a ha
    rw [← hkey]
    exact List.mem_map_of_mem hrow
  constructor
  · have hcount : ∀ row ∈ rows, row.count = ((l.filter fun a => key a = row.key).map fun _ => 1).sum := by
      intro row hrow
      rw [congrArg Row.count (h.row_eq row hrow), rowOf, List.countP_eq_length_filter]
      simp
    rw [List.map_congr_left hcount]
    have hsum := sum_keys h.nodup_keys l hcovers fun _ => 1
    rw [List.map_map] at hsum
    exact hsum.trans (by simp)
  · have hweight : ∀ row ∈ rows, row.weight = ((l.filter fun a => key a = row.key).map weight).sum :=
      fun row hrow => congrArg Row.weight (h.row_eq row hrow)
    rw [List.map_congr_left hweight]
    have hsum := sum_keys h.nodup_keys l hcovers weight
    rw [List.map_map] at hsum
    exact hsum

end Tallied

end

/-! ## Groups

The members are labelled, and those of one label are kept together.
-/

theorem map_fst_modify {κ : Type*} (groups : List (κ × List α)) (i : ℕ) (a : α) :
    (groups.modify i fun g => (g.1, g.2 ++ [a])).map Prod.fst = groups.map Prod.fst := by
  apply List.ext_getElem?
  intro j
  rw [List.getElem?_map, List.getElem?_map, List.getElem?_modify]
  cases groups[j]? with
  | none => rfl
  | some g =>
    by_cases hij : i = j
    · simp [hij]
    · simp [hij]

section

variable {κ : Type*} [DecidableEq κ]

/-- The members of a label. -/
def ofLabel (l : List (κ × α)) (k : κ) : List α := (l.filter fun a => a.1 = k).map Prod.snd

/-- There is one group for each label, and in it are the members of the label. -/
structure Grouped (groups : List (κ × List α)) (l : List (κ × α)) : Prop where
  nodup : (groups.map Prod.fst).Nodup
  members : ∀ g ∈ groups, g.2 = ofLabel l g.1
  covers : ∀ a ∈ l, a.1 ∈ groups.map Prod.fst

theorem ofLabel_append_self (l : List (κ × α)) (k : κ) (a : α) :
    ofLabel (l ++ [(k, a)]) k = ofLabel l k ++ [a] := by
  simp [ofLabel]

theorem ofLabel_append_of_ne (l : List (κ × α)) {k k' : κ} (h : k ≠ k') (a : α) :
    ofLabel (l ++ [(k, a)]) k' = ofLabel l k' := by
  simp [ofLabel, h]

namespace Grouped

variable {groups : List (κ × List α)} {l : List (κ × α)}

theorem nil : Grouped ([] : List (κ × List α)) [] := ⟨List.nodup_nil, nofun, nofun⟩

/-- One more of a group. -/
theorem found (h : Grouped groups l) {i : ℕ} {k : κ} (hi : (groups.map Prod.fst)[i]? = some k) (a : α) :
    Grouped (groups.modify i fun g => (g.1, g.2 ++ [a])) (l ++ [(k, a)]) := by
  refine ⟨map_fst_modify groups i a ▸ h.nodup, fun g hg => ?_, ?_⟩
  · obtain ⟨j, hj⟩ := List.getElem?_of_mem hg
    rw [List.getElem?_modify] at hj
    cases hold : groups[j]? with
    | none => simp [hold] at hj
    | some g' =>
      have hmembers := h.members g' (List.mem_of_getElem? hold)
      rw [hold] at hj
      by_cases hij : i = j
      · subst hij
        obtain rfl : g'.1 = k := by simpa [hold] using hi
        obtain rfl : (g'.1, g'.2 ++ [a]) = g := by simpa using hj
        rw [ofLabel_append_self, hmembers]
      · obtain rfl : g' = g := by simpa [hij] using hj
        have hne : k ≠ g'.1 := by
          rintro rfl
          -- the key of another group
          have hj' : (groups.map Prod.fst)[j]? = some g'.1 := by rw [List.getElem?_map, hold]; rfl
          have hlt := (List.getElem?_eq_some_iff.mp hi).1
          exact hij ((List.getElem?_inj hlt h.nodup).mp (hi.trans hj'.symm))
        rw [ofLabel_append_of_ne l hne, hmembers]
  · rw [map_fst_modify, List.forall_mem_append, List.forall_mem_singleton]
    exact ⟨h.covers, List.mem_of_getElem? hi⟩

/-- The first of a new group. -/
theorem new (h : Grouped groups l) {k : κ} (hk : k ∉ groups.map Prod.fst) (a : α) :
    Grouped ((k, [a]) :: groups) (l ++ [(k, a)]) := by
  refine ⟨List.nodup_cons.mpr ⟨hk, h.nodup⟩, ?_, ?_⟩
  · rw [List.forall_mem_cons]
    constructor
    · have hnone : ofLabel l k = [] := by
        rw [ofLabel, List.map_eq_nil_iff, List.filter_eq_nil_iff]
        intro b hb hbk
        exact hk (of_decide_eq_true hbk ▸ h.covers b hb)
      rw [ofLabel_append_self, hnone, List.nil_append]
    · intro g hg
      have hne : k ≠ g.1 := fun heq => hk (heq ▸ List.mem_map_of_mem hg)
      rw [ofLabel_append_of_ne l hne]
      exact h.members g hg
  · rw [List.forall_mem_append, List.forall_mem_singleton]
    exact ⟨fun b hb => List.mem_cons_of_mem _ (h.covers b hb), List.mem_cons_self⟩

end Grouped

end

end Tallies
