import Mathlib

/-!
# Sets of numbers kept as lists of intervals

A list of closed intervals stands for the union of its members, `cover`. When no two of them
touch (`Separated`) the list is the only one of its kind up to order: neighbours of the set lie in
one interval, and the lengths add up to the size of the set.
-/

namespace Intervals

/-- The numbers in some interval of the list. -/
def cover (is : List (ℕ × ℕ)) : Finset ℕ := is.foldr (fun i s => Finset.Icc i.1 i.2 ∪ s) ∅

theorem mem_cover {is : List (ℕ × ℕ)} {n : ℕ} :
    n ∈ cover is ↔ ∃ i ∈ is, i.1 ≤ n ∧ n ≤ i.2 := by
  induction is with
  | nil => simp [cover]
  | cons i is ih =>
    rw [cover, List.foldr_cons, ← cover, Finset.mem_union, Finset.mem_Icc, ih]
    simp

/-- No interval is empty, and between any two of them there is a number in neither. -/
structure Separated (is : List (ℕ × ℕ)) : Prop where
  nonempty : ∀ i ∈ is, i.1 ≤ i.2
  apart : is.Pairwise fun a b => a.2 + 1 < b.1 ∨ b.2 + 1 < a.1

theorem Separated.nil : Separated [] := ⟨by simp, List.Pairwise.nil⟩

theorem Separated.tail {i : ℕ × ℕ} {is : List (ℕ × ℕ)} (h : Separated (i :: is)) :
    Separated is :=
  ⟨fun j hj => h.nonempty j (List.mem_cons_of_mem _ hj), (List.pairwise_cons.mp h.apart).2⟩

/-- An interval away from all that is covered. -/
theorem Separated.cons {i : ℕ × ℕ} {is : List (ℕ × ℕ)} (h : Separated is) (hi : i.1 ≤ i.2)
    (haway : ∀ n ∈ cover is, n + 1 < i.1 ∨ i.2 + 1 < n) : Separated (i :: is) := by
  refine ⟨List.forall_mem_cons.mpr ⟨hi, h.nonempty⟩, List.pairwise_cons.mpr ⟨?_, h.apart⟩⟩
  intro j hj
  have hne := h.nonempty j hj
  rcases haway j.1 (mem_cover.mpr ⟨j, hj, le_refl _, hne⟩) with hlo | hhi
  · right
    -- all of `j` is on one side, for its upper end is covered too
    by_contra hge
    have hmem : i.1 - 1 ∈ cover is := mem_cover.mpr ⟨j, hj, by omega, by omega⟩
    rcases haway _ hmem with h1 | h2 <;> omega
  · exact Or.inl hhi

/-! ## Intervals that may touch -/

/-- No interval is empty, and no number is in two of them. -/
structure Parted (is : List (ℕ × ℕ)) : Prop where
  nonempty : ∀ i ∈ is, i.1 ≤ i.2
  disjoint : is.Pairwise fun a b => a.2 < b.1 ∨ b.2 < a.1

theorem Parted.nil : Parted [] := ⟨nofun, .nil⟩

/-- One more interval, of which no number is covered. -/
theorem parted_cons {i : ℕ × ℕ} {is : List (ℕ × ℕ)} :
    Parted (i :: is) ↔ i.1 ≤ i.2 ∧ (∀ n ∈ cover is, ¬ (i.1 ≤ n ∧ n ≤ i.2)) ∧ Parted is := by
  constructor
  · rintro ⟨hne, hdisj⟩
    obtain ⟨hi, his⟩ := List.forall_mem_cons.mp hne
    obtain ⟨hpart, hrest⟩ := List.pairwise_cons.mp hdisj
    refine ⟨hi, fun n hn hmem => ?_, his, hrest⟩
    obtain ⟨j, hj, hlo, hhi⟩ := mem_cover.mp hn
    rcases hpart j hj with h | h <;> omega
  · rintro ⟨hi, haway, his, hrest⟩
    refine ⟨List.forall_mem_cons.mpr ⟨hi, his⟩, List.pairwise_cons.mpr ⟨fun j hj => ?_, hrest⟩⟩
    have hj' := his j hj
    by_contra hmeet
    -- the later of the two first numbers is in both
    have hmax := haway (max i.1 j.1) (mem_cover.mpr ⟨j, hj, le_max_right _ _, by omega⟩)
    omega

theorem parted_perm {is js : List (ℕ × ℕ)} (h : is.Perm js) : Parted is ↔ Parted js := by
  have hsymm : ∀ {a b : ℕ × ℕ}, a.2 < b.1 ∨ b.2 < a.1 → b.2 < a.1 ∨ a.2 < b.1 := Or.symm
  constructor
  · rintro ⟨hne, hdisj⟩
    exact ⟨fun j hj => hne j (h.mem_iff.mpr hj), (h.pairwise_iff hsymm).mp hdisj⟩
  · rintro ⟨hne, hdisj⟩
    exact ⟨fun i hi => hne i (h.mem_iff.mp hi), (h.pairwise_iff hsymm).mpr hdisj⟩

theorem parted_middle {left right : List (ℕ × ℕ)} {i : ℕ × ℕ} :
    Parted (left ++ i :: right) ↔
      i.1 ≤ i.2 ∧ (∀ n ∈ cover (left ++ right), ¬ (i.1 ≤ n ∧ n ≤ i.2)) ∧ Parted (left ++ right) := by
  rw [parted_perm List.perm_middle, parted_cons]

theorem Separated.parted {is : List (ℕ × ℕ)} (h : Separated is) : Parted is :=
  ⟨h.nonempty, h.apart.imp fun hab => by omega⟩

/-- **The lengths add up.** -/
theorem Parted.card_cover {is : List (ℕ × ℕ)} (h : Parted is) :
    (cover is).card = (is.map fun i => i.2 - i.1 + 1).sum := by
  induction is with
  | nil => rfl
  | cons i is ih =>
    obtain ⟨hi, haway, his⟩ := parted_cons.mp h
    have hdisj : Disjoint (Finset.Icc i.1 i.2) (cover is) := by
      rw [Finset.disjoint_right]
      intro n hn hmem
      exact haway n hn (Finset.mem_Icc.mp hmem)
    rw [cover, List.foldr_cons, ← cover, Finset.card_union_of_disjoint hdisj, ih his, List.map_cons,
      List.sum_cons, Nat.card_Icc, Nat.sub_add_comm hi]

theorem Separated.card_cover {is : List (ℕ × ℕ)} (h : Separated is) :
    (cover is).card = (is.map fun i => i.2 - i.1 + 1).sum :=
  h.parted.card_cover

/-! ## Intervals that do not touch -/

section Split

variable {left right : List (ℕ × ℕ)} {i : ℕ × ℕ} (h : Separated (left ++ i :: right))

include h

/-- What is near an interval of the list is in no other. -/
theorem Separated.not_mem_of_near {n : ℕ} (hlo : i.1 ≤ n + 1) (hhi : n ≤ i.2 + 1) :
    n ∉ cover (left ++ right) := by
  intro hmem
  obtain ⟨j, hj, hjlo, hjhi⟩ := mem_cover.mp hmem
  obtain ⟨-, hright, hcross⟩ := List.pairwise_append.mp h.apart
  rcases List.mem_append.mp hj with hj | hj
  · rcases hcross j hj i List.mem_cons_self with hap | hap <;> omega
  · rcases (List.pairwise_cons.mp hright).1 j hj with hap | hap <;> omega

theorem Separated.lo_le_of_pred {n : ℕ} (hlo : i.1 ≤ n + 1) (hhi : n + 1 ≤ i.2)
    (hn : n ∈ cover (left ++ i :: right)) : i.1 ≤ n := by
  have hnot := h.not_mem_of_near hlo (by omega)
  obtain ⟨j, hj, hjlo, hjhi⟩ := mem_cover.mp hn
  rcases List.mem_append.mp hj with hj | hj
  · exact absurd (mem_cover.mpr ⟨j, List.mem_append_left _ hj, hjlo, hjhi⟩) hnot
  · rcases List.mem_cons.mp hj with rfl | hj
    · exact hjlo
    · exact absurd (mem_cover.mpr ⟨j, List.mem_append_right _ hj, hjlo, hjhi⟩) hnot

theorem Separated.le_hi_of_succ {n : ℕ} (hlo : i.1 ≤ n) (hhi : n ≤ i.2)
    (hn : n + 1 ∈ cover (left ++ i :: right)) : n + 1 ≤ i.2 := by
  have hnot := h.not_mem_of_near (by omega) (Nat.succ_le_succ hhi)
  obtain ⟨j, hj, hjlo, hjhi⟩ := mem_cover.mp hn
  rcases List.mem_append.mp hj with hj | hj
  · exact absurd (mem_cover.mpr ⟨j, List.mem_append_left _ hj, hjlo, hjhi⟩) hnot
  · rcases List.mem_cons.mp hj with rfl | hj
    · exact hjhi
    · exact absurd (mem_cover.mpr ⟨j, List.mem_append_right _ hj, hjlo, hjhi⟩) hnot

/-- An interval may be dropped. -/
theorem Separated.drop : Separated (left ++ right) := by
  have hsub : (left ++ right).Sublist (left ++ i :: right) :=
    (List.sublist_cons_self i right).append_left left
  exact ⟨fun j hj => h.nonempty j (hsub.subset hj), h.apart.sublist hsub⟩

/-- An interval may shrink. -/
theorem Separated.shrink {j : ℕ × ℕ} (hj : j.1 ≤ j.2) (hlo : i.1 ≤ j.1) (hhi : j.2 ≤ i.2) :
    Separated (left ++ j :: right) := by
  obtain ⟨hleft, hright, hcross⟩ := List.pairwise_append.mp h.apart
  obtain ⟨hi, hright⟩ := List.pairwise_cons.mp hright
  refine ⟨fun k hk => ?_, List.pairwise_append.mpr ⟨hleft, List.pairwise_cons.mpr
    ⟨fun k hk => ?_, hright⟩, fun k hk l hl => ?_⟩⟩
  · rcases List.mem_append.mp hk with hk | hk
    · exact h.nonempty k (List.mem_append_left _ hk)
    · rcases List.mem_cons.mp hk with rfl | hk
      · exact hj
      · exact h.nonempty k (List.mem_append_right _ (List.mem_cons_of_mem _ hk))
  · rcases hi k hk with hap | hap
    · exact Or.inl (by omega)
    · exact Or.inr (by omega)
  · rcases List.mem_cons.mp hl with rfl | hl
    · rcases hcross k hk i List.mem_cons_self with hap | hap
      · exact Or.inl (by omega)
      · exact Or.inr (by omega)
    · exact hcross k hk l (List.mem_cons_of_mem _ hl)

end Split

theorem mem_cover_middle {left right : List (ℕ × ℕ)} {i : ℕ × ℕ} {n : ℕ} :
    n ∈ cover (left ++ i :: right) ↔ (i.1 ≤ n ∧ n ≤ i.2) ∨ n ∈ cover (left ++ right) := by
  simp only [mem_cover, List.mem_append, List.mem_cons]
  constructor
  · rintro ⟨j, hj | rfl | hj, hn⟩
    · exact Or.inr ⟨j, Or.inl hj, hn⟩
    · exact Or.inl hn
    · exact Or.inr ⟨j, Or.inr hj, hn⟩
  · rintro (hn | ⟨j, hj | hj, hn⟩)
    · exact ⟨i, Or.inr (Or.inl rfl), hn⟩
    · exact ⟨j, Or.inl hj, hn⟩
    · exact ⟨j, Or.inr (Or.inr hj), hn⟩

end Intervals
