import Mathlib.Algebra.BigOperators.Group.Finset.Piecewise
import Mathlib.Algebra.BigOperators.Ring.Finset
import Mathlib.Algebra.Order.BigOperators.Group.Finset
import Mathlib.Tactic.Cases

/-!
# Spans in buckets

A span begins in one bucket and ends in another. A bucket counts the ends that it has, of a span that is in
it as a whole both. A bucket that has more ends than all the others together has a span as a whole.
-/

namespace Buckets

variable {α : Type*} {n k : ℕ} {first last : α → ℕ} {spans : List α}

/-- How many ends a bucket has. -/
def hits (first last : α → ℕ) (spans : List α) (k : ℕ) : ℕ :=
  spans.countP (fun a => first a = k) + spans.countP (fun a => last a = k)

@[simp] theorem hits_nil : hits first last [] k = 0 := rfl

theorem hits_cons (a : α) : hits first last (a :: spans) k =
    hits first last spans k + ((if first a = k then 1 else 0) + if last a = k then 1 else 0) := by
  rw [hits, hits, List.countP_cons, List.countP_cons]
  simp only [decide_eq_true_eq]
  omega

theorem hits_concat (a : α) : hits first last (spans ++ [a]) k =
    hits first last spans k + ((if first a = k then 1 else 0) + if last a = k then 1 else 0) := by
  rw [hits, hits, List.countP_append, List.countP_append, List.countP_singleton, List.countP_singleton]
  simp only [decide_eq_true_eq]
  omega

/-- Every span has two ends. -/
theorem sum_hits (h : ∀ a ∈ spans, first a < n ∧ last a < n) :
    ∑ k ∈ Finset.range n, hits first last spans k = 2 * spans.length := by
  induction spans with
  | nil => simp
  | cons a spans ih =>
    obtain ⟨⟨hfirst, hlast⟩, hrest⟩ := List.forall_mem_cons.mp h
    simp only [hits_cons, Finset.sum_add_distrib, ih hrest]
    rw [Finset.sum_ite_eq, Finset.sum_ite_eq, if_pos (Finset.mem_range.mpr hfirst),
      if_pos (Finset.mem_range.mpr hlast), List.length_cons]
    omega

/-- A bucket with no span as a whole has one end of a span at most. -/
theorem hits_le_length (h : ∀ a ∈ spans, first a = k → last a ≠ k) :
    hits first last spans k ≤ spans.length := by
  induction spans with
  | nil => simp
  | cons a spans ih =>
    obtain ⟨ha, hrest⟩ := List.forall_mem_cons.mp h
    have hle := ih hrest
    rw [hits_cons, List.length_cons]
    by_cases hfirst : first a = k
    · rw [if_pos hfirst, if_neg (ha hfirst)]
      omega
    · rw [if_neg hfirst]
      split_ifs <;> omega

/-- **More ends than all the others together**: there is a span as a whole. -/
theorem exists_whole (hk : k < n) (h : ∀ a ∈ spans, first a < n ∧ last a < n)
    (hmore : ∑ j ∈ (Finset.range n).erase k, hits first last spans j < hits first last spans k) :
    ∃ a ∈ spans, first a = k ∧ last a = k := by
  by_contra hnone
  have hone : hits first last spans k ≤ spans.length :=
    hits_le_length fun a ha hfirst hlast => hnone ⟨a, ha, hfirst, hlast⟩
  have hsum := Finset.add_sum_erase (Finset.range n) (hits first last spans) (Finset.mem_range.mpr hk)
  rw [sum_hits h] at hsum
  omega

/-- So it is where the others have little each. -/
theorem sum_erase_lt {c : ℕ} (hk : k < n) (hc : n ≤ c) (hpos : 0 < hits first last spans k)
    (h : ∀ j < n, j ≠ k → c * hits first last spans j < hits first last spans k) :
    ∑ j ∈ (Finset.range n).erase k, hits first last spans j < hits first last spans k := by
  have hle : c * ∑ j ∈ (Finset.range n).erase k, hits first last spans j ≤
      (n - 1) * hits first last spans k := by
    have hcard : ((Finset.range n).erase k).card = n - 1 := by
      rw [Finset.card_erase_of_mem (Finset.mem_range.mpr hk), Finset.card_range]
    have hall : ∀ j ∈ (Finset.range n).erase k,
        c * hits first last spans j ≤ hits first last spans k := by
      intro j hj
      rw [Finset.mem_erase, Finset.mem_range] at hj
      exact (h j hj.2 hj.1).le
    have hle := Finset.sum_le_card_nsmul _ _ _ hall
    rw [hcard, nsmul_eq_mul, Nat.cast_id] at hle
    rw [Finset.mul_sum]
    exact hle
  by_contra hge
  have hmul := Nat.mul_le_mul_left c (not_lt.mp hge)
  have hmore : (n - 1) * hits first last spans k < c * hits first last spans k :=
    Nat.mul_lt_mul_of_pos_right (by omega) hpos
  omega

end Buckets
