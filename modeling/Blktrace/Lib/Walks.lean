import Mathlib.Algebra.Order.Archimedean.Basic
import Mathlib.Tactic.Cases

/-!
# Walks on a budget

A walk goes from place to place while it has budget left, and stops at a place that is outside. Every turn
costs the same and takes up what is found there; there can be nothing to be found, and no place to go on to.
Since a turn costs something the walk ends, and whether it ends well is told turn by turn.
-/

/-- A walk over the places `P`, which takes up members of `β`. -/
structure Walk (K P β : Type*) where
  cost : K
  inside : P → Prop
  next : P → Option P
  find : P → Option β

namespace Walk

section

variable {K P β : Type*} (w : Walk K P β)

/-- Where the walk is after `j` turns. -/
def place : ℕ → Option P → Option P
  | 0, p => p
  | j + 1, p => place j (p.bind w.next)

@[simp] theorem place_none (j : ℕ) : w.place j none = none := by
  induction j with
  | zero => rfl
  | succ j ih => exact ih

variable [AddCommGroup K] [LinearOrder K]

/-- The walk, of a number of turns at most. A place that there is not is no harm where the budget is spent. -/
def run [DecidablePred w.inside] : ℕ → Option P → K → Option (List β)
  | 0, _, _ => none
  | fuel + 1, p, budget =>
    if 0 < budget then
      p.bind fun q =>
        if w.inside q then
          (w.find q).bind fun x => (run fuel (w.next q) (budget - w.cost)).map (x :: ·)
        else some []
    else some []

/-- At every turn that is paid for, and comes behind turns that were inside, there is a place, and if it is
inside then what is found there is right. -/
def Clear (R : β → Prop) (p : Option P) (budget : K) : Prop :=
  ∀ j : ℕ, j • w.cost < budget → (∀ i < j, ∃ q, w.place i p = some q ∧ w.inside q) →
    ∃ q, w.place j p = some q ∧ (w.inside q → ∃ x, w.find q = some x ∧ R x)

end

variable {K P β : Type*} [AddCommGroup K] [LinearOrder K] [IsOrderedAddMonoid K] {w : Walk K P β}
  {R : β → Prop} {p : Option P} {budget : K}

theorem clear_of_spent (hcost : 0 < w.cost) (h : ¬ 0 < budget) : w.Clear R p budget := by
  intro j hpaid
  have hnonneg : 0 ≤ j • w.cost := nsmul_nonneg hcost.le j
  exact absurd (hnonneg.trans_lt hpaid) h

/-- A turn, and then the rest. -/
theorem clear_iff (h : 0 < budget) :
    w.Clear R p budget ↔ ∃ q, p = some q ∧
      (w.inside q → (∃ x, w.find q = some x ∧ R x) ∧ w.Clear R (w.next q) (budget - w.cost)) := by
  constructor
  · intro hclear
    obtain ⟨q, hq, hfind⟩ := hclear 0 (by rwa [zero_nsmul]) nofun
    obtain rfl : p = some q := hq
    refine ⟨q, rfl, fun hinside => ⟨hfind hinside, fun j hpaid hbefore => ?_⟩⟩
    have hrest := hclear (j + 1) (by rwa [succ_nsmul, ← lt_sub_iff_add_lt])
    apply hrest
    intro i hi
    cases i with
    | zero => exact ⟨q, rfl, hinside⟩
    | succ i => exact hbefore i (Nat.lt_of_succ_lt_succ hi)
  · rintro ⟨q, rfl, hturn⟩ j hpaid hbefore
    cases j with
    | zero => exact ⟨q, rfl, fun hinside => (hturn hinside).1⟩
    | succ j =>
      obtain ⟨q', hq', hinside⟩ := hbefore 0 (Nat.succ_pos j)
      obtain rfl : q = q' := Option.some.inj hq'
      rw [succ_nsmul, ← lt_sub_iff_add_lt] at hpaid
      refine (hturn hinside).2 j hpaid fun i hi => ?_
      exact hbefore (i + 1) (Nat.succ_lt_succ hi)

variable [DecidablePred w.inside]

theorem clear_of_run (hcost : 0 < w.cost) {fuel : ℕ} {xs : List β} (h : w.run fuel p budget = some xs)
    (hR : ∀ x ∈ xs, R x) : w.Clear R p budget := by
  induction fuel generalizing p budget xs with
  | zero => nomatch h
  | succ fuel ih =>
    rw [run] at h
    by_cases hpos : 0 < budget
    · rw [if_pos hpos] at h
      obtain ⟨q, rfl, hturn⟩ := Option.bind_eq_some_iff.mp h
      refine (clear_iff hpos).mpr ⟨q, rfl, fun hinside => ?_⟩
      rw [if_pos hinside] at hturn
      obtain ⟨x, hfind, hrest⟩ := Option.bind_eq_some_iff.mp hturn
      obtain ⟨ys, hrun, rfl⟩ := Option.map_eq_some_iff.mp hrest
      obtain ⟨hx, hys⟩ := List.forall_mem_cons.mp hR
      exact ⟨⟨x, hfind, hx⟩, ih hrun hys⟩
    · exact clear_of_spent hcost hpos

theorem run_of_clear (n : ℕ) (hn : budget ≤ n • w.cost) (h : w.Clear R p budget) :
    ∃ xs, w.run (n + 1) p budget = some xs ∧ ∀ x ∈ xs, R x := by
  induction n generalizing p budget with
  | zero =>
    rw [zero_nsmul] at hn
    rw [run, if_neg (not_lt.mpr hn)]
    exact ⟨[], rfl, nofun⟩
  | succ n ih =>
    rw [run]
    by_cases hpos : 0 < budget
    · obtain ⟨q, rfl, hturn⟩ := (clear_iff hpos).mp h
      rw [if_pos hpos, Option.bind_some]
      by_cases hinside : w.inside q
      · obtain ⟨⟨x, hfind, hx⟩, hrest⟩ := hturn hinside
        rw [succ_nsmul, ← sub_le_iff_le_add] at hn
        obtain ⟨xs, hrun, hxs⟩ := ih hn hrest
        rw [if_pos hinside, hfind, Option.bind_some, hrun]
        exact ⟨x :: xs, rfl, List.forall_mem_cons.mpr ⟨hx, hxs⟩⟩
      · rw [if_neg hinside]
        exact ⟨[], rfl, nofun⟩
    · rw [if_neg hpos]
      exact ⟨[], rfl, nofun⟩

/-- **A walk ends well** just if it is clear. -/
theorem exists_run_iff [Archimedean K] (hcost : 0 < w.cost) :
    (∃ fuel xs, w.run fuel p budget = some xs ∧ ∀ x ∈ xs, R x) ↔ w.Clear R p budget := by
  constructor
  · rintro ⟨fuel, xs, hrun, hxs⟩
    exact clear_of_run hcost hrun hxs
  · intro hclear
    obtain ⟨n, hn⟩ := Archimedean.arch budget hcost
    exact ⟨n + 1, run_of_clear n hn hclear⟩

end Walk
