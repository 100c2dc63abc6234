import Mathlib.Data.List.Infix
import Mathlib.Tactic.Cases

/-!
# What arrives, and when

Data arrive in pieces, and at times there is nothing yet. Who waits for as many as he wants gets the same
however they are cut, and what is left for the next is what is behind them.
-/

/-- Pieces, and the moments (`none`) at which nothing is there. -/
abbrev Arrivals (β : Type*) := List (Option (List β))

namespace Arrivals

variable {β : Type*}

/-- All that arrives. -/
def all (as : Arrivals β) : List β := as.flatMap fun a => a.getD []

/-- No piece is empty. -/
def Proper (as : Arrivals β) : Prop := some [] ∉ as

/-- The moments and the items: what a reader can go on for at most. -/
def weight (as : Arrivals β) : ℕ := as.length + as.all.length

/-- Waits for `n` more than `got`. None if it is over before. -/
def await : Arrivals β → ℕ → List β → Option (List β) × Arrivals β
  | [], n, got => (if n = 0 then some got else none, [])
  | none :: as, n, got => if n = 0 then (some got, none :: as) else await as n got
  | some bs :: as, n, got =>
    if n = 0 then (some got, some bs :: as)
    else if n < bs.length then (some (got ++ bs.take n), some (bs.drop n) :: as)
    else await as (n - bs.length) (got ++ bs)

@[simp] theorem all_nil : all ([] : Arrivals β) = [] := rfl

@[simp] theorem all_none (as : Arrivals β) : all (none :: as) = as.all := rfl

@[simp] theorem all_some (bs : List β) (as : Arrivals β) : all (some bs :: as) = bs ++ as.all := rfl

/-- Later on, there is less to come. -/
theorem all_suffix {as rest : Arrivals β} (h : rest <:+ as) : rest.all <:+ as.all := by
  obtain ⟨front, rfl⟩ := h
  exact ⟨all front, List.flatMap_append.symm⟩

theorem weight_suffix {as rest : Arrivals β} (h : rest <:+ as) : weight rest ≤ weight as :=
  Nat.add_le_add h.length_le (all_suffix h).length_le

theorem proper_none {as : Arrivals β} : Proper (none :: as) ↔ Proper as := by simp [Proper]

theorem proper_some {bs : List β} {as : Arrivals β} : Proper (some bs :: as) ↔ bs ≠ [] ∧ Proper as := by
  simp [Proper, eq_comm]

/-- **Who waits for what comes** gets it, and leaves what is behind it. -/
theorem await_of_le {as : Arrivals β} (h : Proper as) {n : ℕ} (hn : n ≤ as.all.length) (got : List β) :
    ∃ rest, as.await n got = (some (got ++ as.all.take n), rest) ∧ rest.all = as.all.drop n ∧
      Proper rest := by
  induction as generalizing n got with
  | nil =>
    obtain rfl : n = 0 := by simpa using hn
    exact ⟨[], by simp [await], rfl, h⟩
  | cons a as ih =>
    by_cases hzero : n = 0
    · subst hzero
      exact ⟨a :: as, by cases a <;> simp [await], by simp, h⟩
    cases a with
    | none =>
      rw [await, if_neg hzero]
      exact ih (proper_none.mp h) hn got
    | some bs =>
      obtain ⟨hbs, has⟩ := proper_some.mp h
      rw [all_some, List.length_append] at hn
      rw [await, if_neg hzero]
      split_ifs with hlt
      · refine ⟨some (bs.drop n) :: as, ?_, ?_, proper_some.mpr ⟨?_, has⟩⟩
        · rw [all_some, List.take_append_of_le_length hlt.le]
        · rw [all_some, all_some, List.drop_append_of_le_length hlt.le]
        · exact fun hnil => absurd (List.drop_eq_nil_iff.mp hnil) (not_le.mpr hlt)
      · have hle : bs.length ≤ n := not_lt.mp hlt
        obtain ⟨rest, hawait, hall, hproper⟩ := @ih has (n - bs.length) (by omega) (got ++ bs)
        refine ⟨rest, ?_, ?_, hproper⟩
        · rw [hawait, all_some, List.take_append, List.take_of_length_le hle, List.append_assoc]
        · rw [hall, all_some, List.drop_append, List.drop_of_length_le hle, List.nil_append]

/-- Who waits for more than what comes waits to its end. -/
theorem await_of_lt {as : Arrivals β} {n : ℕ} (hn : as.all.length < n) (got : List β) :
    as.await n got = (none, []) := by
  have hzero : n ≠ 0 := Nat.ne_of_gt (Nat.zero_lt_of_lt hn)
  induction as generalizing n got with
  | nil => rw [await, if_neg hzero]
  | cons a as ih =>
    cases a with
    | none =>
      rw [await, if_neg hzero]
      exact ih hn got hzero
    | some bs =>
      rw [all_some, List.length_append] at hn
      rw [await, if_neg hzero, if_neg (by omega)]
      exact ih (by omega) _ (by omega)

/-- What is waited for is paid for. -/
theorem weight_await {as rest : Arrivals β} {n : ℕ} {got bs : List β} (h : as.await n got = (some bs, rest)) :
    weight rest + n ≤ weight as := by
  induction as generalizing n got with
  | nil =>
    rw [await] at h
    split_ifs at h with hzero
    · rw [hzero, ← (Prod.mk.inj h).2]
      exact Nat.le_refl _
    · cases (Prod.mk.inj h).1
  | cons a as ih =>
    cases a with
    | none =>
      rw [await] at h
      split_ifs at h with hzero
      · rw [hzero, ← (Prod.mk.inj h).2]
        exact Nat.le_refl _
      · have hrest := ih h
        simp only [weight, all_none, List.length_cons] at hrest ⊢
        omega
    | some piece =>
      rw [await] at h
      split_ifs at h with hzero hlt
      · rw [hzero, ← (Prod.mk.inj h).2]
        exact Nat.le_refl _
      · rw [← (Prod.mk.inj h).2]
        simp only [weight, all_some, List.length_cons, List.length_append, List.length_drop]
        omega
      · have hrest := ih h
        simp only [weight, all_some, List.length_cons, List.length_append] at hrest ⊢
        omega

end Arrivals
