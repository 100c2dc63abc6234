import Mathlib.Tactic.Cases
import Mathlib.Algebra.BigOperators.Group.Finset.Basic

/-!
# Runs of a system

A scheduler chooses the steps. A choice that is not enabled changes nothing, so every list of
choices is a run.
-/

namespace Runs

variable {σ α : Type*} (step : σ → α → Option σ)

/-- The state that the choices lead to. -/
def run (s : σ) (acts : List α) : σ := acts.foldl (fun s a => (step s a).getD s) s

@[simp] theorem run_nil (s : σ) : run step s [] = s := rfl

@[simp] theorem run_cons (s : σ) (a : α) (acts : List α) :
    run step s (a :: acts) = run step ((step s a).getD s) acts := rfl

theorem run_append (s : σ) (as bs : List α) :
    run step s (as ++ bs) = run step (run step s as) bs := List.foldl_append

/-- All steps that a run takes meet a condition on the state that they are taken in. -/
def Along (ok : σ → α → Prop) (s : σ) (acts : List α) : Prop :=
  ∀ as a bs, acts = as ++ a :: bs → ok (run step s as) a

variable {step}

theorem Along.nil {ok : σ → α → Prop} (s : σ) : Along step ok s [] := by
  intro as a bs h
  simp at h

theorem along_cons {ok : σ → α → Prop} {s : σ} {a : α} {acts : List α} :
    Along step ok s (a :: acts) ↔ ok s a ∧ Along step ok ((step s a).getD s) acts := by
  constructor
  · intro h
    refine ⟨h [] a acts rfl, fun as b bs hacts => ?_⟩
    exact h (a :: as) b bs (by rw [hacts, List.cons_append])
  · rintro ⟨hok, hrest⟩ as b bs hacts
    cases as with
    | nil =>
      obtain ⟨rfl, -⟩ := List.cons.inj hacts
      exact hok
    | cons c as =>
      rw [List.cons_append] at hacts
      obtain ⟨rfl, htail⟩ := List.cons.inj hacts
      exact hrest as b bs htail

theorem along_append {ok : σ → α → Prop} {s : σ} {as bs : List α} :
    Along step ok s (as ++ bs) ↔ Along step ok s as ∧ Along step ok (run step s as) bs := by
  induction as generalizing s with
  | nil => exact ⟨fun h => ⟨.nil s, h⟩, And.right⟩
  | cons a as ih => rw [List.cons_append, along_cons, along_cons, ih, and_assoc, run_cons]

instance decidableAlong (ok : σ → α → Prop) [∀ s a, Decidable (ok s a)] :
    ∀ (s : σ) (acts : List α), Decidable (Along step ok s acts)
  | s, [] => .isTrue (.nil s)
  | s, a :: acts =>
    have := decidableAlong ok ((step s a).getD s) acts
    decidable_of_iff _ along_cons.symm

/-- The rule of invariants. -/
theorem run_invariant_of {ok : σ → α → Prop} {P : σ → Prop}
    (hstep : ∀ s a s', P s → ok s a → step s a = some s' → P s') {s : σ} {acts : List α}
    (hok : Along step ok s acts) (h : P s) : P (run step s acts) := by
  induction acts generalizing s with
  | nil => exact h
  | cons a acts ih =>
    obtain ⟨ha, hrest⟩ := along_cons.mp hok
    apply ih hrest
    cases hs : step s a with
    | none => exact h
    | some s' => exact hstep s a s' h ha hs

/-- While the invariant holds, one condition follows from another. -/
theorem Along.of_invariant {ok ok' : σ → α → Prop} {P : σ → Prop}
    (hstep : ∀ s a s', P s → ok s a → step s a = some s' → P s')
    (himp : ∀ s a, P s → ok s a → ok' s a) {s : σ} {acts : List α} (hok : Along step ok s acts)
    (h : P s) : Along step ok' s acts := by
  rintro as a bs rfl
  obtain ⟨has, hrest⟩ := along_append.mp hok
  exact himp _ a (run_invariant_of hstep has h) (along_cons.mp hrest).1

theorem run_invariant {P : σ → Prop} (hstep : ∀ s a s', P s → step s a = some s' → P s')
    {s : σ} (h : P s) (acts : List α) : P (run step s acts) :=
  run_invariant_of (fun s a s' hs _ hs' => hstep s a s' hs hs')
    (show Along step (fun _ _ => True) s acts from fun _ _ _ _ => trivial) h

/-- The rule of termination: while `P`, the choices in `p` count down, and nothing counts up. A run
that has as many of them ends in `Q`. -/
theorem run_ends {P Q : σ → Prop} {p : α → Bool} (hp : ∃ a, p a) (μ : σ → ℕ)
    (hdown : ∀ s a, p a → P s → ¬ Q s → ∃ s', step s a = some s' ∧ P s' ∧ μ s' < μ s)
    (hothers : ∀ s a s', P s → step s a = some s' → P s' ∧ μ s' ≤ μ s ∧ (Q s → Q s'))
    {s : σ} (h : P s) {acts : List α} (hfair : μ s ≤ acts.countP p) : Q (run step s acts) := by
  have hstays : ∀ s, P s → Q s → ∀ acts, Q (run step s acts) := by
    intro s hP hQ acts
    refine (run_invariant (P := fun s => P s ∧ Q s) ?_ ⟨hP, hQ⟩ acts).2
    intro s b s' hs hb
    obtain ⟨hP', -, hQ'⟩ := hothers s b s' hs.1 hb
    exact ⟨hP', hQ' hs.2⟩
  induction acts generalizing s with
  | nil =>
    by_contra hQ
    obtain ⟨a, ha⟩ := hp
    obtain ⟨s', -, -, hlt⟩ := hdown s a ha h hQ
    exact absurd (lt_of_lt_of_le hlt hfair) (Nat.not_lt_zero _)
  | cons a acts ih =>
    by_cases hQ : Q s
    · exact hstays s h hQ _
    rw [run_cons]
    by_cases ha : p a = true
    · obtain ⟨s', hs', hP', hlt⟩ := hdown s a ha h hQ
      rw [hs']
      apply ih hP'
      rw [List.countP_cons_of_pos ha] at hfair
      omega
    · rw [List.countP_cons_of_neg ha] at hfair
      cases hs : step s a with
      | none => exact ih h hfair
      | some s' =>
        obtain ⟨hP', hle, -⟩ := hothers s a s' h hs
        exact ih hP' (le_trans hle hfair)

/-- However the choices in `p` fall out, `Q` comes. -/
inductive Inevitable (step : σ → α → Option σ) (p : α → Prop) (Q : σ → Prop) : σ → Prop
  | here {s : σ} (h : Q s) : Inevitable step p Q s
  | next {s : σ} (hen : ∃ a s', p a ∧ step s a = some s')
      (hall : ∀ a s', p a → step s a = some s' → Inevitable step p Q s') : Inevitable step p Q s

/-- While `P`, a step is enabled, and all of them count down. -/
theorem Inevitable.of_measure {p : α → Prop} {P Q : σ → Prop} (μ : σ → ℕ)
    (hen : ∀ s, P s → ¬ Q s → ∃ a s', p a ∧ step s a = some s')
    (hdown : ∀ s a s', P s → ¬ Q s → p a → step s a = some s' → P s' ∧ μ s' < μ s)
    {s : σ} (h : P s) : Inevitable step p Q s := by
  induction hn : μ s using Nat.strong_induction_on generalizing s with
  | _ n ih =>
    by_cases hQ : Q s
    · exact .here hQ
    · refine .next (hen s h hQ) fun a s' ha hs' => ?_
      obtain ⟨hP', hlt⟩ := hdown s a s' h hQ ha hs'
      exact ih (μ s') (hn ▸ hlt) hP' rfl

/-- Where one term of a sum is put in place of another. -/
theorem sum_update {ι M : Type*} [DecidableEq ι] [AddCommMonoid M] {t : Finset ι} {i : ι}
    (hi : i ∈ t) (f : ι → M) (m : M) :
    ∑ j ∈ t, Function.update f i m j + f i = ∑ j ∈ t, f j + m := by
  have hrest : ∑ j ∈ t.erase i, Function.update f i m j = ∑ j ∈ t.erase i, f j := by
    apply Finset.sum_congr rfl
    intro j hj
    exact Function.update_of_ne (Finset.ne_of_mem_erase hj) m f
  rw [← Finset.sum_erase_add t _ hi, ← Finset.sum_erase_add t f hi, hrest, Function.update_self,
    add_right_comm]

end Runs
