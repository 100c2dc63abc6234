import Blktrace.Lib.Runs

/-!
# Systems side by side

Many copies of a system, each under a key. A step is a step of one of them, and a run of them all is,
under each key, the run of the steps that are its own.
-/

namespace Runs

variable {σ α κ : Type*} [DecidableEq κ] (step : σ → α → Option σ)

/-- A step of the system under a key. -/
def side (s : κ → σ) (a : κ × α) : Option (κ → σ) :=
  (step (s a.1) a.2).map (Function.update s a.1)

/-- The steps that are those of a key. -/
def own (k : κ) (acts : List (κ × α)) : List α :=
  (acts.filter fun a => a.1 = k).map Prod.snd

theorem own_append (k : κ) (as bs : List (κ × α)) : own k (as ++ bs) = own k as ++ own k bs := by
  rw [own, List.filter_append, List.map_append]
  rfl

theorem own_map (k k' : κ) (as : List α) : own k (as.map (Prod.mk k')) = if k' = k then as else [] := by
  by_cases hk : k' = k <;> simp [own, hk, List.filter_map, Function.comp_def]

theorem own_cons (k : κ) (a : κ × α) (acts : List (κ × α)) :
    own k (a :: acts) = if a.1 = k then a.2 :: own k acts else own k acts := by
  unfold own
  split_ifs with hk
  · rw [List.filter_cons_of_pos (by simpa using hk), List.map_cons]
  · rw [List.filter_cons_of_neg (by simpa using hk)]

theorem side_getD (s : κ → σ) (a : κ × α) :
    (side step s a).getD s = Function.update s a.1 ((step (s a.1) a.2).getD (s a.1)) := by
  unfold side
  cases step (s a.1) a.2 with
  | none => exact (Function.update_eq_self a.1 s).symm
  | some s' => rfl

/-- **Side by side nothing is shared.** -/
theorem run_side (s : κ → σ) (acts : List (κ × α)) (k : κ) :
    run (side step) s acts k = run step (s k) (own k acts) := by
  induction acts generalizing s with
  | nil => rfl
  | cons a acts ih =>
    rw [run_cons, ih, side_getD, own_cons]
    split_ifs with hk
    · subst hk
      rw [Function.update_self, run_cons]
    · rw [Function.update_of_ne (Ne.symm hk)]

end Runs
