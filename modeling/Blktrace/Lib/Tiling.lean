import Mathlib

/-!
# Windows end to end

Windows of given lengths are laid one behind another, in numbers that begin anew at a bound. None of them
empty, they lie apart just as long as all begin below the bound.
-/

namespace Tiling

/-- The windows from `start` on, by their starts and lengths. -/
def tiles (bound : ℕ) : ℕ → List ℕ → List (ℕ × ℕ)
  | _, [] => []
  | start, len :: lens => (start, len) :: tiles bound ((start + len) % bound) lens

/-- No number is in both. -/
def Apart (v w : ℕ × ℕ) : Prop := v.1 + v.2 ≤ w.1 ∨ w.1 + w.2 ≤ v.1

/-- Each window, laid where those before it end, begins below the bound. -/
def Below (bound start : ℕ) (lens : List ℕ) : Prop := ∀ i < lens.length, start + (lens.take i).sum < bound

variable {bound start len : ℕ} {lens : List ℕ}

theorem below_cons : Below bound start (len :: lens) ↔ start < bound ∧ Below bound (start + len) lens := by
  constructor
  · intro h
    refine ⟨h 0 (Nat.succ_pos _), fun i hi => ?_⟩
    have hlt := h (i + 1) (Nat.succ_lt_succ hi)
    rwa [List.take_succ_cons, List.sum_cons, ← Nat.add_assoc] at hlt
  · rintro ⟨hstart, h⟩ i hi
    cases i with
    | zero => exact hstart
    | succ i =>
      rw [List.take_succ_cons, List.sum_cons, ← Nat.add_assoc]
      exact h i (Nat.lt_of_succ_lt_succ hi)

/-- The bound is not noticed. -/
theorem tiles_of_below (h : Below bound start (len :: lens)) :
    tiles bound start (len :: lens) = (start, len) :: tiles bound (start + len) lens := by
  rw [tiles]
  cases lens with
  | nil => rfl
  | cons next lens =>
    obtain ⟨-, hrest⟩ := below_cons.mp h
    rw [Nat.mod_eq_of_lt (below_cons.mp hrest).1]

theorem getElem?_tiles {i : ℕ} (h : Below bound start lens) (hlen : lens[i]? = some len) :
    (tiles bound start lens)[i]? = some (start + (lens.take i).sum, len) := by
  induction lens generalizing start i with
  | nil => nomatch hlen
  | cons first lens ih =>
    rw [tiles_of_below h]
    cases i with
    | zero =>
      obtain rfl := Option.some.inj hlen
      rfl
    | succ i =>
      rw [List.getElem?_cons_succ, ih (below_cons.mp h).2 hlen, List.take_succ_cons, List.sum_cons,
        Nat.add_assoc]

theorem apart_of_below (h : Below bound start lens) :
    (∀ w ∈ tiles bound start lens, start ≤ w.1) ∧ (tiles bound start lens).Pairwise Apart := by
  induction lens generalizing start with
  | nil => exact ⟨nofun, .nil⟩
  | cons len lens ih =>
    obtain ⟨hbehind, hapart⟩ := ih (below_cons.mp h).2
    rw [tiles_of_below h, List.forall_mem_cons, List.pairwise_cons]
    refine ⟨⟨Nat.le_refl _, fun w hw => ?_⟩, fun w hw => .inl (hbehind w hw), hapart⟩
    exact Nat.le_of_add_right_le (hbehind w hw)

theorem len_mem {w : ℕ × ℕ} (h : w ∈ tiles bound start lens) : w.2 ∈ lens := by
  induction lens generalizing start with
  | nil => nomatch h
  | cons len lens ih =>
    rcases List.mem_cons.mp h with rfl | h
    · exact List.mem_cons_self
    · exact List.mem_cons_of_mem len (ih h)

theorem below_of_apart (hpos : ∀ len ∈ lens, 0 < len) (hstart : start < bound)
    (hbehind : ∀ w ∈ tiles bound start lens, start ≤ w.1)
    (hapart : (tiles bound start lens).Pairwise Apart) : Below bound start lens := by
  induction lens generalizing start with
  | nil => exact fun i hi => absurd hi (Nat.not_lt_zero i)
  | cons len lens ih =>
    obtain ⟨hlen, hlens⟩ := List.forall_mem_cons.mp hpos
    rw [tiles] at hbehind hapart
    obtain ⟨-, hrest⟩ := List.forall_mem_cons.mp hbehind
    obtain ⟨hfirst, hapart⟩ := List.pairwise_cons.mp hapart
    refine below_cons.mpr ⟨hstart, ?_⟩
    have hclear : ∀ w ∈ tiles bound ((start + len) % bound) lens, start + len ≤ w.1 := by
      intro w hw
      have hw2 := hlens w.2 (len_mem hw)
      have hle := hrest w hw
      rcases hfirst w hw with h | h
      · exact h
      · exact absurd (Nat.le_trans h hle) (Nat.not_le.mpr (Nat.lt_add_of_pos_right hw2))
    cases lens with
    | nil => exact fun i hi => absurd hi (Nat.not_lt_zero i)
    | cons next lens =>
      -- the next window would begin among those before it
      have hnext : start + len < bound :=
        Nat.lt_of_le_of_lt (hclear _ List.mem_cons_self) (Nat.mod_lt _ (Nat.zero_lt_of_lt hstart))
      rw [Nat.mod_eq_of_lt hnext] at hclear hapart
      exact ih hlens hnext hclear hapart

/-- **Windows that are not empty lie apart** just if all begin below the bound. -/
theorem apart_iff (hpos : ∀ len ∈ lens, 0 < len) (hbound : 0 < bound) :
    (tiles bound 0 lens).Pairwise Apart ↔ Below bound 0 lens :=
  ⟨below_of_apart hpos hbound fun w _ => Nat.zero_le w.1, fun h => (apart_of_below h).2⟩

end Tiling
