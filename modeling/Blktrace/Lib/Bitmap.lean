import Mathlib.Data.UInt
import Mathlib.Data.Nat.Bitwise
import Mathlib.Logic.Function.Basic
import Mathlib.Tactic.Cases

/-!
# Bitmaps

A set of numbers in words of 64 bits: number `n` is bit `n % 64` of word `n / 64`.
-/

namespace Bitmap

/-- The bit of a number in its word. -/
def bit (n : ℕ) : UInt64 := 1 <<< UInt64.ofNat (n % 64)

/-- The number is in the set. -/
def Has (map : ℕ → UInt64) (n : ℕ) : Prop := (map (n / 64)).toBitVec.getLsbD (n % 64) = true

instance (map : ℕ → UInt64) (n : ℕ) : Decidable (Has map n) := inferInstanceAs (Decidable (_ = true))

def add (map : ℕ → UInt64) (n : ℕ) : ℕ → UInt64 := Function.update map (n / 64) (map (n / 64) ||| bit n)

def remove (map : ℕ → UInt64) (n : ℕ) : ℕ → UInt64 :=
  Function.update map (n / 64) (map (n / 64) &&& ~~~ bit n)

theorem getLsbD_bit (n : ℕ) {j : ℕ} (hj : j < 64) : (bit n).toBitVec.getLsbD j = decide (j = n % 64) := by
  have hlt : n % 64 < 64 := Nat.mod_lt _ (by decide)
  have hshift : ((UInt64.ofNat (n % 64)).toBitVec % 64).toNat = n % 64 := by simp
  have hone : (1 : UInt64).toBitVec = 1#64 := rfl
  rw [bit, UInt64.toBitVec_shiftLeft, BitVec.getLsbD_shiftLeft', hshift, hone, BitVec.getLsbD_one]
  by_cases heq : j = n % 64
  · simp [heq, hlt]
  · have hbits : ¬ (n % 64 ≤ j ∧ j - n % 64 = 0) := by omega
    simpa [heq, hj] using hbits

theorem not_has_zero (n : ℕ) : ¬ Has (fun _ => 0) n := by simp [Has]

theorem has_add (map : ℕ → UInt64) (n m : ℕ) : Has (add map n) m ↔ m = n ∨ Has map m := by
  have hlt : m % 64 < 64 := Nat.mod_lt _ (by decide)
  rw [Has, Has, add]
  by_cases hword : m / 64 = n / 64
  · rw [hword, Function.update_self, UInt64.toBitVec_or, BitVec.getLsbD_or, getLsbD_bit n hlt,
      Bool.or_eq_true, decide_eq_true_iff, or_comm]
    have hsame : m % 64 = n % 64 ↔ m = n := by omega
    rw [hsame]
  · rw [Function.update_of_ne hword, or_iff_right]
    rintro rfl
    exact hword rfl

theorem has_remove (map : ℕ → UInt64) (n m : ℕ) : Has (remove map n) m ↔ m ≠ n ∧ Has map m := by
  have hlt : m % 64 < 64 := Nat.mod_lt _ (by decide)
  rw [Has, Has, remove]
  by_cases hword : m / 64 = n / 64
  · rw [hword, Function.update_self, UInt64.toBitVec_and, BitVec.getLsbD_and, UInt64.toBitVec_not,
      BitVec.getLsbD_not, getLsbD_bit n hlt]
    have hsame : m % 64 = n % 64 ↔ m = n := by omega
    simp [hlt, hsame, and_comm]
  · rw [Function.update_of_ne hword, and_iff_right]
    rintro rfl
    exact hword rfl

/-- A word is not all in another just if one of its bits is not. -/
theorem and_not_ne_zero (a b : UInt64) :
    a &&& ~~~ b ≠ 0 ↔ ∃ j < 64, a.toBitVec.getLsbD j = true ∧ b.toBitVec.getLsbD j = false := by
  have hzero : a &&& ~~~ b = 0 ↔ (a &&& ~~~ b).toBitVec = 0#64 := by
    rw [← UInt64.toBitVec_inj]
    rfl
  rw [ne_eq, hzero, BitVec.eq_of_getLsbD_eq_iff, not_forall]
  refine exists_congr fun j => ?_
  rw [Classical.not_imp]
  refine and_congr_right fun hj => ?_
  simp [hj]

/-- **The words of one set that are not in another** have a number that is not. -/
theorem any_words (a b : ℕ → UInt64) (size : ℕ) :
    ((List.range size).any fun i => a i &&& ~~~ b i != 0) = true ↔
      ∃ n < size * 64, Has a n ∧ ¬ Has b n := by
  rw [List.any_eq_true]
  constructor
  · rintro ⟨i, hi, hne⟩
    rw [bne_iff_ne, and_not_ne_zero] at hne
    obtain ⟨j, hj, ha, hb⟩ := hne
    have hdiv : (i * 64 + j) / 64 = i := by omega
    have hmod : (i * 64 + j) % 64 = j := by omega
    have hlt := List.mem_range.mp hi
    refine ⟨i * 64 + j, by omega, ?_, ?_⟩
    · rw [Has, hdiv, hmod]
      exact ha
    · rw [Has, hdiv, hmod, hb]
      exact Bool.false_ne_true
  · rintro ⟨n, hn, ha, hb⟩
    refine ⟨n / 64, List.mem_range.mpr (by omega), ?_⟩
    rw [bne_iff_ne, and_not_ne_zero]
    exact ⟨n % 64, Nat.mod_lt _ (by decide), ha, by simpa [Has] using hb⟩

end Bitmap
