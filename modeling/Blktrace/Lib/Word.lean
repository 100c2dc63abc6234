import Mathlib

/-!
# Fixed-width words

The order on `UInt64`, as Mathlib's `LinearOrder`, so that order lemmas apply to machine words as
they stand; the difference of two words, which wraps; and the two halves a shift and a mask cut
a word into.
-/

instance wordLinearOrder : LinearOrder UInt64 where
  le := (· ≤ ·)
  lt := (· < ·)
  le_refl := UInt64.le_refl
  le_trans _ _ _ := UInt64.le_trans
  lt_iff_le_not_ge a b := by
    rw [UInt64.lt_iff_toNat_lt, UInt64.le_iff_toNat_le, UInt64.le_iff_toNat_le]
    omega
  le_antisymm _ _ := UInt64.le_antisymm
  le_total := UInt64.le_total
  min := min
  max := max
  min_def a b := rfl
  max_def a b := rfl
  toDecidableLE := inferInstance
  toDecidableEq := inferInstance
  toDecidableLT := inferInstance
  compare := compare
  compare_eq_compareOfLessAndEq a b := by
    simp only [compare, compareOfLessAndEq]

namespace Word

theorem le_max (a : UInt64) : a ≤ 0xffffffffffffffff := by
  have ha := a.toNat_lt
  have hmax : (0xffffffffffffffff : UInt64).toNat = 18446744073709551615 := by decide
  rw [UInt64.le_iff_toNat_le, hmax]
  omega

theorem toNat_sub_of_le {a b : UInt64} (h : b ≤ a) : (a - b).toNat = a.toNat - b.toNat :=
  UInt64.toNat_sub_of_le a b h

/-- A difference that wraps comes out above what it was taken from. -/
theorem lt_sub_of_lt {a b : UInt64} (h : a < b) : a < a - b := by
  have ha := a.toNat_lt
  have hb := b.toNat_lt
  rw [UInt64.lt_iff_toNat_lt] at h ⊢
  rw [UInt64.toNat_sub]
  omega

theorem sub_le_iff {a b : UInt64} : a - b ≤ a ↔ b ≤ a := by
  refine ⟨fun h => ?_, fun h => ?_⟩
  · by_contra hlt
    exact absurd h (not_le.mpr (lt_sub_of_lt (not_le.mp hlt)))
  · rw [UInt64.le_iff_toNat_le, toNat_sub_of_le h]
    omega

theorem sub_le_sub {a b c d : UInt64} (hd : d ≤ c) (hc : c ≤ a) (h : a ≤ b) : a - c ≤ b - d := by
  have hb := (hd.trans hc).trans h
  rw [UInt64.le_iff_toNat_le] at hd h ⊢
  rw [toNat_sub_of_le hc, toNat_sub_of_le hb]
  omega

theorem sub_mono {a b c : UInt64} (hc : c ≤ a) (h : a ≤ b) : a - c ≤ b - c :=
  sub_le_sub (le_refl c) hc h

/-- A number of 32 bits, and the one after it, as a word of 64. -/
theorem toNat_ofNat {n : ℕ} (h : n ≤ 2 ^ 32) : (UInt64.ofNat n).toNat = n :=
  UInt64.toNat_ofNat_of_lt' (lt_of_le_of_lt h (by decide))

/-! ## Signed words -/

theorem toInt_toInt64 {x : UInt64} (h : x.toNat < 2 ^ 63) : x.toInt64.toInt = x.toNat := by
  show x.toBitVec.toInt = x.toNat
  rw [BitVec.toInt_eq_toNat_of_lt]
  · rfl
  · show 2 * x.toNat < 2 ^ 64
    omega

theorem toInt_add {a b : Int64} (h : -2 ^ 63 ≤ a.toInt + b.toInt)
    (h' : a.toInt + b.toInt < 2 ^ 63) : (a + b).toInt = a.toInt + b.toInt := by
  rw [Int64.toInt_add]
  exact Int.bmod_eq_of_le (by omega) (by omega)

theorem toInt_sub {a b : Int64} (h : -2 ^ 63 ≤ a.toInt - b.toInt)
    (h' : a.toInt - b.toInt < 2 ^ 63) : (a - b).toInt = a.toInt - b.toInt := by
  rw [Int64.toInt_sub]
  exact Int.bmod_eq_of_le (by omega) (by omega)

theorem toNat_toUInt64 {a : Int64} (h : 0 ≤ a.toInt) : (a.toUInt64.toNat : ℤ) = a.toInt := by
  have h0 : (0 : Int64) ≤ a := by
    rw [Int64.le_iff_toInt_le]
    simpa using h
  rw [Int64.toNat_toUInt64_of_le h0]
  exact Int.toNat_of_nonneg h

/-! Sums and products of 32 bits that fit, and a sum that does not. -/

theorem toInt32_add {a b : Int32} (h : -2 ^ 31 ≤ a.toInt + b.toInt) (h' : a.toInt + b.toInt < 2 ^ 31) :
    (a + b).toInt = a.toInt + b.toInt := by
  rw [Int32.toInt_add]
  exact Int.bmod_eq_of_le (by omega) (by omega)

theorem toInt32_mul {a b : Int32} (h : -2 ^ 31 ≤ a.toInt * b.toInt) (h' : a.toInt * b.toInt < 2 ^ 31) :
    (a * b).toInt = a.toInt * b.toInt := by
  rw [Int32.toInt_mul]
  exact Int.bmod_eq_of_le (by omega) (by omega)

theorem toInt32_add_neg {a b : Int32} (h : 2 ^ 31 ≤ a.toInt + b.toInt) : (a + b).toInt < 0 := by
  have ha := a.toInt_lt
  have hb := b.toInt_lt
  rw [Int32.toInt_add, Int.bmod_def]
  split_ifs <;> omega

theorem toInt_toInt32 {x : UInt32} (h : x.toNat < 2 ^ 31) : x.toInt32.toInt = x.toNat := by
  show x.toBitVec.toInt = x.toNat
  rw [BitVec.toInt_eq_toNat_of_lt]
  · rfl
  · show 2 * x.toNat < 2 ^ 32
    omega

theorem toInt_toInt32_eq (x : UInt32) :
    x.toInt32.toInt = x.toNat - (if 2 ^ 31 ≤ x.toNat then 2 ^ 32 else 0) := by
  show x.toBitVec.toInt = x.toBitVec.toNat - (if 2 ^ 31 ≤ x.toBitVec.toNat then 2 ^ 32 else 0)
  rw [BitVec.toInt_eq_toNat_cond]
  have hlt := x.toBitVec.isLt
  split_ifs <;> omega

theorem toInt32_pos_iff (x : UInt32) : 0 < x.toInt32 ↔ 0 < x.toNat ∧ x.toNat < 2 ^ 31 := by
  rw [Int32.lt_iff_toInt_lt]
  show 0 < x.toBitVec.toInt ↔ 0 < x.toBitVec.toNat ∧ x.toBitVec.toNat < 2 ^ 31
  have hlt := x.toBitVec.isLt
  rw [BitVec.toInt_eq_toNat_cond]
  split_ifs with hhalf
  · omega
  · omega

theorem toInt64_nonneg_iff (x : UInt64) : 0 ≤ x.toInt64 ↔ x.toNat < 2 ^ 63 := by
  rw [Int64.le_iff_toInt_le]
  show 0 ≤ x.toBitVec.toInt ↔ x.toBitVec.toNat < 2 ^ 63
  have hlt := x.toBitVec.isLt
  rw [BitVec.toInt_eq_toNat_cond]
  split_ifs with hhalf
  · omega
  · omega

/-! ## Halves -/

/-- `x >> 10` and `x & 1023`: the quotient and the remainder by 1024. -/
theorem toNat_shiftRight_ten (x : UInt32) : (x >>> 10).toNat = x.toNat / 1024 := by
  simp [UInt32.toNat_shiftRight, Nat.shiftRight_eq_div_pow]

theorem toNat_and_1023 (x : UInt32) : (x &&& 1023).toNat = x.toNat % 1024 := by
  simpa [UInt32.toNat_and] using Nat.and_two_pow_sub_one_eq_mod x.toNat 10

/-- The shift of a signed word rounds down. -/
theorem toInt_shiftRight_ten (x : Int32) : (x >>> 10).toInt = x.toInt / 1024 := by
  show (x >>> 10).toBitVec.toInt = x.toBitVec.toInt / 1024
  have hten : (BitVec.smod (10 : Int32).toBitVec 32) = 10#32 := by decide
  rw [Int32.toBitVec_shiftRight, hten, BitVec.toInt_sshiftRight', Int.shiftRight_eq_div_pow]
  rfl

end Word
