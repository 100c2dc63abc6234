import Blktrace.Lib.Word

/-!
# Counters that wrap

A 64-bit counter that is added to and subtracted from is an integer, up to multiples of 2^64. Where
a total is kept in two counters, as so many units of a size and a rest, they give the total back
as an integer just if what they lost that way cancels.
-/

namespace Word

/-- The counter `x` stands for the integer `z`. -/
def Wraps (x : UInt64) (z : ℤ) : Prop := (x.toNat : ℤ) = z % 2 ^ 64

theorem wraps_zero : Wraps 0 0 := rfl

theorem wraps_toNat (x : UInt64) : Wraps x x.toNat := by
  have hlt := x.toNat_lt
  rw [Wraps, Int.emod_eq_of_lt (by omega) (by omega)]

theorem Wraps.add {x y : UInt64} {z w : ℤ} (hx : Wraps x z) (hy : Wraps y w) :
    Wraps (x + y) (z + w) := by
  rw [Wraps] at *
  rw [UInt64.toNat_add]
  push_cast
  omega

theorem Wraps.sub {x y : UInt64} {z w : ℤ} (hx : Wraps x z) (hy : Wraps y w) :
    Wraps (x - y) (z - w) := by
  have hlt := y.toNat_lt
  rw [Wraps] at *
  rw [UInt64.toNat_sub, Int.natCast_mod, Int.natCast_add, Int.natCast_sub (by omega)]
  push_cast
  omega

theorem Wraps.const_mul {x : UInt64} {z : ℤ} (n : UInt64) (hx : Wraps x z) : Wraps (n * x) (n.toNat * z) := by
  rw [Wraps] at *
  rw [UInt64.toNat_mul, Int.natCast_mod, Int.natCast_mul, hx]
  exact (Int.mod_modEq z (2 ^ 64)).mul_left _

theorem Wraps.congr {x y : UInt64} {z : ℤ} (hx : Wraps x z) (hy : Wraps y z) : x = y := by
  rw [Wraps] at *
  exact UInt64.toNat_inj.mp (by omega)

/-- A 32-bit word taken for signed, as a word of 64 bits: the upper half is lost below 0. -/
theorem wraps_toInt64 (x : Int32) : Wraps x.toInt64.toUInt64 x.toInt := by
  rw [Wraps]
  show (x.toInt64.toBitVec.toNat : ℤ) = _
  have hsign : x.toInt64.toBitVec.toInt = x.toInt := Int32.toInt_toInt64 x
  have hcond := BitVec.toInt_eq_toNat_cond x.toInt64.toBitVec
  rw [hsign] at hcond
  have hlt := x.toInt64.toBitVec.isLt
  split at hcond <;> omega

/-- The quotient by 1024 of a 32-bit word taken for signed. -/
theorem wraps_shiftRight (x : UInt32) : Wraps (x.toInt32 >>> 10).toInt64.toUInt64
    ((x.toNat / 1024 : ℕ) - (if 2 ^ 31 ≤ x.toNat then 2 ^ 22 else 0)) := by
  have h := wraps_toInt64 (x.toInt32 >>> 10)
  rw [toInt_shiftRight_ten, toInt_toInt32_eq] at h
  convert h using 1
  split_ifs <;> omega

theorem wraps_and (x : UInt32) :
    Wraps (x.toInt32 &&& 1023).toInt64.toUInt64 (x.toNat % 1024 : ℕ) := by
  have h := wraps_toInt64 (x.toInt32 &&& 1023)
  have hand : (x.toInt32 &&& 1023) = (x &&& 1023).toInt32 := rfl
  have hlow := toNat_and_1023 x
  rw [hand, toInt_toInt32 (by omega), hlow] at h
  exact h

/-- **A total kept in two counters.** `high` units of 1024 and a rest of `low` are in the counters, the
former short of `lost`. They give the total back just if the carries make up for what was lost. -/
theorem Wraps.split_iff {x y : UInt64} {high low lost : ℤ} (hx : Wraps x (high - lost))
    (hy : Wraps y low) : (1024 * x.toNat + y.toNat : ℤ) = 1024 * high + low ↔
      1024 * lost + 2 ^ 64 * (1024 * ((high - lost) / 2 ^ 64) + low / 2 ^ 64) = 0 := by
  rw [Wraps] at hx hy
  omega

/-- **The total in units of 1024**, from the units and those that the rest makes. It comes out right just
if what the rest has wrapped over is a multiple of the word in these units, and the total is a word. -/
theorem Wraps.units_iff {x y : UInt64} {high low : ℤ} (hx : Wraps x high) (hy : Wraps y low)
    (h : 0 ≤ 1024 * high + low) : ((x + y >>> 10).toNat : ℤ) = (1024 * high + low) / 1024 ↔
      low / 2 ^ 64 % 1024 = 0 ∧ 1024 * high + low < 2 ^ 74 := by
  have hshift : (y >>> 10).toNat = y.toNat / 1024 := by
    rw [UInt64.toNat_shiftRight]
    exact Nat.shiftRight_eq_div_pow _ 10
  rw [Wraps] at hx hy
  rw [UInt64.toNat_add, hshift]
  push_cast
  omega

/-- **A quotient** of a sum `a + e` that was kept as a word is that of `a` just if `e`, less what the word
has wrapped over, does not lead out of the step of the divisor that `a` is in. -/
theorem Wraps.quotient_iff {n t : UInt64} {a e : ℤ} (hn : Wraps n (a + e)) (ht : 0 < t.toNat) :
    ((n / t).toNat : ℤ) = a / t.toNat ↔
      0 ≤ a % t.toNat + (e - 2 ^ 64 * ((a + e) / 2 ^ 64)) ∧
        a % t.toNat + (e - 2 ^ 64 * ((a + e) / 2 ^ 64)) < t.toNat := by
  have hpos : (0 : ℤ) < t.toNat := by exact_mod_cast ht
  have hnum : (n.toNat : ℤ) =
      a % t.toNat + (e - 2 ^ 64 * ((a + e) / 2 ^ 64)) + t.toNat * (a / t.toNat) := by
    have hdiv := Int.emod_add_mul_ediv a t.toNat
    rw [Wraps] at hn
    generalize (t.toNat : ℤ) * (a / t.toNat) = p at *
    omega
  rw [UInt64.toNat_div, Int.natCast_ediv, hnum, Int.add_mul_ediv_left _ _ hpos.ne', add_eq_right]
  constructor
  · intro h
    have hlow := Int.emod_add_mul_ediv (a % t.toNat + (e - 2 ^ 64 * ((a + e) / 2 ^ 64))) t.toNat
    rw [h, mul_zero, add_zero] at hlow
    rw [← hlow]
    exact ⟨Int.emod_nonneg _ hpos.ne', Int.emod_lt_of_pos _ hpos⟩
  · rintro ⟨hlow, hhigh⟩
    exact Int.ediv_eq_zero_of_lt hlow hhigh

end Word
