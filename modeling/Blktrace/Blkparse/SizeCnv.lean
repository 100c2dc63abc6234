import Blktrace.Api

/-!
# `size_cnv`

A count or a number of KiB, printed with a suffix. The table of suffixes goes from `G` to `P`, with no `T`
between them.
-/

namespace Blktrace.Blkparse

/-- `suff`. -/
def suff : List Char := [Char.ofNat 0, 'K', 'M', 'G', 'P']

/-- The `while` of `size_cnv`, with `left` suffixes behind `suff[i]`. -/
def sizeCnvLoop : ℕ → UInt64 → UInt64 × ℕ
  | 0, num => (num, 0)
  | left + 1, num => if 1000000 < num then sizeCnvLoop left (num / 1000) else (num, left + 1)

/-- Where `size_cnv` begins in the table. -/
def firstSuffix (inKb : Bool) : ℕ := if inKb then 1 else 0

/-- `size_cnv`: the number and the suffix that it prints. -/
def sizeCnv (num : UInt64) (inKb : Bool) : UInt64 × Option Char :=
  let r := sizeCnvLoop (suff.length - 1 - firstSuffix inKb) num
  (r.1, suff[suff.length - 1 - r.2]?)

/-- The suffixes for the powers of 1000. -/
def siSuffixes : List Char := [Char.ofNat 0, 'K', 'M', 'G', 'T', 'P']

/-- What is printed is the number in the unit of its suffix, and at most 1000000 in any but the last. -/
def SizeRight (num : UInt64) (inKb : Bool) : Prop :=
  ∃ j, (sizeCnv num inKb).2 = siSuffixes[firstSuffix inKb + j]? ∧ (sizeCnv num inKb).2.isSome ∧
    (sizeCnv num inKb).1.toNat = num.toNat / 1000 ^ j ∧
    ((sizeCnv num inKb).1.toNat ≤ 1000000 ∨ firstSuffix inKb + j + 1 = siSuffixes.length)

/-- **The loop** divides once for each suffix it takes, as long as the number is too large. -/
theorem sizeCnvLoop_spec (left : ℕ) (num : UInt64) :
    ∃ j ≤ left, (sizeCnvLoop left num).2 = left - j ∧
      (sizeCnvLoop left num).1.toNat = num.toNat / 1000 ^ j ∧
      (j < left → (sizeCnvLoop left num).1.toNat ≤ 1000000) ∧
      ∀ k, k + 1 = j → 1000000 < num.toNat / 1000 ^ k := by
  induction left generalizing num with
  | zero => exact ⟨0, le_rfl, rfl, (Nat.div_one _).symm, nofun, nofun⟩
  | succ left ih =>
    rw [sizeCnvLoop]
    split
    case isTrue hlarge =>
      obtain ⟨j, hj, hleft, hvalue, hsmall, hlast⟩ := ih (num / 1000)
      have hdiv : (num / 1000).toNat = num.toNat / 1000 := UInt64.toNat_div num 1000
      refine ⟨j + 1, Nat.succ_le_succ hj, by rw [hleft]; omega, ?_, fun h => hsmall (by omega), ?_⟩
      · rw [hvalue, hdiv, Nat.div_div_eq_div_mul, pow_succ']
      · rintro k hk
        obtain rfl : k = j := by omega
        cases k with
        | zero =>
          rw [pow_zero, Nat.div_one]
          exact UInt64.lt_iff_toNat_lt.mp hlarge
        | succ k =>
          have h := hlast k rfl
          rwa [hdiv, Nat.div_div_eq_div_mul, ← pow_succ'] at h
    case isFalse hsmall =>
      refine ⟨0, Nat.zero_le _, rfl, (Nat.div_one _).symm, fun _ => ?_, nofun⟩
      exact not_lt.mp fun h => hsmall (UInt64.lt_iff_toNat_lt.mpr h)

theorem suff_eq {i : ℕ} (h : i < 4) : suff[i]? = siSuffixes[i]? ∧ suff[i]?.isSome := by
  interval_cases i <;> exact ⟨rfl, rfl⟩

theorem firstSuffix_le (inKb : Bool) : firstSuffix inKb ≤ 1 := by
  unfold firstSuffix
  split
  · exact le_rfl
  · exact Nat.zero_le 1

/-- The suffix is as many places on as there were divisions. -/
theorem sizeCnv_suffix {num : UInt64} {inKb : Bool} {j : ℕ} (hj : j ≤ 4 - firstSuffix inKb)
    (hleft : (sizeCnvLoop (4 - firstSuffix inKb) num).2 = 4 - firstSuffix inKb - j) :
    (sizeCnv num inKb).2 = suff[firstSuffix inKb + j]? := by
  have hfirst := firstSuffix_le inKb
  show suff[4 - (sizeCnvLoop (4 - firstSuffix inKb) num).2]? = _
  rw [hleft]
  congr 1
  omega

theorem sizeRight_of_le {num : UInt64} {inKb : Bool}
    (h : num.toNat / 1000 ^ (3 - firstSuffix inKb) ≤ 1000000) : SizeRight num inKb := by
  have hfirst := firstSuffix_le inKb
  obtain ⟨j, hj, hleft, hvalue, hsmall, hlast⟩ := sizeCnvLoop_spec (4 - firstSuffix inKb) num
  have hlt : j < 4 - firstSuffix inKb := by
    by_contra hge
    exact not_lt.mpr h (hlast (3 - firstSuffix inKb) (by omega))
  obtain ⟨hsame, hsome⟩ := suff_eq (show firstSuffix inKb + j < 4 by omega)
  refine ⟨j, ?_, ?_, hvalue, Or.inl (hsmall hlt)⟩
  · rw [sizeCnv_suffix hj hleft, hsame]
  · rw [sizeCnv_suffix hj hleft]
    exact hsome

/-- At the last suffix there is one division less than it stands for. -/
theorem not_sizeRight_of_lt {num : UInt64} {inKb : Bool}
    (h : 1000000 < num.toNat / 1000 ^ (3 - firstSuffix inKb)) : ¬ SizeRight num inKb := by
  have hfirst := firstSuffix_le inKb
  obtain ⟨j, hj, hleft, hvalue, hsmall, -⟩ := sizeCnvLoop_spec (4 - firstSuffix inKb) num
  have heq : j = 3 - firstSuffix inKb + 1 := by
    by_contra hne
    have hdiv : num.toNat / 1000 ^ (3 - firstSuffix inKb) ≤ num.toNat / 1000 ^ j :=
      Nat.div_le_div_left (Nat.pow_le_pow_right (by decide) (by omega)) (by positivity)
    have hle := hsmall (by omega)
    omega
  have hnum : (sizeCnv num inKb).1.toNat = num.toNat / 1000 ^ (3 - firstSuffix inKb) / 1000 := by
    rw [Nat.div_div_eq_div_mul, ← pow_succ, ← heq]
    exact hvalue
  rintro ⟨j', hletter, -, hdiv, -⟩
  have hP : siSuffixes[firstSuffix inKb + j']? = some 'P' := by
    rw [← hletter, sizeCnv_suffix hj hleft, show firstSuffix inKb + j = 4 by omega]
    rfl
  have hfive : firstSuffix inKb + j' = 5 := by
    have hlt := (List.getElem?_eq_some_iff.mp hP).1
    rw [show siSuffixes.length = 6 from rfl] at hlt
    generalize firstSuffix inKb + j' = i at hP hlt
    revert hP
    interval_cases i <;> decide
  rw [hnum, show j' = 3 - firstSuffix inKb + 1 + 1 by omega, pow_succ, pow_succ, ← Nat.div_div_eq_div_mul,
    ← Nat.div_div_eq_div_mul] at hdiv
  omega

/-- **The size printed** is right just if the loop does not get to the last suffix. -/
theorem sizeRight_iff (num : UInt64) (inKb : Bool) :
    SizeRight num inKb ↔ num.toNat / 1000 ^ (3 - firstSuffix inKb) ≤ 1000000 := by
  constructor
  · intro h
    by_contra hlarge
    exact not_sizeRight_of_lt (not_le.mp hlarge) h
  · exact sizeRight_of_le

/-- 2^50 KiB, which are 1125899 times 1000^3: the suffix stands for 1000^4. -/
theorem not_sizeRight : sizeCnv 0x4000000000000 true = (1125899, some 'P') ∧ ¬ SizeRight 0x4000000000000 true :=
  ⟨by decide, not_sizeRight_of_lt (by decide)⟩

end Blktrace.Blkparse
