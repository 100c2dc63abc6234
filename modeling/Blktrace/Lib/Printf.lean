import Mathlib.Data.Int.Notation
import Mathlib.Data.List.Basic
import Mathlib.Tactic.SplitIfs

/-!
# Conversions of `printf`

The text of a number, and a field of a given width for it: filled with blanks on either side, or with
zeroes.
-/

namespace Printf

/-- `%u`, `%lu` and `%llu`. -/
def udec (n : ℕ) : List Char := Nat.toDigits 10 n

/-- `%d` and `%ld`. -/
def sdec : ℤ → List Char
  | .ofNat n => udec n
  | .negSucc n => '-' :: udec (n + 1)

/-- A width, with or without a minus sign. -/
def pad (minus : Bool) (width : ℕ) (text : List Char) : List Char :=
  let blanks := List.replicate (width - text.length) ' '
  if minus then text ++ blanks else blanks ++ text

/-- A width with the flag `0`. -/
def zeros (width : ℕ) (text : List Char) : List Char :=
  List.replicate (width - text.length) '0' ++ text

@[simp] theorem pad_zero (minus : Bool) (text : List Char) : pad minus 0 text = text := by
  unfold pad
  split_ifs
  · simp
  · simp

@[simp] theorem length_pad (minus : Bool) (width : ℕ) (text : List Char) :
    (pad minus width text).length = max width text.length := by
  unfold pad
  dsimp only
  split_ifs
  all_goals
    rw [List.length_append, List.length_replicate]
    omega

@[simp] theorem sdec_natCast (n : ℕ) : sdec n = udec n := rfl

/-- What is read back of a number. -/
theorem ofDigitChars_udec (n : ℕ) : Nat.ofDigitChars 10 (udec n) 0 = n := Nat.ofDigitChars_ten_toDigits

theorem isDigit_of_mem_udec {n : ℕ} {c : Char} (hc : c ∈ udec n) : c.isDigit = true :=
  Nat.isDigit_of_mem_toDigits (by decide) (by decide) hc

theorem udec_ne_nil (n : ℕ) : udec n ≠ [] := Nat.toDigits_ne_nil

end Printf
