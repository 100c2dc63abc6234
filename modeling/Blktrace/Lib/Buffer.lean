import Blktrace.Lib.Bytes

/-!
# Reads that stay in a buffer

What is read from a buffer, or `none` where a read goes beyond its end: a value at an offset, and a
string up to where it stops.
-/

namespace Buffer

variable {α : Type*}

/-- `n` elements from an offset on. -/
def fetch (buf : List α) (i n : ℕ) : Option (List α) :=
  if i + n ≤ buf.length then some ((buf.drop i).take n) else none

theorem fetch_isSome {buf : List α} {i n : ℕ} : (fetch buf i n).isSome ↔ i + n ≤ buf.length := by
  rw [fetch]
  split_ifs with h
  · exact iff_of_true rfl h
  · exact iff_of_false nofun h

/-- The elements before the first one that stops the scan. That one is read, too. -/
def scan (stop : α → Bool) : List α → Option (List α)
  | [] => none
  | a :: as => if stop a then some [] else (scan stop as).map (a :: ·)

/-- A scan that ends after `n` elements at the latest. -/
def scanAtMost (stop : α → Bool) : ℕ → List α → Option (List α)
  | 0, _ => some []
  | _ + 1, [] => none
  | n + 1, a :: as => if stop a then some [] else (scanAtMost stop n as).map (a :: ·)

/-- A scan takes what is before the first element that stops it. -/
theorem scan_eq_some_iff {stop : α → Bool} {as front : List α} : scan stop as = some front ↔
    ∃ a rest, as = front ++ a :: rest ∧ stop a = true ∧ ∀ b ∈ front, stop b = false := by
  constructor
  · induction as generalizing front with
    | nil => exact nofun
    | cons a as ih =>
      rw [scan]
      split_ifs with ha
      · rintro h
        obtain rfl := Option.some.inj h
        exact ⟨a, as, rfl, ha, nofun⟩
      · intro h
        obtain ⟨front', hfront, rfl⟩ := Option.map_eq_some_iff.mp h
        obtain ⟨b, rest, rfl, hb, hall⟩ := ih hfront
        exact ⟨b, rest, rfl, hb, List.forall_mem_cons.mpr ⟨Bool.eq_false_iff.mpr ha, hall⟩⟩
  · rintro ⟨a, rest, rfl, ha, hall⟩
    induction front with
    | nil => rw [List.nil_append, scan, if_pos ha]
    | cons b front ih =>
      obtain ⟨hb, hfront⟩ := List.forall_mem_cons.mp hall
      rw [List.cons_append, scan, if_neg (Bool.eq_false_iff.mp hb), ih hfront]
      rfl

theorem scanAtMost_eq (stop : α → Bool) (n : ℕ) (as : List α) : scanAtMost stop n as =
    if n ≤ as.length ∨ as.any stop then some ((as.take n).takeWhile fun a => !stop a) else none := by
  induction n generalizing as with
  | zero => simp [scanAtMost]
  | succ n ih =>
    cases as with
    | nil => simp [scanAtMost]
    | cons a as =>
      rw [scanAtMost, ih, List.take_succ_cons]
      cases ha : stop a with
      | true => simp [ha]
      | false =>
        rw [List.any_cons, ha, Bool.false_or, List.takeWhile_cons_of_pos (by simp [ha])]
        simp only [List.length_cons, Nat.succ_le_succ_iff]
        split_ifs <;> simp_all

theorem scan_isSome {stop : α → Bool} {as : List α} : (scan stop as).isSome ↔ ∃ a ∈ as, stop a := by
  induction as with
  | nil => simp [scan]
  | cons a as ih =>
    rw [scan, List.exists_mem_cons_iff, ← ih]
    split_ifs with ha
    · simp [ha]
    · simp [ha]

theorem scanAtMost_isSome {stop : α → Bool} {n : ℕ} {as : List α} :
    (scanAtMost stop n as).isSome ↔ n ≤ as.length ∨ ∃ a ∈ as, stop a := by
  rw [scanAtMost_eq, ← List.any_eq_true]
  split_ifs with h
  · exact iff_of_true rfl h
  · exact iff_of_false nofun h

/-- One read after the other. -/
theorem mapM_isSome {α β : Type*} {f : α → Option β} {as : List α} :
    (as.mapM f).isSome ↔ ∀ a ∈ as, (f a).isSome := by
  induction as with
  | nil => simp
  | cons a as ih =>
    rw [List.mapM_cons, List.forall_mem_cons, ← ih]
    cases f a with
    | none => simp
    | some b => cases as.mapM f <;> simp

end Buffer

namespace Bytes.Layout

variable {α : Type*}

/-- A value at an offset. -/
def fetch (l : Layout α) (buf : List UInt8) (i : ℕ) : Option α := (Buffer.fetch buf i l.size).map l.load

theorem fetch_isSome {l : Layout α} {buf : List UInt8} {i : ℕ} :
    (l.fetch buf i).isSome ↔ i + l.size ≤ buf.length := by
  rw [fetch, Option.isSome_map, Buffer.fetch_isSome]

end Bytes.Layout
