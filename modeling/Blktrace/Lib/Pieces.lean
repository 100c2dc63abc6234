import Mathlib.Data.List.Basic

/-!
# Transfers in pieces

A call moves some of what it is asked to, and a loop goes on for the rest. How much each call moves is
not for the loop to say; what all of them have moved does not depend on it.
-/

namespace Pieces

variable {β : Type*}

/-- What a call gives. -/
inductive Call
  /-- So many are moved, if so many are left. A read moves one more, or it is at the end. -/
  | moved (n : ℕ)
  | again
  | failed
deriving DecidableEq

/-- Reads until there are as many, an end or a failure: what was read, what was not, and the calls
that are left. None where the calls do not suffice. -/
def read : List Call → ℕ → List β → Option (List β × List β × List Call)
  | calls, 0, bs => some ([], bs, calls)
  | [], _ + 1, _ => none
  | .again :: calls, left + 1, bs => read calls (left + 1) bs
  | .failed :: calls, _ + 1, bs => some ([], bs, calls)
  | .moved n :: calls, left + 1, bs =>
    let buf := bs.take (min (n + 1) (left + 1))
    if buf = [] then some ([], bs, calls)
    else (read calls (left + 1 - buf.length) (bs.drop buf.length)).map fun (got, rest) => (buf ++ got, rest)

/-- Writes until nothing is left, or a call fails: what was written, what was not, and the calls that
are left. -/
def write : List Call → List β → Option (List β × List β × List Call)
  | calls, [] => some ([], [], calls)
  | [], _ :: _ => none
  | .again :: calls, b :: bs => some ([], b :: bs, calls)
  | .failed :: calls, b :: bs => some ([], b :: bs, calls)
  | .moved n :: calls, b :: bs =>
    (write calls ((b :: bs).drop n)).map fun (sent, rest) => ((b :: bs).take n ++ sent, rest)

/-- No call fails. -/
def Sound (calls : List Call) : Prop := .failed ∉ calls

/-- How many of the calls move something. -/
def moves (calls : List Call) : ℕ := calls.countP fun | .moved _ => true | _ => false

variable {calls calls' : List Call} {left : ℕ} {bs got rest : List β}

/-- What a call that does not come to the end has read. -/
theorem take_of_ne_nil {n : ℕ} (h : bs.take (min (n + 1) (left + 1)) ≠ []) :
    (bs.take (min (n + 1) (left + 1))).length ≤ left + 1 ∧
      0 < (bs.take (min (n + 1) (left + 1))).length ∧
      bs.take (min (n + 1) (left + 1)) = bs.take (bs.take (min (n + 1) (left + 1))).length := by
  have hle : (bs.take (min (n + 1) (left + 1))).length ≤ min (n + 1) (left + 1) := List.length_take_le _ _
  refine ⟨Nat.le_trans hle (Nat.min_le_right _ _), List.length_pos_of_ne_nil h, ?_⟩
  rw [List.length_take, List.take_eq_take_iff]
  omega

/-- **A read does not depend on the pieces.** -/
theorem read_eq (hsound : Sound calls) (h : read calls left bs = some (got, rest, calls')) :
    got = bs.take left ∧ rest = bs.drop left ∧ calls' <:+ calls := by
  induction calls generalizing left bs got with
  | nil =>
    cases left with
    | zero =>
      obtain ⟨rfl, rfl, rfl⟩ : [] = got ∧ bs = rest ∧ [] = calls' := by simpa [read] using h
      exact ⟨rfl, rfl, List.suffix_refl _⟩
    | succ left => simp [read] at h
  | cons c calls ih =>
    have hsound' : Sound calls := fun hmem => hsound (List.mem_cons_of_mem c hmem)
    cases left with
    | zero =>
      obtain ⟨rfl, rfl, rfl⟩ : [] = got ∧ bs = rest ∧ c :: calls = calls' := by simpa [read] using h
      exact ⟨rfl, rfl, List.suffix_refl _⟩
    | succ left =>
      cases c with
      | again =>
        obtain ⟨hgot, hrest, hcalls⟩ := ih hsound' (by simpa [read] using h)
        exact ⟨hgot, hrest, hcalls.trans (List.suffix_cons _ _)⟩
      | failed => exact absurd List.mem_cons_self hsound
      | moved n =>
        rw [read] at h
        dsimp only at h
        split_ifs at h with hnil
        · obtain ⟨rfl, rfl, rfl⟩ : [] = got ∧ bs = rest ∧ calls = calls' := by simpa using h
          have hbs : bs = [] := by simpa [List.take_eq_nil_iff] using hnil
          rw [hbs]
          exact ⟨rfl, rfl, List.suffix_cons _ _⟩
        · obtain ⟨hle, -, htake⟩ := take_of_ne_nil hnil
          generalize (bs.take (min (n + 1) (left + 1))).length = k at *
          rw [htake] at h
          obtain ⟨⟨got', rest', calls''⟩, hread, heq⟩ := Option.map_eq_some_iff.mp h
          obtain ⟨rfl, rfl, rfl⟩ : bs.take k ++ got' = got ∧ rest' = rest ∧ calls'' = calls' := by
            simpa using heq
          obtain ⟨rfl, rfl, hcalls⟩ := ih hsound' hread
          refine ⟨?_, ?_, hcalls.trans (List.suffix_cons _ _)⟩
          · rw [← List.take_add, Nat.add_sub_cancel' hle]
          · rw [List.drop_drop, Nat.add_sub_cancel' hle]

/-- **A read comes to its end**, where as many calls move something as there are bytes, and one more
for the end. What is read is paid for with as many of them. -/
theorem read_isSome (hsound : Sound calls) (left : ℕ) (bs : List β) {k : ℕ} (h : bs.length + (k + 1) ≤ moves calls) :
    ∃ got rest calls', read calls left bs = some (got, rest, calls') ∧
      rest.length + (if got.length < left then k else k + 1) ≤ moves calls' := by
  induction calls generalizing left bs with
  | nil => simp [moves] at h
  | cons c calls ih =>
    have hsound' : Sound calls := fun hmem => hsound (List.mem_cons_of_mem c hmem)
    cases left with
    | zero => exact ⟨[], bs, c :: calls, by simp [read], h⟩
    | succ left =>
      cases c with
      | again =>
        obtain ⟨got, rest, calls', hread, hle⟩ := ih hsound' (left + 1) bs h
        exact ⟨got, rest, calls', by simpa [read] using hread, hle⟩
      | failed => exact absurd List.mem_cons_self hsound
      | moved n =>
        have hmoves : moves (.moved n :: calls) = moves calls + 1 := List.countP_cons_of_pos rfl
        rw [hmoves] at h
        rw [read]
        dsimp only
        split_ifs with hnil
        · refine ⟨[], bs, calls, rfl, ?_⟩
          have hlt : ([] : List β).length < left + 1 := Nat.succ_pos left
          rw [if_pos hlt]
          omega
        · obtain ⟨hle, hpos, -⟩ := take_of_ne_nil hnil
          have hle' : (bs.take (min (n + 1) (left + 1))).length ≤ bs.length := List.length_take_le' _ _
          obtain ⟨got, rest, calls', hread, hgot⟩ := ih hsound' (left + 1 -
            (bs.take (min (n + 1) (left + 1))).length) (bs.drop
            (bs.take (min (n + 1) (left + 1))).length) (by rw [List.length_drop]; omega)
          refine ⟨bs.take (min (n + 1) (left + 1)) ++ got, rest, calls', by rw [hread]; rfl, ?_⟩
          rw [List.length_append]
          split_ifs at hgot ⊢
          all_goals omega

/-- **A write that does not fail writes everything**, and one that does the beginning of it. -/
theorem write_eq {sent : List β} (h : write calls bs = some (sent, rest, calls')) :
    sent ++ rest = bs ∧ calls' <:+ calls := by
  induction calls generalizing bs sent with
  | nil =>
    cases bs with
    | nil =>
      obtain ⟨rfl, rfl, rfl⟩ : [] = sent ∧ [] = rest ∧ [] = calls' := by simpa [write] using h
      exact ⟨rfl, List.suffix_refl _⟩
    | cons b bs => simp [write] at h
  | cons c calls ih =>
    cases bs with
    | nil =>
      obtain ⟨rfl, rfl, rfl⟩ : [] = sent ∧ [] = rest ∧ c :: calls = calls' := by simpa [write] using h
      exact ⟨rfl, List.suffix_refl _⟩
    | cons b bs =>
      cases c with
      | again | failed =>
        obtain ⟨rfl, rfl, rfl⟩ : [] = sent ∧ b :: bs = rest ∧ calls = calls' := by simpa [write] using h
        exact ⟨rfl, List.suffix_cons _ _⟩
      | moved n =>
        rw [write] at h
        obtain ⟨⟨sent', rest', calls''⟩, hwrite, heq⟩ := Option.map_eq_some_iff.mp h
        obtain ⟨rfl, rfl, rfl⟩ : (b :: bs).take n ++ sent' = sent ∧ rest' = rest ∧ calls'' = calls' := by
          simpa using heq
        obtain ⟨hbs, hcalls⟩ := ih hwrite
        refine ⟨?_, hcalls.trans (List.suffix_cons _ _)⟩
        rw [List.append_assoc, hbs, List.take_append_drop]

end Pieces
