import Mathlib.Data.List.Nodup
import Mathlib.Logic.Function.Basic
import Mathlib.Tactic.Cases

/-!
# Linked lists

A list of cells lies in memory where each cell points to the next one, and the last one nowhere. What
is written into other cells does not change it.
-/

namespace Linked

variable {α : Type*}

/-- The cells that a pointer leads to. -/
def Chain (next : α → Option α) : Option α → List α → Prop
  | p, [] => p = none
  | p, a :: l => p = some a ∧ Chain next (next a) l

variable {next : α → Option α} {p : Option α} {l : List α}

theorem chain_none : Chain next none l ↔ l = [] := by
  cases l with
  | nil => exact ⟨fun _ => rfl, fun _ => rfl⟩
  | cons a l => exact ⟨fun h => (nomatch h.1), nofun⟩

theorem chain_some {a : α} : Chain next (some a) l ↔ ∃ l', l = a :: l' ∧ Chain next (next a) l' := by
  cases l with
  | nil => exact ⟨nofun, fun ⟨_, h, _⟩ => nomatch h⟩
  | cons b l =>
    constructor
    · rintro ⟨hb, hl⟩
      obtain rfl := Option.some.inj hb
      exact ⟨l, rfl, hl⟩
    · rintro ⟨l', hl', hchain⟩
      obtain ⟨rfl, rfl⟩ := List.cons.inj hl'
      exact ⟨rfl, hchain⟩

/-- A pointer leads to one list at most. -/
theorem Chain.unique {l' : List α} (h : Chain next p l) (h' : Chain next p l') : l = l' := by
  induction l generalizing p l' with
  | nil =>
    obtain rfl : p = none := h
    exact (chain_none.mp h').symm
  | cons a l ih =>
    obtain ⟨rfl, hl⟩ := h
    obtain ⟨l'', rfl, hl'⟩ := chain_some.mp h'
    rw [ih hl hl']

/-- The cells that a pointer leads to, `n` of them at most. -/
def walk (next : α → Option α) : ℕ → Option α → List α
  | 0, _ => []
  | _ + 1, none => []
  | n + 1, some a => a :: walk next n (next a)

theorem Chain.walk_eq (h : Chain next p l) {n : ℕ} (hn : l.length ≤ n) : walk next n p = l := by
  induction l generalizing p n with
  | nil =>
    obtain rfl : p = none := h
    cases n <;> rfl
  | cons a l ih =>
    obtain ⟨n, rfl⟩ := Nat.exists_eq_add_one_of_ne_zero (Nat.ne_of_gt (Nat.zero_lt_of_lt hn))
    obtain ⟨rfl, hl⟩ := h
    rw [walk, ih hl (Nat.le_of_succ_le_succ hn)]

theorem Chain.eq_head? (h : Chain next p l) : p = l.head? := by
  cases l with
  | nil => exact h
  | cons a l => exact h.1

/-- A cell points to the one behind it. -/
theorem Chain.next_eq {a : α} {l₁ l₂ : List α} (h : Chain next p (l₁ ++ a :: l₂)) : next a = l₂.head? := by
  induction l₁ generalizing p with
  | nil => exact h.2.eq_head?
  | cons b l₁ ih => exact ih h.2

variable [DecidableEq α]

/-- A cell that is not on the list is written. -/
theorem Chain.frame (h : Chain next p l) {b : α} (hb : b ∉ l) (q : Option α) :
    Chain (Function.update next b q) p l := by
  induction l generalizing p with
  | nil => exact h
  | cons a l ih =>
    refine ⟨h.1, ?_⟩
    rw [Function.update_of_ne (Ne.symm (List.ne_of_not_mem_cons hb))]
    exact ih h.2 (List.not_mem_of_not_mem_cons hb)

/-- A cell is put in front. -/
theorem Chain.push (h : Chain next p l) {a : α} (ha : a ∉ l) :
    Chain (Function.update next a p) (some a) (a :: l) := by
  refine ⟨rfl, ?_⟩
  rw [Function.update_self]
  exact h.frame ha p

/-- A cell is taken out from behind another. -/
theorem Chain.unlink {b a : α} {l₁ l₂ : List α} (h : Chain next p (l₁ ++ b :: a :: l₂))
    (hnodup : (l₁ ++ b :: a :: l₂).Nodup) :
    Chain (Function.update next b (next a)) p (l₁ ++ b :: l₂) := by
  induction l₁ generalizing p with
  | nil =>
    obtain ⟨hp, -, hl₂⟩ := h
    refine ⟨hp, ?_⟩
    rw [Function.update_self]
    exact hl₂.frame (fun hb => (List.nodup_cons.mp hnodup).1 (List.mem_cons_of_mem _ hb)) _
  | cons c l₁ ih =>
    obtain ⟨hc, hnodup⟩ := List.nodup_cons.mp hnodup
    refine ⟨h.1, ?_⟩
    have hne : c ≠ b := by
      rintro rfl
      exact hc (List.mem_append_right _ List.mem_cons_self)
    rw [Function.update_of_ne hne]
    exact ih h.2 hnodup

/-- A cell is put behind the last one. -/
theorem Chain.concat {a b : α} (h : Chain next p (l ++ [b])) (ha : next a = none)
    (hnew : a ∉ l ++ [b]) (hnodup : (l ++ [b]).Nodup) :
    Chain (Function.update next b (some a)) p (l ++ [b, a]) := by
  induction l generalizing p with
  | nil =>
    have hab : a ≠ b := List.ne_of_not_mem_cons hnew
    refine ⟨h.1, ?_⟩
    rw [Function.update_self]
    exact ⟨rfl, (Function.update_of_ne hab _ _).trans ha⟩
  | cons c l ih =>
    obtain ⟨hc, hl⟩ := List.nodup_cons.mp hnodup
    have hcb : c ≠ b := by
      rintro rfl
      exact hc (List.mem_append_right _ List.mem_cons_self)
    refine ⟨h.1, ?_⟩
    rw [Function.update_of_ne hcb]
    exact ih h.2 (List.not_mem_of_not_mem_cons hnew) hl

/-- A cell is taken out, from behind another or from the front. -/
theorem Chain.remove {a : α} {l₁ l₂ : List α} (h : Chain next p (l₁ ++ a :: l₂))
    (hnodup : (l₁ ++ a :: l₂).Nodup) :
    Chain (match l₁.getLast? with
      | none => next
      | some b => Function.update next b (next a)) (match l₁.getLast? with
      | none => next a
      | some _ => p) (l₁ ++ l₂) := by
  cases hlast : l₁.getLast? with
  | none =>
    obtain rfl := List.getLast?_eq_none_iff.mp hlast
    exact h.2
  | some b =>
    obtain ⟨l, rfl⟩ := List.getLast?_eq_some_iff.mp hlast
    rw [List.append_assoc] at h hnodup ⊢
    exact h.unlink hnodup

/-! ## Both ways -/

/-- A list that is linked in both directions; the cells in the order of `prev`. -/
structure Double (prev next : α → Option α) (head tail : Option α) (l : List α) : Prop where
  back : Chain prev tail l
  forth : Chain next head l.reverse
  nodup : l.Nodup

section

variable {prev : α → Option α} {head tail : Option α} {a : α}

omit [DecidableEq α] in
/-- The links of a cell. -/
theorem Double.links {l₁ l₂ : List α} (h : Double prev next head tail (l₁ ++ a :: l₂)) :
    prev a = l₂.head? ∧ next a = l₁.getLast? := by
  have hforth := h.forth
  rw [List.reverse_append, List.reverse_cons, List.append_assoc] at hforth
  refine ⟨h.back.next_eq, ?_⟩
  rw [← List.head?_reverse]
  exact hforth.next_eq

/-- **A new cell** goes behind the last one. -/
theorem Double.push (h : Double prev next head tail l) (ha : a ∉ l) :
    Double (Function.update prev a tail)
      (tail.elim (Function.update next a none) fun b =>
        Function.update (Function.update next a none) b (some a))
      (tail.elim (some a) fun _ => head) (some a) (a :: l) := by
  refine ⟨h.back.push ha, ?_, List.nodup_cons.mpr ⟨ha, h.nodup⟩⟩
  have hforth := h.forth
  have hnew : a ∉ l.reverse := fun hmem => ha (List.mem_reverse.mp hmem)
  cases l with
  | nil =>
    obtain rfl : tail = none := h.back
    exact ⟨rfl, Function.update_self _ _ _⟩
  | cons b l =>
    obtain rfl : tail = some b := h.back.1
    rw [List.reverse_cons] at hforth hnew
    rw [List.reverse_cons, List.reverse_cons, List.append_assoc]
    refine (hforth.frame hnew none).concat (Function.update_self _ _ _) hnew ?_
    rw [← List.reverse_cons]
    exact List.nodup_reverse.mpr h.nodup

/-- **A cell is taken out** of both directions. -/
theorem Double.remove {l₁ l₂ : List α} (h : Double prev next head tail (l₁ ++ a :: l₂)) :
    Double
      (match next a with
        | none => prev
        | some b => Function.update prev b (prev a))
      (match prev a with
        | none => next
        | some b => Function.update next b (next a))
      (match prev a with
        | none => next a
        | some _ => head)
      (match next a with
        | none => prev a
        | some _ => tail) (l₁ ++ l₂) := by
  obtain ⟨hprev, hnext⟩ := h.links
  have hback := h.back.remove h.nodup
  have hforth := h.forth
  rw [List.reverse_append, List.reverse_cons, List.append_assoc] at hforth
  have hnodup := List.nodup_reverse.mpr h.nodup
  rw [List.reverse_append, List.reverse_cons, List.append_assoc] at hnodup
  replace hforth := hforth.remove hnodup
  rw [← hnext] at hback
  rw [List.getLast?_reverse, ← hprev] at hforth
  refine ⟨hback, ?_, h.nodup.sublist ((List.sublist_cons_self a l₂).append_left l₁)⟩
  rw [List.reverse_append]
  exact hforth

end

end Linked
