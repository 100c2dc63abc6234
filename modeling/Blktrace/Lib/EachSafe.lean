import Mathlib.Data.List.Nodup
import Mathlib.Tactic.Cases

/-!
# Loops over a list that lose their elements on the way

`list_for_each_safe` takes the pointer to the next element before its body runs, and follows it
afterwards. The body may change the list; a pointer to an element that is gone leads astray. A body
that takes out no element but its own is run for one after the other of those there were.
-/

namespace EachSafe

variable {σ κ : Type*}

/-- The body for one element after the other, until it breaks. -/
def each (body : σ → κ → σ × Bool) (s : σ) : List κ → σ
  | [] => s
  | p :: ps => if (body s p).2 then (body s p).1 else each body (body s p).1 ps

@[simp] theorem each_nil (body : σ → κ → σ × Bool) (s : σ) : each body s [] = s := rfl

theorem each_cons (body : σ → κ → σ × Bool) (s : σ) (p : κ) (ps : List κ) :
    each body s (p :: ps) = if (body s p).2 then (body s p).1 else each body (body s p).1 ps := rfl

variable [DecidableEq κ]

/-- `p->next`, none where `p` is not of the list. None in place of an element is the head. -/
def next (l : List κ) : Option κ → Option (Option κ)
  | none => some l.head?
  | some p => if p ∈ l then some (l.dropWhile (· ≠ p)).tail.head? else none

variable (nodes : σ → List κ) (body : σ → κ → σ × Bool) (stray : σ → σ)

/-- `list_for_each_safe`, from `p` on, with `q` behind it. Each pass takes one of `fuel`. -/
def loop : ℕ → σ → Option κ → Option κ → σ
  | _, s, none, _ => s
  | 0, s, some _, _ => stray s
  | fuel + 1, s, some p, q =>
    if (body s p).2 then (body s p).1
    else
      match next (nodes (body s p).1) q with
      | none => stray (body s p).1
      | some q' => loop fuel (body s p).1 q q'

/-- `list_for_each_safe`, with as many passes as there are elements to begin with. -/
def forEachSafe (s : σ) : σ :=
  match next (nodes s) (nodes s).head? with
  | none => stray s
  | some q => loop nodes body stray (nodes s).length s (nodes s).head? q

variable {nodes body stray}

theorem next_mid {p : κ} {ps : List κ} (qs : List κ) (hnodup : (qs ++ p :: ps).Nodup) :
    next (qs ++ p :: ps) (some p) = some ps.head? := by
  have hp : p ∉ qs := fun h =>
    (List.nodup_append.mp hnodup).2.2 p h p List.mem_cons_self rfl
  have hdrop : (qs ++ p :: ps).dropWhile (· ≠ p) = p :: ps := by
    rw [List.dropWhile_append_of_pos]
    · exact List.dropWhile_cons_of_neg (by simp)
    · intro b hb
      simpa using ne_of_mem_of_not_mem hb hp
  rw [next, if_pos (List.mem_append_right _ List.mem_cons_self), hdrop, List.tail_cons]

/-- On from an element that the list still has. -/
theorem loop_eq {P : σ → List κ → Prop}
    (hbody : ∀ s p ps qs, P s (p :: ps) → nodes s = qs ++ p :: ps → (body s p).2 = false →
      P (body s p).1 ps ∧ ∃ qs', nodes (body s p).1 = qs' ++ ps ∧ (qs' ++ ps).Nodup)
    {s : σ} {ps : List κ} (qs : List κ) (hP : P s ps) (hnodes : nodes s = qs ++ ps) {fuel : ℕ}
    (hfuel : ps.length ≤ fuel) :
    loop nodes body stray fuel s ps.head? ps.tail.head? = each body s ps := by
  induction ps generalizing s qs fuel with
  | nil => cases fuel <;> rfl
  | cons p ps ih =>
    obtain ⟨fuel, rfl⟩ := Nat.exists_eq_add_one_of_ne_zero (Nat.ne_of_gt (Nat.zero_lt_of_lt hfuel))
    rw [List.head?_cons, List.tail_cons, each_cons, loop]
    split_ifs with hbreak
    · rfl
    obtain ⟨hP', qs', hnodes', hnodup⟩ := hbody s p ps qs hP hnodes (by simpa using hbreak)
    have hle : ps.length ≤ fuel := Nat.le_of_succ_le_succ hfuel
    cases ps with
    | nil =>
      -- behind the last element is the head of the list, and the loop is over
      cases fuel <;> rfl
    | cons q ps =>
      rw [List.head?_cons, hnodes', next_mid qs' hnodup]
      exact ih qs' hP' hnodes' hle

/-- **The loop is run for the elements there were**, one after the other: a pass that does not break
leaves those that are to come where they are. -/
theorem forEachSafe_eq {P : σ → List κ → Prop}
    (hbody : ∀ s p ps qs, P s (p :: ps) → nodes s = qs ++ p :: ps → (body s p).2 = false →
      P (body s p).1 ps ∧ ∃ qs', nodes (body s p).1 = qs' ++ ps ∧ (qs' ++ ps).Nodup)
    {s : σ} (hP : P s (nodes s)) (hnodup : (nodes s).Nodup) :
    forEachSafe nodes body stray s = each body s (nodes s) := by
  unfold forEachSafe
  have hnext : next (nodes s) (nodes s).head? = some (nodes s).tail.head? := by
    cases hl : nodes s with
    | nil => rfl
    | cons p ps => exact next_mid [] (hl ▸ hnodup)
  rw [hnext]
  exact loop_eq hbody [] hP rfl (Nat.le_refl _)

end EachSafe
