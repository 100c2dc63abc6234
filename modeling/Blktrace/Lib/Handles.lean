import Mathlib

/-!
# Handles

What a process has open, handle by handle, and what it has asked to be closed. A handle that is given
out is not open yet; to clean up is to close what was opened, each handle once, and nothing else.
-/

namespace Handles

/-- The open handles, and the calls that closed one, in order. -/
structure Table where
  live : Finset ℕ := ∅
  closes : List ℕ := []

/-- Who gives out handles. -/
structure Allocator where
  next : Finset ℕ → ℕ
  fresh : ∀ live, next live ∉ live

/-- The lowest number that is free. -/
def lowest : Allocator where
  next live := Nat.find (Infinite.exists_notMem_finset live)
  fresh live := Nat.find_spec (Infinite.exists_notMem_finset live)

namespace Table

def enter (t : Table) (h : ℕ) : Table := { t with live := insert h t.live }

def close (t : Table) (h : ℕ) : Table where
  live := t.live.erase h
  closes := t.closes ++ [h]

/-- One after the other. -/
def closeAll (t : Table) (hs : List ℕ) : Table := hs.foldl close t

@[simp] theorem enter_closes (t : Table) (h : ℕ) : (t.enter h).closes = t.closes := rfl

@[simp] theorem close_closes (t : Table) (h : ℕ) : (t.close h).closes = t.closes ++ [h] := rfl

@[simp] theorem closeAll_nil (t : Table) : t.closeAll [] = t := rfl

@[simp] theorem closeAll_cons (t : Table) (h : ℕ) (hs : List ℕ) :
    t.closeAll (h :: hs) = (t.close h).closeAll hs := rfl

@[simp] theorem closeAll_closes (t : Table) (hs : List ℕ) :
    (t.closeAll hs).closes = t.closes ++ hs := by
  induction hs generalizing t with
  | nil => simp
  | cons h hs ih => simp [ih]

@[simp] theorem closeAll_live (t : Table) (hs : List ℕ) :
    (t.closeAll hs).live = t.live \ hs.toFinset := by
  induction hs generalizing t with
  | nil => simp
  | cons h hs ih =>
    rw [closeAll_cons, ih, close, List.toFinset_cons, Finset.sdiff_insert, Finset.erase_sdiff_comm]

end Table

namespace Allocator

variable (A : Allocator)

/-- So many handles: the table, and the handles in order. -/
def enters : ℕ → Table → Table × List ℕ
  | 0, t => (t, [])
  | n + 1, t =>
    let h := A.next t.live
    let rest := enters n (t.enter h)
    (rest.1, h :: rest.2)

@[simp] theorem length_enters (n : ℕ) (t : Table) : (A.enters n t).2.length = n := by
  induction n generalizing t with
  | zero => rfl
  | succ n ih => simp [enters, ih]

@[simp] theorem enters_closes (n : ℕ) (t : Table) : (A.enters n t).1.closes = t.closes := by
  induction n generalizing t with
  | zero => rfl
  | succ n ih => simp [enters, ih]

/-- **What was opened** is different from one another and from what was open. -/
theorem enters_fresh (n : ℕ) (t : Table) :
    (A.enters n t).2.Nodup ∧ (∀ h ∈ (A.enters n t).2, h ∉ t.live) ∧
      (A.enters n t).1.live = t.live ∪ (A.enters n t).2.toFinset := by
  induction n generalizing t with
  | zero => simp [enters]
  | succ n ih =>
    obtain ⟨hnodup, hfresh, hlive⟩ := ih (t.enter (A.next t.live))
    refine ⟨List.nodup_cons.mpr ⟨fun hmem => ?_, hnodup⟩, ?_, ?_⟩
    · exact hfresh _ hmem (Finset.mem_insert_self _ _)
    · intro h hmem
      rcases List.mem_cons.mp hmem with rfl | hmem
      · exact A.fresh t.live
      · exact fun hlive => hfresh h hmem (Finset.mem_insert_of_mem hlive)
    · rw [enters, hlive, List.toFinset_cons, Table.enter, Finset.insert_union, Finset.union_insert]

/-! Handles in an array -/

section

variable {β : Type*} (mk : ℕ → β)

/-- So many entries of an array, from one on, for a handle each. -/
def fill : ℕ → ℕ → Table × (ℕ → β) → Table × (ℕ → β)
  | 0, _, p => p
  | n + 1, i, p =>
    let h := A.next p.1.live
    fill n (i + 1) (p.1.enter h, Function.update p.2 i (mk h))

theorem fill_table (n i : ℕ) (p : Table × (ℕ → β)) : (A.fill mk n i p).1 = (A.enters n p.1).1 := by
  induction n generalizing i p with
  | zero => rfl
  | succ n ih => exact ih (i + 1) _

theorem fill_below (n : ℕ) {i j : ℕ} (h : j < i) (p : Table × (ℕ → β)) :
    (A.fill mk n i p).2 j = p.2 j := by
  induction n generalizing i p with
  | zero => rfl
  | succ n ih => exact (ih (Nat.lt_succ_of_lt h) _).trans (Function.update_of_ne h.ne _ _)

theorem fill_entry (n i : ℕ) (p : Table × (ℕ → β)) {j : ℕ} (hj : j < (A.enters n p.1).2.length) :
    (A.fill mk n i p).2 (i + j) = mk (A.enters n p.1).2[j] := by
  induction n generalizing i j p with
  | zero => nomatch hj
  | succ n ih =>
    cases j with
    | zero => exact (A.fill_below mk n (Nat.lt_succ_self i) _).trans (Function.update_self ..)
    | succ j =>
      rw [← Nat.add_assoc, Nat.add_right_comm]
      exact ih (i + 1) _ (Nat.lt_of_succ_lt_succ hj)

end

end Allocator

/-- **Exactly these handles** were closed from `t` to `t'`, each of them once. -/
def Closed (t t' : Table) (hs : List ℕ) : Prop := ∃ cs, t'.closes = t.closes ++ cs ∧ cs.Perm hs

theorem closed_closeAll {t : Table} {cs hs : List ℕ} : Closed t (t.closeAll cs) hs ↔ cs.Perm hs := by
  simp [Closed]

theorem closed_refl {t : Table} {hs : List ℕ} : Closed t t hs ↔ hs = [] := by
  rw [Closed]
  simp [List.nil_perm]

end Handles
