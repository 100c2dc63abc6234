import Mathlib.Data.List.Flatten
import Mathlib.Data.List.Nodup
import Mathlib.Data.List.Perm.Subperm
import Mathlib.Tactic.Cases

/-!
# Accounts and their reports

Entries are booked on accounts, and an account is closed with a report of its entries. As long as an
account is charged only while it is open and reported with all it was charged, every entry is in
one report or on one open account.
-/

namespace Ledger

variable {ι α ρ : Type*}

/-- The entries in the reports and those on the open accounts are all the entries. -/
def Balanced (Rep : ρ → List α → Prop) (reports : List ρ) (opened : List ι) (book : ι → List α)
    (entries : List α) : Prop :=
  ∃ parts, List.Forall₂ Rep reports parts ∧ (parts.flatten ++ opened.flatMap book).Perm entries

/-- No entry is in two reports, and with no account open each is in one. -/
def Reported (Rep : ρ → List α → Prop) (reports : List ρ) (closed : Prop) (entries : List α) :
    Prop :=
  ∃ parts, List.Forall₂ Rep reports parts ∧ parts.flatten.Subperm entries ∧
    (closed → parts.flatten.Perm entries)

variable {Rep : ρ → List α → Prop} {reports : List ρ} {opened : List ι} {book : ι → List α}
  {entries : List α}

theorem balanced_nil : Balanced Rep [] ([] : List ι) book [] :=
  ⟨[], .nil, .nil⟩

theorem Balanced.reported (h : Balanced Rep reports opened book entries) {closed : Prop}
    (hclosed : closed → opened = []) : Reported Rep reports closed entries := by
  obtain ⟨parts, hparts, hperm⟩ := h
  refine ⟨parts, hparts, (List.sublist_append_left _ _).subperm.trans hperm.subperm, fun hc => ?_⟩
  simpa [hclosed hc] using hperm

/-- The order of the accounts does not matter, nor what is booked on others. -/
theorem Balanced.congr (h : Balanced Rep reports opened book entries) {opened' : List ι}
    {book' : ι → List α} (hperm : opened.Perm opened') (hbook : ∀ i ∈ opened', book' i = book i) :
    Balanced Rep reports opened' book' entries := by
  obtain ⟨parts, hparts, hall⟩ := h
  refine ⟨parts, hparts, ?_⟩
  rw [List.flatMap_congr hbook]
  exact (List.Perm.append_left _ (hperm.flatMap_right book)).symm.trans hall

theorem flatMap_update_of_notMem [DecidableEq ι] {i : ι} (hi : i ∉ opened) (part : List α) :
    opened.flatMap (Function.update book i part) = opened.flatMap book := by
  apply List.flatMap_congr
  intro j hj
  have hne : j ≠ i := by
    rintro rfl
    exact hi hj
  rw [Function.update_of_ne hne]

/-- An entry is booked on an open account. -/
theorem Balanced.charge [DecidableEq ι] (h : Balanced Rep reports opened book entries) {i : ι}
    (hi : i ∈ opened) (hn : opened.Nodup) (a : α) :
    Balanced Rep reports opened (Function.update book i (book i ++ [a])) (entries ++ [a]) := by
  have hfront : opened.Perm (i :: opened.erase i) := List.perm_cons_erase hi
  obtain ⟨parts, hparts, hall⟩ := h.congr hfront fun _ _ => rfl
  suffices hopen : Balanced Rep reports (i :: opened.erase i) (Function.update book i (book i ++ [a]))
      (entries ++ [a]) from hopen.congr hfront.symm fun _ _ => rfl
  refine ⟨parts, hparts, ?_⟩
  rw [List.flatMap_cons, Function.update_self, flatMap_update_of_notMem hn.not_mem_erase]
  rw [List.flatMap_cons] at hall
  refine List.Perm.trans ?_ (hall.append_right [a])
  rw [List.append_assoc, List.append_assoc, List.append_assoc]
  exact ((List.perm_append_comm).append_left _).append_left _

/-- An account is opened with an entry. -/
theorem Balanced.enter [DecidableEq ι] (h : Balanced Rep reports opened book entries) {i : ι}
    {opened' : List ι} (hopen : opened'.Perm (i :: opened)) (hi : i ∉ opened) (a : α) :
    Balanced Rep reports opened' (Function.update book i [a]) (entries ++ [a]) := by
  obtain ⟨parts, hparts, hall⟩ := h
  suffices hfront : Balanced Rep reports (i :: opened) (Function.update book i [a]) (entries ++ [a]) from
    hfront.congr hopen.symm fun _ _ => rfl
  refine ⟨parts, hparts, ?_⟩
  rw [List.flatMap_cons, Function.update_self, flatMap_update_of_notMem hi]
  refine List.Perm.trans ?_ (hall.append_right [a])
  rw [List.append_assoc]
  exact (List.perm_append_comm).append_left _

/-- An account is closed with a report of its entries. -/
theorem Balanced.close (h : Balanced Rep reports opened book entries) {i : ι} {opened' : List ι}
    (hclose : opened.Perm (i :: opened')) {r : ρ} (hr : Rep r (book i)) :
    Balanced Rep (reports ++ [r]) opened' book entries := by
  obtain ⟨parts, hparts, hall⟩ := h.congr hclose fun _ _ => rfl
  refine ⟨parts ++ [book i], List.rel_append hparts (.cons hr .nil), ?_⟩
  rw [List.flatten_append, List.flatten_singleton, List.append_assoc, ← List.flatMap_cons]
  exact hall

end Ledger
