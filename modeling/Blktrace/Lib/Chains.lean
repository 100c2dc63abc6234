import Mathlib.Data.List.Nodup
import Mathlib.Tactic.Cases
import Mathlib.Tactic.SplitIfs

/-!
# A hash table of chains

Members are stored in front of the chain that their key hashes to, and fetched from it by their key.
While no key is stored twice, the table is a map from keys to at most one member.
-/

namespace Chains

variable {ι κ α : Type*} [DecidableEq ι] [DecidableEq κ] (key : α → κ) (slot : κ → ι)

def store (t : ι → List α) (a : α) : ι → List α :=
  Function.update t (slot (key a)) (a :: t (slot (key a)))

/-- The first member of the chain that has the key. -/
def held (t : ι → List α) (k : κ) : Option α := (t (slot k)).find? fun a => key a = k

/-- The table without that member. -/
def unlink (t : ι → List α) (k : κ) : ι → List α :=
  Function.update t (slot k) ((t (slot k)).eraseP fun a => key a = k)

def fetch (t : ι → List α) (k : κ) : Option (α × (ι → List α)) :=
  (held key slot t k).map fun a => (a, unlink key slot t k)

/-- No key is stored twice. -/
def Single (t : ι → List α) : Prop := ∀ i, ((t i).map key).Nodup

variable {key slot}

omit [DecidableEq ι] [DecidableEq κ] in
theorem single_nil : Single key (fun _ : ι => []) := fun _ => List.nodup_nil

omit [DecidableEq ι] in
theorem key_of_held {t : ι → List α} {k : κ} {a : α} (h : held key slot t k = some a) :
    key a = k := by
  simpa using List.find?_some h

theorem held_store (t : ι → List α) (a : α) (k : κ) :
    held key slot (store key slot t a) k = if key a = k then some a else held key slot t k := by
  unfold held store
  by_cases hslot : slot k = slot (key a)
  · rw [hslot, Function.update_self, List.find?_cons]
    split_ifs with hk
    · simp [hk]
    · simp [hk]
  · rw [Function.update_of_ne hslot, if_neg fun hk => hslot (by rw [hk])]

/-- What has just been stored is fetched, and leaves the table as it was. -/
theorem fetch_store (t : ι → List α) (a : α) :
    fetch key slot (store key slot t a) (key a) = some (a, t) := by
  have hheld : held key slot (store key slot t a) (key a) = some a := by
    rw [held_store, if_pos rfl]
  have hunlink : unlink key slot (store key slot t a) (key a) = t := by
    unfold unlink store
    rw [Function.update_self, Function.update_idem, List.eraseP_cons_of_pos (by simp)]
    exact Function.update_eq_self _ t
  rw [fetch, hheld, Option.map_some, hunlink]

/-- Without a member of another key the others are found as before. -/
theorem find?_eraseP_of_ne {k k' : κ} (hk : k' ≠ k) (l : List α) :
    (l.eraseP fun a => key a = k).find? (fun a => key a = k') = l.find? fun a => key a = k' := by
  induction l with
  | nil => rfl
  | cons a l ih =>
    by_cases ha : key a = k
    · rw [List.eraseP_cons_of_pos (by simpa using ha), List.find?_cons_of_neg]
      rw [ha]
      simpa using fun h : k = k' => hk h.symm
    · rw [List.eraseP_cons_of_neg (by simpa using ha), List.find?_cons, List.find?_cons, ih]

theorem find?_eraseP_self {k : κ} {l : List α} (h : (l.map key).Nodup) :
    (l.eraseP fun a => key a = k).find? (fun a => key a = k) = none := by
  induction l with
  | nil => rfl
  | cons a l ih =>
    rw [List.map_cons, List.nodup_cons] at h
    by_cases ha : key a = k
    · rw [List.eraseP_cons_of_pos (by simpa using ha), List.find?_eq_none]
      intro b hb hkb
      rw [ha] at h
      exact h.1 (List.mem_map.mpr ⟨b, hb, by simpa using hkb⟩)
    · rw [List.eraseP_cons_of_neg (by simpa using ha), List.find?_cons_of_neg (by simpa using ha),
        ih h.2]

theorem held_unlink {t : ι → List α} (h : Single key t) (k k' : κ) :
    held key slot (unlink key slot t k) k' = if k = k' then none else held key slot t k' := by
  unfold held unlink
  split_ifs with hk
  · rw [← hk, Function.update_self, find?_eraseP_self (h _)]
  · by_cases hslot : slot k' = slot k
    · rw [hslot, Function.update_self, find?_eraseP_of_ne (Ne.symm hk)]
    · rw [Function.update_of_ne hslot]

theorem Single.unlink {t : ι → List α} (h : Single key t) (k : κ) :
    Single key (unlink key slot t k) := by
  intro i
  unfold Chains.unlink
  by_cases hi : i = slot k
  · rw [hi, Function.update_self]
    exact (h _).sublist (List.eraseP_sublist.map key)
  · rw [Function.update_of_ne hi]
    exact h i

theorem Single.store {t : ι → List α} (h : Single key t) {a : α}
    (hnone : held key slot t (key a) = none) : Single key (store key slot t a) := by
  intro i
  unfold Chains.store
  by_cases hi : i = slot (key a)
  · rw [hi, Function.update_self, List.map_cons, List.nodup_cons]
    refine ⟨fun hmem => ?_, h _⟩
    obtain ⟨b, hb, hkey⟩ := List.mem_map.mp hmem
    have hne := List.find?_eq_none.mp hnone b hb
    simp [hkey] at hne
  · rw [Function.update_of_ne hi]
    exact h i

/-! ## Members that stand for others -/

section

variable {β : Type*} (f : β → α) (t : ι → List β)

omit [DecidableEq ι] in
theorem held_map (k : κ) :
    held key slot (fun i => (t i).map f) k = (held (fun b => key (f b)) slot t k).map f := by
  unfold held
  rw [List.find?_map]
  rfl

omit [DecidableEq κ] in
theorem store_map (b : β) :
    store key slot (fun i => (t i).map f) (f b) =
      fun i => (store (fun b => key (f b)) slot t b i).map f := by
  funext i
  unfold store
  by_cases hi : i = slot (key (f b))
  · subst hi
    rw [Function.update_self, Function.update_self]
    rfl
  · rw [Function.update_of_ne hi, Function.update_of_ne hi]

theorem unlink_map (k : κ) :
    unlink key slot (fun i => (t i).map f) k =
      fun i => (unlink (fun b => key (f b)) slot t k i).map f := by
  funext i
  unfold unlink
  by_cases hi : i = slot k
  · subst hi
    rw [Function.update_self, Function.update_self, List.eraseP_map]
    rfl
  · rw [Function.update_of_ne hi, Function.update_of_ne hi]

end

end Chains
