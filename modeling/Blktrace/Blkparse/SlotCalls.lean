import Blktrace.Blkparse.Slots
import Mathlib.Data.List.Induction

/-!
# One slot for each device

Any calls of `get_dev_info`, one after the other. A device number of 0 marks a slot as unused, so the
slot that device 0 was given goes to the next device that has none.
-/

namespace Blktrace.Blkparse

/-- The devices after some calls of `get_dev_info`, and what each call was given and returned. -/
def getDevInfos (names : Nat) (calls : List UInt32) : List PerDevInfo × List (UInt32 × Nat) :=
  calls.foldl
    (fun s dev => ((getDevInfo s.1 dev).1, s.2 ++ [(dev, (getDevInfo s.1 dev).2)]))
    (List.replicate names {}, [])

theorem getDevInfos_concat (names : Nat) (calls : List UInt32) (dev : UInt32) :
    getDevInfos names (calls ++ [dev]) = ((getDevInfo (getDevInfos names calls).1 dev).1,
      (getDevInfos names calls).2 ++ [(dev, (getDevInfo (getDevInfos names calls).1 dev).2)]) := by
  rw [getDevInfos, List.foldl_concat]
  rfl

/-- Calls return the same slot just for the same device, and no slot changes its device once it was
returned. -/
structure OwnSlots (names : Nat) (calls : List UInt32) : Prop where
  same_iff : ∀ a ∈ (getDevInfos names calls).2, ∀ b ∈ (getDevInfos names calls).2, a.2 = b.2 ↔ a.1 = b.1
  keeps : ∀ pre, pre <+: calls → ∀ a ∈ (getDevInfos names pre).2,
    (devAt (getDevInfos names pre).1 a.2).dev = a.1

/-- Once device 0 was asked for, no device is asked for that was not before. -/
def NoneAfterZero (calls : List UInt32) : Prop :=
  ∀ pre dev post, calls = pre ++ dev :: post → 0 ∈ pre → dev ∈ pre

theorem noneAfterZero_concat {calls : List UInt32} {dev : UInt32} :
    NoneAfterZero (calls ++ [dev]) ↔ NoneAfterZero calls ∧ (0 ∈ calls → dev ∈ calls) := by
  constructor
  · intro h
    refine ⟨fun pre d post heq => ?_, h calls dev [] rfl⟩
    apply h pre d (post ++ [dev])
    rw [heq, List.append_assoc, List.cons_append]
  · rintro ⟨hcalls, hdev⟩ pre d post heq
    rcases List.eq_nil_or_concat post with rfl | ⟨post', last, rfl⟩
    · obtain ⟨rfl, rfl⟩ := List.append_singleton_inj.mp heq
      exact hdev
    · rw [List.concat_eq_append, ← List.cons_append, ← List.append_assoc] at heq
      obtain ⟨hpre, -⟩ := List.append_singleton_inj.mp heq
      exact hcalls pre d post' hpre

/-- A device without a slot is given that of device 0. -/
theorem getDevInfo_takes {devices : List PerDevInfo} {dev : UInt32} {k : Nat}
    (hnone : slotOf devices dev = none) (hzero : slotOf devices 0 = some k) : (getDevInfo devices dev).2 = k := by
  induction devices generalizing k with
  | nil => exact nomatch hzero
  | cons pdi rest ih =>
    have hdev := slotOf_eq_none hnone pdi List.mem_cons_self
    rw [slotOf, if_neg hdev, Option.map_eq_none_iff] at hnone
    rw [slotOf] at hzero
    split at hzero
    case isTrue h0 =>
      obtain rfl := Option.some.inj hzero
      rw [getDevInfo_unused h0]
    case isFalse h0 =>
      obtain ⟨j, hj, rfl⟩ := Option.map_eq_some_iff.mp hzero
      rw [getDevInfo_miss h0 hdev, ih hnone hj]

/-- Every device that was asked for has its slot, and no other has one. -/
structure Held (s : List PerDevInfo × List (UInt32 × Nat)) : Prop where
  slotsOk : SlotsOk s.1
  found : ∀ a ∈ s.2, slotOf s.1 a.1 = some a.2
  known : ∀ pdi ∈ s.1, pdi.dev = 0 ∨ pdi.dev ∈ s.2.map Prod.fst

theorem asked_devices (names : Nat) (calls : List UInt32) : (getDevInfos names calls).2.map Prod.fst = calls := by
  induction calls using List.reverseRecOn with
  | nil => rfl
  | append_singleton calls dev ih =>
    rw [getDevInfos_concat, List.map_append, ih]
    rfl

namespace Held

variable {names : Nat} {calls : List UInt32}

theorem nil : Held (getDevInfos names []) := by
  refine ⟨List.pairwise_replicate.mpr (Or.inr fun h => h), nofun, fun pdi hpdi => Or.inl ?_⟩
  rw [List.eq_of_mem_replicate hpdi]

/-- One more call. -/
theorem concat (h : Held (getDevInfos names calls)) {dev : UInt32} (hdev : 0 ∈ calls → dev ∈ calls) :
    Held (getDevInfos names (calls ++ [dev])) := by
  have hcalls := asked_devices names calls
  rw [getDevInfos_concat]
  generalize getDevInfos names calls = s at h hcalls
  refine ⟨getDevInfo_slotsOk h.slotsOk dev, List.forall_mem_append.mpr ⟨fun a ha => ?_, ?_⟩, fun pdi hpdi => ?_⟩
  · have hfound := h.found a ha
    by_cases hsame : a.1 = dev
    · subst hsame
      rw [getDevInfo_of_slot h.slotsOk hfound]
      exact hfound
    · by_cases hzero : a.1 = 0
      · -- device 0 was asked for, so this one was too, and nothing changes
        have hmem : dev ∈ s.2.map Prod.fst := by
          rw [hcalls]
          apply hdev
          rw [← hcalls, ← hzero]
          exact List.mem_map_of_mem ha
        obtain ⟨b, hb, rfl⟩ := List.mem_map.mp hmem
        rw [getDevInfo_of_slot h.slotsOk (h.found b hb)]
        exact hfound
      · rw [(getDevInfo_other hsame hzero).1]
        exact hfound
  · exact List.forall_mem_singleton.mpr (getDevInfo_found s.1 dev)
  · rw [List.map_append, List.mem_append]
    rcases getDevInfo_mem hpdi with hold | ⟨pdi', -, rfl⟩
    · exact (h.known pdi hold).imp_right Or.inl
    · exact Or.inr (Or.inr (List.mem_singleton_self dev))

/-- A new device after device 0 is given the slot of device 0. -/
theorem takes (h : Held (getDevInfos names calls)) {dev : UInt32} (hzero : 0 ∈ calls) (hdev : dev ∉ calls) :
    ∃ k, (0, k) ∈ (getDevInfos names calls).2 ∧ (getDevInfo (getDevInfos names calls).1 dev).2 = k := by
  have hcalls := asked_devices names calls
  rw [← hcalls] at hzero
  obtain ⟨a, ha, ha0⟩ := List.mem_map.mp hzero
  have hne : dev ≠ 0 := by
    rintro rfl
    rw [← hcalls] at hdev
    exact hdev hzero
  refine ⟨a.2, ha0 ▸ ha, getDevInfo_takes ?_ (ha0 ▸ h.found a ha)⟩
  by_contra hslot
  obtain ⟨j, hj⟩ := Option.ne_none_iff_exists'.mp hslot
  obtain ⟨hlt, hat⟩ := slotOf_spec hj
  rcases h.known _ (devAt_mem hlt) with h0 | hmem
  · exact hne (hat.symm.trans h0)
  · rw [hat, hcalls] at hmem
    exact hdev hmem

end Held

theorem held_of_noneAfterZero {names : Nat} {calls : List UInt32} (h : NoneAfterZero calls) :
    Held (getDevInfos names calls) := by
  induction calls using List.reverseRecOn with
  | nil => exact Held.nil
  | append_singleton calls dev ih =>
    obtain ⟨hcalls, hdev⟩ := noneAfterZero_concat.mp h
    exact (ih hcalls).concat hdev

theorem OwnSlots.of_concat {names : Nat} {calls : List UInt32} {dev : UInt32}
    (h : OwnSlots names (calls ++ [dev])) : OwnSlots names calls := by
  obtain ⟨hsame, hkeeps⟩ := h
  rw [getDevInfos_concat] at hsame
  refine ⟨fun a ha b hb => ?_, fun pre hpre => hkeeps pre (hpre.trans (List.prefix_append _ _))⟩
  exact hsame a (List.mem_append_left _ ha) b (List.mem_append_left _ hb)

/-- **The slots of devices** are apart and stay, just if no new device comes after device 0. -/
theorem ownSlots_iff (names : Nat) (calls : List UInt32) : OwnSlots names calls ↔ NoneAfterZero calls := by
  constructor
  · intro h
    induction calls using List.reverseRecOn with
    | nil => exact fun pre dev post heq => nomatch List.append_eq_nil_iff.mp heq.symm
    | append_singleton calls dev ih =>
      have hcalls := ih h.of_concat
      refine noneAfterZero_concat.mpr ⟨hcalls, fun hzero => ?_⟩
      by_contra hdev
      obtain ⟨k, hk, htaken⟩ := (held_of_noneAfterZero hcalls).takes hzero hdev
      have hsame := h.same_iff (0, k) (by rw [getDevInfos_concat]; exact List.mem_append_left _ hk) (dev, k)
        (by rw [getDevInfos_concat, htaken]; exact List.mem_append_right _ (List.mem_singleton_self _))
      have heq : 0 = dev := hsame.mp rfl
      rw [heq] at hzero
      exact hdev hzero
  · intro h
    have hheld : ∀ pre, pre <+: calls → Held (getDevInfos names pre) := by
      rintro pre ⟨rest, rfl⟩
      apply held_of_noneAfterZero
      intro pre' dev post heq
      exact h pre' dev (post ++ rest) (by rw [heq, List.append_assoc, List.cons_append])
    have hat : ∀ pre, pre <+: calls → ∀ a ∈ (getDevInfos names pre).2,
        (devAt (getDevInfos names pre).1 a.2).dev = a.1 := fun pre hpre a ha =>
      (slotOf_spec ((hheld pre hpre).found a ha)).2
    refine ⟨fun a ha b hb => ⟨fun hslot => ?_, fun hdev => ?_⟩, hat⟩
    · rw [← hat calls (List.prefix_refl _) a ha, hslot, hat calls (List.prefix_refl _) b hb]
    · have hfound := (hheld calls (List.prefix_refl _)).found a ha
      rw [hdev, (hheld calls (List.prefix_refl _)).found b hb] at hfound
      exact (Option.some.inj hfound).symm

/-- Device 5 comes after device 0, and is given its slot. -/
theorem not_ownSlots : ¬ OwnSlots 0 [0, 5] := by
  intro h
  have hsame := h.same_iff (0, 0) (by decide) (5, 0) (by decide)
  exact absurd (hsame.mp rfl) (by decide)

end Blktrace.Blkparse
