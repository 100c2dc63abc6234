import Blktrace.Blkparse.PipeInput

/-!
# The device slots

`get_dev_info` finds the slot of a device number, or takes the first slot whose `dev` is still 0,
or makes a new one. So a device keeps its slot once it has one, unless its number is 0: to the next
device, the slot of device 0 looks unused. `Looked` is what holds of the devices after
`lookDev`, and `DevStep` what else happens to a slot in pipe mode.
-/

namespace Blktrace.Blkparse

/-- The first slot with a device number. -/
def slotOf : List PerDevInfo → UInt32 → Option Nat
  | [], _ => none
  | pdi :: rest, dev => if pdi.dev = dev then some 0 else (slotOf rest dev).map (· + 1)

/-- Unused slots come last. -/
def SlotsOk (devices : List PerDevInfo) : Prop :=
  devices.Pairwise fun a b => a.dev = 0 → b.dev = 0

theorem slotOf_spec {devices : List PerDevInfo} {dev : UInt32} {i : Nat}
    (h : slotOf devices dev = some i) : i < devices.length ∧ (devAt devices i).dev = dev := by
  induction devices generalizing i with
  | nil => simp [slotOf] at h
  | cons pdi rest ih =>
    rw [slotOf] at h
    split at h
    case isTrue hd =>
      cases h
      exact ⟨Nat.succ_pos _, hd⟩
    case isFalse =>
      obtain ⟨j, hj, rfl⟩ := Option.map_eq_some_iff.mp h
      obtain ⟨hlt, hdev⟩ := ih hj
      exact ⟨Nat.succ_lt_succ hlt, hdev⟩

/-- What a change that keeps every `dev` keeps of the slots. -/
theorem slotOf_congr {devices devices' : List PerDevInfo}
    (h : devices'.map PerDevInfo.dev = devices.map PerDevInfo.dev) (dev : UInt32) :
    slotOf devices' dev = slotOf devices dev := by
  induction devices generalizing devices' with
  | nil =>
    cases devices' with
    | nil => rfl
    | cons _ _ => simp at h
  | cons pdi rest ih =>
    cases devices' with
    | nil => simp at h
    | cons pdi' rest' =>
      rw [List.map_cons, List.map_cons, List.cons.injEq] at h
      rw [slotOf, slotOf, h.1, ih h.2]

theorem slotsOk_congr {devices devices' : List PerDevInfo}
    (h : devices'.map PerDevInfo.dev = devices.map PerDevInfo.dev) (hs : SlotsOk devices) :
    SlotsOk devices' := by
  have hmap : (devices.map PerDevInfo.dev).Pairwise fun a b => a = 0 → b = 0 :=
    List.pairwise_map.mpr hs
  rw [← h] at hmap
  exact List.pairwise_map.mp hmap

/-! ## `get_dev_info` -/

theorem getDevInfo_unused {pdi : PerDevInfo} (h : pdi.dev = 0) (rest : List PerDevInfo)
    (dev : UInt32) : getDevInfo (pdi :: rest) dev = ({ pdi with dev := dev } :: rest, 0) := by
  simp [getDevInfo, h]

theorem getDevInfo_hit {pdi : PerDevInfo} (h : pdi.dev ≠ 0) (rest : List PerDevInfo) :
    getDevInfo (pdi :: rest) pdi.dev = (pdi :: rest, 0) := by
  simp [getDevInfo, h]

theorem getDevInfo_miss {pdi : PerDevInfo} {dev : UInt32} (h : pdi.dev ≠ 0) (hd : pdi.dev ≠ dev)
    (rest : List PerDevInfo) : getDevInfo (pdi :: rest) dev
      = (pdi :: (getDevInfo rest dev).1, (getDevInfo rest dev).2 + 1) := by
  simp [getDevInfo, h, hd]

theorem getDevInfo_found (devices : List PerDevInfo) (dev : UInt32) :
    slotOf (getDevInfo devices dev).1 dev = some (getDevInfo devices dev).2 := by
  induction devices with
  | nil => simp [getDevInfo, slotOf]
  | cons pdi rest ih =>
    by_cases h0 : pdi.dev = 0
    · rw [getDevInfo_unused h0]
      simp [slotOf]
    · by_cases hd : pdi.dev = dev
      · subst hd
        rw [getDevInfo_hit h0]
        simp [slotOf]
      · rw [getDevInfo_miss h0 hd]
        simp [slotOf, hd, ih]

/-- A device that has a slot gets that one, and nothing changes. -/
theorem getDevInfo_of_slot {devices : List PerDevInfo} (hs : SlotsOk devices) {dev : UInt32}
    {i : Nat} (h : slotOf devices dev = some i) : getDevInfo devices dev = (devices, i) := by
  induction devices generalizing i with
  | nil => simp [slotOf] at h
  | cons pdi rest ih =>
    obtain ⟨hhead, hrest⟩ := List.pairwise_cons.mp hs
    rw [slotOf] at h
    split at h
    case isTrue hd =>
      cases h
      subst hd
      by_cases h0 : pdi.dev = 0
      · exact getDevInfo_unused h0 rest pdi.dev
      · exact getDevInfo_hit h0 rest
    case isFalse hd =>
      obtain ⟨j, hj, rfl⟩ := Option.map_eq_some_iff.mp h
      -- a later slot carries `dev`, so this one is in use
      have hne : pdi.dev ≠ 0 := by
        intro h0
        obtain ⟨hlt, hdev⟩ := slotOf_spec hj
        have hmem : devAt rest j ∈ rest := by
          rw [devAt, List.getD_eq_getElem _ _ hlt]
          exact List.getElem_mem hlt
        have hzero := hhead _ hmem h0
        rw [hdev] at hzero
        exact hd (h0.trans hzero.symm)
      rw [getDevInfo_miss hne hd, ih hrest hj]

theorem getDevInfo_slotsOk {devices : List PerDevInfo} (hs : SlotsOk devices) (dev : UInt32) :
    SlotsOk (getDevInfo devices dev).1 := by
  induction devices with
  | nil => exact List.pairwise_singleton _ _
  | cons pdi rest ih =>
    obtain ⟨hhead, hrest⟩ := List.pairwise_cons.mp hs
    by_cases h0 : pdi.dev = 0
    · -- the slot is taken, and what follows is unused as before
      rw [getDevInfo_unused h0]
      exact List.pairwise_cons.mpr ⟨fun b hb _ => hhead b hb h0, hrest⟩
    · by_cases hd : pdi.dev = dev
      · subst hd
        rwa [getDevInfo_hit h0]
      · rw [getDevInfo_miss h0 hd]
        exact List.pairwise_cons.mpr ⟨fun _ _ h => absurd h h0, ih hrest⟩

/-- The slot of another device is untouched, unless that is device 0. -/
theorem getDevInfo_other {devices : List PerDevInfo} {dev other : UInt32} (hne : other ≠ dev)
    (hother : other ≠ 0) :
    slotOf (getDevInfo devices dev).1 other = slotOf devices other ∧
      ∀ i, slotOf devices other = some i →
        devAt (getDevInfo devices dev).1 i = devAt devices i := by
  induction devices with
  | nil => simp [getDevInfo, slotOf, Ne.symm hne]
  | cons pdi rest ih =>
    obtain ⟨ih₁, ih₂⟩ := ih
    by_cases h0 : pdi.dev = 0
    · have hpdi : ¬ pdi.dev = other := fun h => hother (h.symm.trans h0)
      rw [getDevInfo_unused h0]
      simp only [slotOf, if_neg hpdi, if_neg (Ne.symm hne)]
      refine ⟨trivial, fun i hi => ?_⟩
      obtain ⟨j, -, rfl⟩ := Option.map_eq_some_iff.mp hi
      rfl
    · by_cases hd : pdi.dev = dev
      · subst hd
        rw [getDevInfo_hit h0]
        exact ⟨rfl, fun _ _ => rfl⟩
      · rw [getDevInfo_miss h0 hd]
        by_cases hpdi : pdi.dev = other
        · simp only [slotOf, if_pos hpdi]
          refine ⟨trivial, fun i hi => ?_⟩
          cases hi
          rfl
        · simp only [slotOf, if_neg hpdi, ih₁]
          refine ⟨trivial, fun i hi => ?_⟩
          obtain ⟨j, hj, rfl⟩ := Option.map_eq_some_iff.mp hi
          exact ih₂ j hj

/-- A slot of pipe mode: it has no CPU map, and the lowest sequence number of a CPU stays at the 0
it was cleared to. -/
def PerDevInfo.Plain (pdi : PerDevInfo) : Prop :=
  pdi.cpuMapMax = 0 ∧ ∀ cpu, (pdi.cpus cpu).smallestSeqRead = 0

theorem PerDevInfo.plain_default : PerDevInfo.Plain {} := ⟨rfl, fun _ => rfl⟩

theorem getDevInfo_plain {devices : List PerDevInfo} (hp : ∀ pdi ∈ devices, pdi.Plain)
    (dev : UInt32) : ∀ pdi ∈ (getDevInfo devices dev).1, pdi.Plain := by
  induction devices with
  | nil => simp [getDevInfo, PerDevInfo.Plain]
  | cons pdi rest ih =>
    obtain ⟨hhead, hrest⟩ := List.forall_mem_cons.mp hp
    by_cases h0 : pdi.dev = 0
    · rw [getDevInfo_unused h0]
      exact List.forall_mem_cons.mpr ⟨hhead, hrest⟩
    · by_cases hd : pdi.dev = dev
      · subst hd
        rwa [getDevInfo_hit h0]
      · rw [getDevInfo_miss h0 hd]
        exact List.forall_mem_cons.mpr ⟨hhead, ih hrest⟩

/-- A slot is as before, or a fresh or unused one that the device was given. -/
theorem getDevInfo_mem {devices : List PerDevInfo} {dev : UInt32} {pdi : PerDevInfo}
    (h : pdi ∈ (getDevInfo devices dev).1) :
    pdi ∈ devices ∨ ∃ pdi', (pdi' = {} ∨ pdi' ∈ devices ∧ pdi'.dev = 0) ∧
      pdi = { pdi' with dev := dev } := by
  induction devices with
  | nil => exact Or.inr ⟨{}, Or.inl rfl, List.mem_singleton.mp h⟩
  | cons head rest ih =>
    by_cases h0 : head.dev = 0
    · rw [getDevInfo_unused h0] at h
      rcases List.mem_cons.mp h with rfl | h
      · exact Or.inr ⟨head, Or.inr ⟨List.mem_cons_self, h0⟩, rfl⟩
      · exact Or.inl (List.mem_cons_of_mem _ h)
    · by_cases hd : head.dev = dev
      · subst hd
        rw [getDevInfo_hit h0] at h
        exact Or.inl h
      · rw [getDevInfo_miss h0 hd] at h
        rcases List.mem_cons.mp h with rfl | h
        · exact Or.inl List.mem_cons_self
        · rcases ih h with hmem | ⟨pdi', hpdi', heq⟩
          · exact Or.inl (List.mem_cons_of_mem _ hmem)
          · exact Or.inr ⟨pdi', hpdi'.imp_right fun h => ⟨List.mem_cons_of_mem _ h.1, h.2⟩, heq⟩

theorem slotOf_eq_none {devices : List PerDevInfo} {dev : UInt32}
    (h : slotOf devices dev = none) : ∀ pdi ∈ devices, pdi.dev ≠ dev := by
  induction devices with
  | nil => simp
  | cons head rest ih =>
    rw [slotOf] at h
    split at h
    case isTrue => cases h
    case isFalse hd => exact List.forall_mem_cons.mpr ⟨hd, ih (Option.map_eq_none_iff.mp h)⟩

theorem devAt_mem {devices : List PerDevInfo} {i : Nat} (h : i < devices.length) :
    devAt devices i ∈ devices := by
  rw [devAt, List.getD_eq_getElem _ _ h]
  exact List.getElem_mem h

/-! ## `lookDev` -/

/-- A remembered slot is the one its device would be given. -/
def CacheOk (devices : List PerDevInfo) (pdi : Option Nat) : Prop :=
  ∀ i, pdi = some i → slotOf devices (devAt devices i).dev = some i

/-- What looking up `dev` does to the devices. -/
structure Looked (devices devices' : List PerDevInfo) (dev : UInt32) (i : Nat) : Prop where
  found : slotOf devices' dev = some i
  slotsOk : SlotsOk devices'
  plain : (∀ pdi ∈ devices, pdi.Plain) → ∀ pdi ∈ devices', pdi.Plain
  same : slotOf devices dev ≠ none → devices' = devices
  other : ∀ d, d ≠ dev → d ≠ 0 → slotOf devices' d = slotOf devices d ∧
    ∀ j, slotOf devices d = some j → devAt devices' j = devAt devices j

theorem getDevInfo_looked {devices : List PerDevInfo} (hs : SlotsOk devices) (dev : UInt32) :
    Looked devices (getDevInfo devices dev).1 dev (getDevInfo devices dev).2 where
  found := getDevInfo_found devices dev
  slotsOk := getDevInfo_slotsOk hs dev
  plain hp := getDevInfo_plain hp dev
  same h := by
    obtain ⟨i, hi⟩ := Option.ne_none_iff_exists'.mp h
    rw [getDevInfo_of_slot hs hi]
  other d hne h0 := getDevInfo_other hne h0

theorem lookDev_looked {devices : List PerDevInfo} (hs : SlotsOk devices) {pdi : Option Nat}
    (hc : CacheOk devices pdi) (dev : UInt32) :
    Looked devices (lookDev devices pdi dev).1 dev (lookDev devices pdi dev).2 := by
  cases pdi with
  | none => exact getDevInfo_looked hs dev
  | some i =>
    rw [lookDev]
    split
    case isTrue => exact getDevInfo_looked hs dev
    case isFalse h =>
      have hdev := not_not.mp h
      have hfound := hc i rfl
      rw [hdev] at hfound
      exact ⟨hfound, hs, id, fun _ => rfl, fun _ _ _ => ⟨rfl, fun _ _ => rfl⟩⟩

/-- A device without a slot is looked up by `get_dev_info`. -/
theorem lookDev_eq {devices : List PerDevInfo} {pdi : Option Nat} (hc : CacheOk devices pdi)
    {dev : UInt32} (h : slotOf devices dev = none) :
    lookDev devices pdi dev = getDevInfo devices dev := by
  cases pdi with
  | none => rfl
  | some i =>
    rw [lookDev, if_pos]
    intro hdev
    have hfound := hc i rfl
    rw [hdev, h] at hfound
    cases hfound

theorem Looked.cacheOk {devices devices' : List PerDevInfo} {dev : UInt32} {i : Nat}
    (h : Looked devices devices' dev i) : CacheOk devices' (some i) := by
  intro j hj
  cases hj
  rw [(slotOf_spec h.found).2]
  exact h.found

/-! ## Changing a slot -/

theorem set_dev {devices : List PerDevInfo} {i : Nat} {pdi : PerDevInfo}
    (h : pdi.dev = (devAt devices i).dev) :
    (devices.set i pdi).map PerDevInfo.dev = devices.map PerDevInfo.dev := by
  induction devices generalizing i with
  | nil => rfl
  | cons head rest ih =>
    cases i with
    | zero => exact congrArg (· :: rest.map PerDevInfo.dev) h
    | succ i => exact congrArg (head.dev :: ·) (ih h)

theorem devAt_set_self {devices : List PerDevInfo} {i : Nat} (hi : i < devices.length)
    (pdi : PerDevInfo) : devAt (devices.set i pdi) i = pdi := by
  simp [devAt, List.getD, hi]

theorem devAt_set_of_ne {devices : List PerDevInfo} {i j : Nat} (h : j ≠ i) (pdi : PerDevInfo) :
    devAt (devices.set i pdi) j = devAt devices j := by
  simp [devAt, List.getD, Ne.symm h]

theorem devAt_plain {devices : List PerDevInfo} (hp : ∀ pdi ∈ devices, pdi.Plain) (i : Nat) :
    (devAt devices i).Plain := by
  by_cases hi : i < devices.length
  · rw [devAt, List.getD_eq_getElem _ _ hi]
    exact hp _ (List.getElem_mem hi)
  · rw [devAt, List.getD_eq_default _ _ (Nat.le_of_not_lt hi)]
    exact PerDevInfo.plain_default

end Blktrace.Blkparse
