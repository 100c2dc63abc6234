import Blktrace.Lib.Tiling
import Blktrace.Iowatcher.Seconds

/-!
# `iowatcher/blkparse.c`: the devices of a trace on one axis

`map_devices` looks for the smallest and the largest offset of each device and lays the devices one behind
another, and `map_io` sends an IO to its place among them. A device is zeroed before its first IO, so what
is taken for its smallest offset is 0 for ever.
-/

namespace Blktrace.Iowatcher

/-! ## The functions -/

/-- `struct dev_info`. -/
structure DevInfo where
  device : UInt32
  min : UInt64 := 0
  max : UInt64 := 0
  map : UInt64 := 0

/-- `MAX_DEVICES_PER_TRACE`. -/
def maxDevicesPerTrace : ℕ := 64

/-- `lookup_dev`: the devices, and which of them it is. The program exits where they are too many. -/
def lookupDev (devices : List DevInfo) (dev : UInt32) : Option (List DevInfo × ℕ) :=
  match devices.findIdx? (·.device = dev) with
  | some i => some (devices, i)
  | none =>
    if maxDevicesPerTrace ≤ devices.length then none
    else some (devices ++ [{ device := dev }], devices.length)

/-- What `map_devices` does to the device of an IO. -/
def DevInfo.widen (di : DevInfo) (io : BlkIoTrace) : DevInfo :=
  let found := io.sector <<< 9
  let di := if found < di.min then { di with min := found } else di
  let found := found + io.bytes.toUInt64
  if di.max < found then { di with max := found } else di

/-- A turn of its first loop. -/
def mapDevice (devices : List DevInfo) (io : BlkIoTrace) : Option (List DevInfo) :=
  if io.hasTc blkTcNotify then some devices
  else (lookupDev devices io.device).map fun (devices, i) => devices.modify i (·.widen io)

/-- Its second loop. -/
def layDevices : UInt64 → List DevInfo → List DevInfo
  | _, [] => []
  | mapStart, di :: devices =>
    { di with map := mapStart } :: layDevices (mapStart + (di.max - di.min)) devices

/-- `map_devices`, over the records that `first_record` and `next_record` go through. -/
def mapDevices (recs : List BlkIoTrace) : Option (List DevInfo) :=
  (recs.foldlM mapDevice []).map (layDevices 0)

/-- `map_io`. -/
def mapIo (devices : List DevInfo) (io : BlkIoTrace) : Option UInt64 :=
  (lookupDev devices io.device).bind fun (devices, i) =>
    devices[i]?.map fun di => di.map + io.sector <<< 9 - di.min

/-! ## What is claimed -/

/-- The IOs of a trace. -/
def iosOf (recs : List BlkIoTrace) : List BlkIoTrace := recs.filter fun io => !io.hasTc blkTcNotify

/-- Those of a device. -/
def ofDevice (recs : List BlkIoTrace) (dev : UInt32) : List BlkIoTrace :=
  (iosOf recs).filter fun io => io.device = dev

/-- Where an IO begins, in bytes. -/
def startOf (io : BlkIoTrace) : ℕ := io.sector.toNat * 512

/-- Where it ends. -/
def endOf (io : BlkIoTrace) : ℕ := startOf io + io.bytes.toNat

/-- `[map, map + max - min)`, by its start and its length. -/
def DevInfo.window (di : DevInfo) : ℕ × ℕ := (di.map.toNat, di.max.toNat - di.min.toNat)

/-- **The devices are mapped**: each from its smallest start to its largest end, none into another, and
every IO into its own, different sectors to different places. -/
structure Mapped (recs : List BlkIoTrace) (devices : List DevInfo) : Prop where
  least : ∀ di ∈ devices, IsLeast (startOf '' {io | io ∈ ofDevice recs di.device}) di.min.toNat
  greatest : ∀ di ∈ devices, IsGreatest (endOf '' {io | io ∈ ofDevice recs di.device}) di.max.toNat
  apart : (devices.map DevInfo.window).Pairwise Tiling.Apart
  inside : ∀ io ∈ iosOf recs, ∃ di ∈ devices, di.device = io.device ∧ ∃ off, mapIo devices io = some off ∧
    di.window.1 ≤ off.toNat ∧ off.toNat < di.window.1 + di.window.2
  injective : ∀ io ∈ iosOf recs, ∀ io' ∈ iosOf recs, io.device = io'.device →
    mapIo devices io = mapIo devices io' → io.sector = io'.sector

/-- The devices of a trace, in the order that they come up. -/
def devicesOf (recs : List BlkIoTrace) : List UInt32 :=
  (iosOf recs).foldl (fun devs io => if io.device ∈ devs then devs else devs ++ [io.device]) []

/-- The largest end on a device. -/
def sizeOn (recs : List BlkIoTrace) (dev : UInt32) : ℕ := ((ofDevice recs dev).map endOf).foldr max 0

/-- What the devices that come up before it add up to. -/
def baseOf (recs : List BlkIoTrace) (dev : UInt32) : ℕ :=
  (((devicesOf recs).take ((devicesOf recs).idxOf dev)).map (sizeOn recs)).sum

/-- A device has an IO at its very beginning, no IO of it begins at its end, and neither the IO nor its
place on the axis is beyond 64 bits. -/
structure Placed (recs : List BlkIoTrace) (io : BlkIoTrace) : Prop where
  zero : ∃ io' ∈ ofDevice recs io.device, io'.sector = 0
  inside : startOf io < sizeOn recs io.device
  ends : endOf io < 2 ^ 64
  fits : baseOf recs io.device + startOf io < 2 ^ 64

/-! ## The first loop -/

variable {recs : List BlkIoTrace} {io : BlkIoTrace} {dev : UInt32}

theorem iosOf_concat : iosOf (recs ++ [io]) =
    if io.hasTc blkTcNotify then iosOf recs else iosOf recs ++ [io] := by
  cases h : io.hasTc blkTcNotify <;> simp [iosOf, h]

theorem ofDevice_concat (h : io.hasTc blkTcNotify = false) : ofDevice (recs ++ [io]) dev =
    if io.device = dev then ofDevice recs dev ++ [io] else ofDevice recs dev := by
  rw [ofDevice, iosOf_concat, h]
  by_cases hdev : io.device = dev <;> simp [ofDevice, hdev]

theorem devicesOf_concat (h : io.hasTc blkTcNotify = false) : devicesOf (recs ++ [io]) =
    if io.device ∈ devicesOf recs then devicesOf recs else devicesOf recs ++ [io.device] := by
  rw [devicesOf, iosOf_concat, h]
  exact List.foldl_concat ..

/-- A notify is no IO. -/
theorem concat_notify (recs : List BlkIoTrace) (h : io.hasTc blkTcNotify = true) :
    devicesOf (recs ++ [io]) = devicesOf recs ∧ ofDevice (recs ++ [io]) = ofDevice recs := by
  have hios : iosOf (recs ++ [io]) = iosOf recs := by rw [iosOf_concat, if_pos h]
  constructor
  · rw [devicesOf, hios]
    rfl
  · funext dev
    rw [ofDevice, hios]
    rfl

theorem devicesOf_nodup (recs : List BlkIoTrace) : (devicesOf recs).Nodup := by
  induction recs using List.reverseRecOn with
  | nil => exact List.nodup_nil
  | append_singleton recs io ih =>
    cases h : io.hasTc blkTcNotify with
    | true =>
      rw [(concat_notify recs h).1]
      exact ih
    | false =>
      rw [devicesOf_concat h]
      split_ifs with hmem
      · exact ih
      · rw [← List.concat_eq_append]
        exact ih.concat hmem

theorem mem_ofDevice : io ∈ ofDevice recs dev ↔ io ∈ iosOf recs ∧ io.device = dev := by
  rw [ofDevice, List.mem_filter, decide_eq_true_iff]

theorem mem_devicesOf : dev ∈ devicesOf recs ↔ ofDevice recs dev ≠ [] := by
  induction recs using List.reverseRecOn with
  | nil => simp [devicesOf, iosOf, ofDevice]
  | append_singleton recs io ih =>
    cases h : io.hasTc blkTcNotify with
    | true =>
      rw [(concat_notify recs h).1, (concat_notify recs h).2]
      exact ih
    | false =>
      rw [devicesOf_concat h, ofDevice_concat h]
      by_cases hdev : io.device = dev
      · subst hdev
        rw [if_pos rfl]
        split_ifs with hmem <;> simp [hmem]
      · rw [if_neg hdev, ← ih]
        split_ifs
        · rfl
        · simp [Ne.symm hdev]

/-- The end of an IO, as the loop has it. -/
def foundEnd (io : BlkIoTrace) : UInt64 := io.sector <<< 9 + io.bytes.toUInt64

/-- `max`, as the loop finds it. -/
def maxOn (recs : List BlkIoTrace) (dev : UInt32) : UInt64 :=
  (ofDevice recs dev).foldl (fun last io => if last < foundEnd io then foundEnd io else last) 0

/-- What the first loop leaves of a device. -/
def found (recs : List BlkIoTrace) (dev : UInt32) : DevInfo := { device := dev, max := maxOn recs dev }

theorem found_concat (h : io.hasTc blkTcNotify = false) :
    found (recs ++ [io]) dev = if io.device = dev then (found recs dev).widen io else found recs dev := by
  by_cases hdev : io.device = dev
  · rw [if_pos hdev, found, maxOn, ofDevice_concat h, if_pos hdev, List.foldl_concat, ← maxOn]
    have hmin : ¬ io.sector <<< 9 < 0 := UInt64.not_lt.mpr UInt64.zero_le
    unfold found DevInfo.widen foundEnd
    dsimp only
    rw [if_neg hmin]
    dsimp only
    split_ifs <;> rfl
  · rw [if_neg hdev, found, maxOn, ofDevice_concat h, if_neg hdev]
    rfl

/-- The device of an IO is entered at its place, and that is all. -/
theorem lookupDev_found {i : ℕ} {devices : List DevInfo} {recs' : List BlkIoTrace}
    (h : lookupDev ((devicesOf recs).map (found recs')) dev = some (devices, i))
    (hnew : dev ∉ devicesOf recs → found recs' dev = { device := dev }) :
    ∃ devs, devs = (if dev ∈ devicesOf recs then devicesOf recs else devicesOf recs ++ [dev]) ∧
      devices = devs.map (found recs') ∧ devs[i]? = some dev := by
  unfold lookupDev at h
  rw [List.findIdx?_map] at h
  refine ⟨_, rfl, ?_⟩
  cases hfind : (devicesOf recs).findIdx? ((fun di : DevInfo => decide (di.device = dev)) ∘ found recs') with
  | some j =>
    rw [hfind] at h
    obtain ⟨rfl, rfl⟩ := Prod.mk.inj (Option.some.inj h)
    obtain ⟨hj, hdev, -⟩ := List.findIdx?_eq_some_iff_getElem.mp hfind
    have hdev : (devicesOf recs)[j] = dev := of_decide_eq_true hdev
    have hmem : dev ∈ devicesOf recs := hdev ▸ List.getElem_mem hj
    rw [if_pos hmem, List.getElem?_eq_getElem hj, hdev]
    exact ⟨rfl, rfl⟩
  | none =>
    rw [hfind] at h
    have hmem : dev ∉ devicesOf recs := by
      intro hmem
      have hne := List.findIdx?_eq_none_iff.mp hfind dev hmem
      simp [found] at hne
    dsimp only at h
    split_ifs at h with hmany
    obtain ⟨rfl, rfl⟩ := Prod.mk.inj (Option.some.inj h)
    rw [if_neg hmem, List.map_append, List.map_singleton, hnew hmem, List.length_map]
    exact ⟨rfl, List.getElem?_concat_length⟩

theorem modify_found (h : io.hasTc blkTcNotify = false) {devs : List UInt32} (hnodup : devs.Nodup) {i : ℕ}
    (hi : devs[i]? = some io.device) :
    (devs.map (found recs)).modify i (·.widen io) = devs.map (found (recs ++ [io])) := by
  apply List.ext_getElem?
  intro j
  rw [List.getElem?_modify, List.getElem?_map, List.getElem?_map]
  cases hj : devs[j]? with
  | none => simp
  | some dev =>
    rw [Option.map_some, Option.map_some, found_concat h]
    by_cases hij : i = j
    · subst hij
      obtain rfl := Option.some.inj (hi.symm.trans hj)
      simp
    · have hdev : io.device ≠ dev := by
        rintro rfl
        obtain ⟨hlt, -⟩ := List.getElem?_eq_some_iff.mp hi
        exact hij ((List.getElem?_inj hlt hnodup).mp (hi.trans hj.symm))
      simp [hij, hdev]

/-- **The first loop** finds the devices in their order, each with its largest end. -/
theorem foldlM_mapDevice {devices : List DevInfo} (h : recs.foldlM mapDevice [] = some devices) :
    devices = (devicesOf recs).map (found recs) := by
  induction recs using List.reverseRecOn generalizing devices with
  | nil => exact (Option.some.inj h).symm
  | append_singleton recs io ih =>
    rw [List.foldlM_append] at h
    obtain ⟨before, hbefore, hstep⟩ := Option.bind_eq_some_iff.mp h
    obtain rfl := ih hbefore
    rw [List.foldlM_cons] at hstep
    obtain ⟨after, hafter, hsame⟩ := Option.bind_eq_some_iff.mp hstep
    obtain rfl := Option.some.inj hsame
    cases hnotify : io.hasTc blkTcNotify with
    | true =>
      rw [mapDevice, if_pos hnotify] at hafter
      obtain rfl := Option.some.inj hafter
      obtain ⟨hdevices, hof⟩ := concat_notify recs hnotify
      rw [hdevices]
      apply List.map_congr_left
      intro dev _
      rw [found, found, maxOn, maxOn, hof]
    | false =>
      rw [mapDevice, if_neg (by simp [hnotify])] at hafter
      obtain ⟨⟨devices, i⟩, hlookup, rfl⟩ := Option.map_eq_some_iff.mp hafter
      have hnew : io.device ∉ devicesOf recs → found recs io.device = { device := io.device } := by
        intro hmem
        rw [mem_devicesOf, not_not] at hmem
        rw [found, maxOn, hmem]
        rfl
      obtain ⟨devs, hdevs, rfl, hi⟩ := lookupDev_found hlookup hnew
      rw [← devicesOf_concat hnotify] at hdevs
      subst hdevs
      exact modify_found hnotify (devicesOf_nodup _) hi

/-! ## The extremes -/

theorem foldl_foundEnd (ios : List BlkIoTrace) (last : UInt64) :
    let max := ios.foldl (fun last io => if last < foundEnd io then foundEnd io else last) last
    last ≤ max ∧ (∀ io ∈ ios, foundEnd io ≤ max) ∧ (max = last ∨ ∃ io ∈ ios, foundEnd io = max) := by
  induction ios generalizing last with
  | nil => exact ⟨UInt64.le_refl _, nofun, .inl rfl⟩
  | cons io ios ih =>
    obtain ⟨hlast, hall, hmem⟩ := ih (if last < foundEnd io then foundEnd io else last)
    dsimp only at hlast hall hmem ⊢
    rw [List.foldl_cons, List.forall_mem_cons]
    by_cases hlt : last < foundEnd io
    · rw [if_pos hlt] at hlast hall hmem ⊢
      refine ⟨UInt64.le_trans (UInt64.le_of_lt hlt) hlast, ⟨hlast, hall⟩, .inr ?_⟩
      rcases hmem with hmax | ⟨io', hio', hmax⟩
      · exact ⟨io, List.mem_cons_self, hmax.symm⟩
      · exact ⟨io', List.mem_cons_of_mem io hio', hmax⟩
    · rw [if_neg hlt] at hlast hall hmem ⊢
      refine ⟨hlast, ⟨UInt64.le_trans (UInt64.not_lt.mp hlt) hlast, hall⟩, ?_⟩
      rcases hmem with hmax | ⟨io', hio', hmax⟩
      · exact .inl hmax
      · exact .inr ⟨io', List.mem_cons_of_mem io hio', hmax⟩

theorem startOf_toNat (h : startOf io < 2 ^ 64) : (io.sector <<< 9).toNat = startOf io := by
  rw [UInt64.toNat_shiftLeft]
  show io.sector.toNat <<< 9 % 2 ^ 64 = _
  rw [Nat.shiftLeft_eq]
  exact Nat.mod_eq_of_lt h

theorem foundEnd_toNat (h : endOf io < 2 ^ 64) : (foundEnd io).toNat = endOf io := by
  have hstart : startOf io < 2 ^ 64 := Nat.lt_of_le_of_lt (Nat.le_add_right _ _) h
  rw [foundEnd, UInt64.toNat_add, startOf_toNat hstart, UInt32.toNat_toUInt64]
  exact Nat.mod_eq_of_lt h

theorem isGreatest_sizeOn (h : ofDevice recs dev ≠ []) :
    IsGreatest (endOf '' {io | io ∈ ofDevice recs dev}) (sizeOn recs dev) := by
  rw [sizeOn]
  generalize ofDevice recs dev = ios at *
  induction ios with
  | nil => exact absurd rfl h
  | cons io ios ih =>
    rw [List.map_cons, List.foldr_cons]
    cases ios with
    | nil =>
      refine ⟨⟨io, List.mem_cons_self, by simp⟩, ?_⟩
      rintro _ ⟨io', hio', rfl⟩
      rw [List.mem_singleton.mp hio']
      exact le_max_left _ _
    | cons io' ios =>
      obtain ⟨⟨last, hlast, hend⟩, hall⟩ := ih (List.cons_ne_nil io' ios)
      constructor
      · rcases le_total (endOf io) (((io' :: ios).map endOf).foldr max 0) with hle | hle
        · exact ⟨last, List.mem_cons_of_mem io hlast, by rw [hend, max_eq_right hle]⟩
        · exact ⟨io, List.mem_cons_self, (max_eq_left hle).symm⟩
      · rintro _ ⟨io'', hio'', rfl⟩
        rcases List.mem_cons.mp hio'' with rfl | hio''
        · exact le_max_left _ _
        · exact (hall ⟨io'', hio'', rfl⟩).trans (le_max_right _ _)

/-- The loop has the largest end of a device, if all ends are below the bound. -/
theorem maxOn_toNat (h : ofDevice recs dev ≠ []) (hends : ∀ io ∈ ofDevice recs dev, endOf io < 2 ^ 64) :
    (maxOn recs dev).toNat = sizeOn recs dev := by
  refine IsGreatest.unique ?_ (isGreatest_sizeOn h)
  obtain ⟨-, hall, hmem⟩ := foldl_foundEnd (ofDevice recs dev) 0
  rw [← maxOn] at hall hmem
  constructor
  · obtain ⟨io, hio⟩ := List.exists_mem_of_ne_nil _ h
    rcases hmem with hzero | ⟨io', hio', hmax⟩
    · have hle := hall io hio
      rw [hzero] at hle ⊢
      have hend : foundEnd io = 0 := UInt64.le_antisymm hle UInt64.zero_le
      exact ⟨io, hio, by rw [← foundEnd_toNat (hends io hio), hend]⟩
    · exact ⟨io', hio', by rw [← hmax, foundEnd_toNat (hends io' hio')]⟩
  · rintro _ ⟨io, hio, rfl⟩
    rw [← foundEnd_toNat (hends io hio)]
    exact UInt64.le_iff_toNat_le.mp (hall io hio)

/-! ## The second loop -/

theorem layDevices_window (mapStart : UInt64) {devices : List DevInfo} (h : ∀ di ∈ devices, di.min = 0) :
    (layDevices mapStart devices).map DevInfo.window =
      Tiling.tiles (2 ^ 64) mapStart.toNat (devices.map fun di => di.max.toNat) := by
  induction devices generalizing mapStart with
  | nil => rfl
  | cons di devices ih =>
    obtain ⟨hzero, hrest⟩ := List.forall_mem_cons.mp h
    rw [layDevices, List.map_cons, List.map_cons, Tiling.tiles, ih _ hrest, DevInfo.window]
    dsimp only
    rw [hzero, UInt64.sub_zero, UInt64.toNat_add]
    rfl

/-- What was found of a device stays. -/
theorem getElem?_layDevices (mapStart : UInt64) (devices : List DevInfo) (i : ℕ) :
    ∃ map, (layDevices mapStart devices)[i]? = devices[i]?.map fun di => { di with map := map } := by
  induction devices generalizing mapStart i with
  | nil => exact ⟨0, rfl⟩
  | cons di devices ih =>
    cases i with
    | zero => exact ⟨mapStart, rfl⟩
    | succ i => exact ih _ i

variable {devices : List DevInfo}

theorem mapDevices_spec (h : mapDevices recs = some devices) :
    devices.map DevInfo.window =
        Tiling.tiles (2 ^ 64) 0 ((devicesOf recs).map fun dev => (maxOn recs dev).toNat) ∧
      ∀ i : ℕ, ∃ map : UInt64,
        devices[i]? = (devicesOf recs)[i]?.map fun dev => { found recs dev with map := map } := by
  obtain ⟨first, hfirst, rfl⟩ := Option.map_eq_some_iff.mp h
  obtain rfl := foldlM_mapDevice hfirst
  constructor
  · rw [layDevices_window 0 (List.forall_mem_map.mpr fun _ _ => rfl), List.map_map]
    rfl
  · intro i
    obtain ⟨map, hmap⟩ := getElem?_layDevices 0 ((devicesOf recs).map (found recs)) i
    refine ⟨map, ?_⟩
    rw [hmap, List.getElem?_map, Option.map_map]
    rfl

/-- The device of an IO, and where the IO goes. -/
theorem mapIo_spec (h : mapDevices recs = some devices) (hio : io ∈ iosOf recs) :
    ∃ di, (devicesOf recs)[(devicesOf recs).idxOf io.device]? = some io.device ∧
      devices[(devicesOf recs).idxOf io.device]? = some di ∧ di.device = io.device ∧ di.min = 0 ∧
      di.max = maxOn recs io.device ∧ mapIo devices io = some (di.map + io.sector <<< 9) := by
  obtain ⟨-, hget⟩ := mapDevices_spec h
  have hne : ofDevice recs io.device ≠ [] :=
    List.ne_nil_of_mem (mem_ofDevice.mpr ⟨hio, rfl⟩)
  obtain ⟨i, hi, hdev⟩ := List.getElem_of_mem (mem_devicesOf.mpr hne)
  have hidx : (devicesOf recs).idxOf io.device = i := by
    rw [← hdev, (devicesOf_nodup recs).idxOf_getElem i hi]
  obtain ⟨map, hmap⟩ := hget i
  rw [List.getElem?_eq_getElem hi, hdev, Option.map_some] at hmap
  rw [hidx, List.getElem?_eq_getElem hi, hdev]
  refine ⟨_, rfl, hmap, rfl, rfl, rfl, ?_⟩
  have hfind : devices.findIdx? (·.device = io.device) = some i := by
    obtain ⟨hlt, hat⟩ := List.getElem?_eq_some_iff.mp hmap
    refine List.findIdx?_eq_some_iff_getElem.mpr ⟨hlt, by rw [hat]; simp [found], fun j hj => ?_⟩
    obtain ⟨map', hmap'⟩ := hget j
    rw [List.getElem?_eq_getElem (hj.trans hlt), List.getElem?_eq_getElem (hj.trans hi)] at hmap'
    rw [Option.some.inj hmap']
    have hother : (devicesOf recs)[j] ≠ io.device := by
      intro hsame
      exact hj.ne ((devicesOf_nodup recs).getElem_inj_iff.mp (hsame.trans hdev.symm))
    exact fun hsame => hother (of_decide_eq_true hsame)
  rw [mapIo, lookupDev, hfind]
  dsimp only [Option.bind_some]
  rw [hmap, Option.map_some]
  simp [found]

/-! ## The axis -/

/-- Each device has the place that the sizes of those before it give. -/
theorem window_of_below (h : mapDevices recs = some devices)
    (hmax : ∀ dev ∈ devicesOf recs, (maxOn recs dev).toNat = sizeOn recs dev)
    (hbelow : Tiling.Below (2 ^ 64) 0 ((devicesOf recs).map (sizeOn recs))) {di : DevInfo}
    (hdev : (devicesOf recs)[(devicesOf recs).idxOf dev]? = some dev)
    (hdi : devices[(devicesOf recs).idxOf dev]? = some di) :
    di.window = (baseOf recs dev, sizeOn recs dev) := by
  obtain ⟨hwindows, -⟩ := mapDevices_spec h
  rw [List.map_congr_left hmax] at hwindows
  have hsize : ((devicesOf recs).map (sizeOn recs))[(devicesOf recs).idxOf dev]? = some (sizeOn recs dev) := by
    rw [List.getElem?_map, hdev, Option.map_some]
  have htile := Tiling.getElem?_tiles hbelow hsize
  rw [← hwindows, List.getElem?_map, hdi, Option.map_some, Nat.zero_add, ← List.map_take] at htile
  exact Option.some.inj htile

/-- The axis holds every place at which an IO can begin. -/
theorem below_of_placed (h : ∀ io ∈ iosOf recs, Placed recs io) :
    Tiling.Below (2 ^ 64) 0 ((devicesOf recs).map (sizeOn recs)) := by
  intro i hi
  rw [List.length_map] at hi
  have hmem := List.getElem_mem hi
  rw [mem_devicesOf] at hmem
  obtain ⟨io, hio⟩ := List.exists_mem_of_ne_nil _ hmem
  obtain ⟨hios, hdev⟩ := mem_ofDevice.mp hio
  have hfits := (h io hios).fits
  rw [baseOf, hdev, (devicesOf_nodup recs).idxOf_getElem i hi, List.map_take] at hfits
  rw [Nat.zero_add]
  exact Nat.lt_of_le_of_lt (Nat.le_add_right _ _) hfits

theorem maxOn_of_placed (hplaced : ∀ io ∈ iosOf recs, Placed recs io) {dev : UInt32}
    (hdev : dev ∈ devicesOf recs) : (maxOn recs dev).toNat = sizeOn recs dev := by
  apply maxOn_toNat (mem_devicesOf.mp hdev)
  intro io hio
  exact (hplaced io (mem_ofDevice.mp hio).1).ends

/-- A device as it is mapped. -/
theorem device_of_map (h : mapDevices recs = some devices) {di : DevInfo} (hdi : di ∈ devices) :
    di.device ∈ devicesOf recs ∧ di.min = 0 ∧ di.max = maxOn recs di.device := by
  obtain ⟨-, hget⟩ := mapDevices_spec h
  obtain ⟨i, hi⟩ := List.getElem?_of_mem hdi
  obtain ⟨map, hmap⟩ := hget i
  rw [hi] at hmap
  obtain ⟨dev, hdev, rfl⟩ := Option.map_eq_some_iff.mp hmap.symm
  exact ⟨List.mem_of_getElem? hdev, rfl, rfl⟩

/-- Where an IO goes, in numbers. -/
theorem mapIo_of_placed (h : mapDevices recs = some devices) (hplaced : ∀ io ∈ iosOf recs, Placed recs io)
    {io : BlkIoTrace} (hio : io ∈ iosOf recs) :
    ∃ di ∈ devices, di.device = io.device ∧ di.window = (baseOf recs io.device, sizeOn recs io.device) ∧
      ∃ off, mapIo devices io = some off ∧ off.toNat = baseOf recs io.device + startOf io := by
  obtain ⟨di, hidx, hdi, hdev, hmin, hdimax, hmap⟩ := mapIo_spec h hio
  have hwindow := window_of_below h (fun _ => maxOn_of_placed hplaced) (below_of_placed hplaced) hidx hdi
  refine ⟨di, List.mem_of_getElem? hdi, hdev, hwindow, _, hmap, ?_⟩
  have hp := hplaced io hio
  have hbase : di.map.toNat = baseOf recs io.device := congrArg Prod.fst hwindow
  rw [UInt64.toNat_add, hbase, startOf_toNat (Nat.lt_of_le_of_lt (Nat.le_add_right _ _) hp.ends)]
  exact Nat.mod_eq_of_lt hp.fits

theorem mapped_of_placed (h : mapDevices recs = some devices) (hplaced : ∀ io ∈ iosOf recs, Placed recs io) :
    Mapped recs devices := by
  obtain ⟨hwindows, -⟩ := mapDevices_spec h
  have hbelow := below_of_placed hplaced
  have hmax : ∀ dev ∈ devicesOf recs, (maxOn recs dev).toNat = sizeOn recs dev :=
    fun _ => maxOn_of_placed hplaced
  refine ⟨?_, ?_, ?_, ?_, ?_⟩
  · intro di hdi
    obtain ⟨hdev, hmin, -⟩ := device_of_map h hdi
    obtain ⟨io, hio⟩ := List.exists_mem_of_ne_nil _ (mem_devicesOf.mp hdev)
    obtain ⟨hios, hiodev⟩ := mem_ofDevice.mp hio
    obtain ⟨first, hfirst, hsector⟩ := (hplaced io hios).zero
    rw [hiodev] at hfirst
    refine ⟨⟨first, hfirst, by rw [startOf, hsector, hmin]; rfl⟩, ?_⟩
    rintro _ ⟨io', -, rfl⟩
    rw [hmin]
    exact Nat.zero_le _
  · intro di hdi
    obtain ⟨hdev, -, hdimax⟩ := device_of_map h hdi
    rw [hdimax, hmax _ hdev]
    exact isGreatest_sizeOn (mem_devicesOf.mp hdev)
  · rw [hwindows, List.map_congr_left hmax]
    exact (Tiling.apart_of_below hbelow).2
  · intro io hio
    obtain ⟨di, hdi, hdev, hwindow, off, hoff, hnat⟩ := mapIo_of_placed h hplaced hio
    refine ⟨di, hdi, hdev, off, hoff, ?_⟩
    rw [hwindow, hnat]
    exact ⟨Nat.le_add_right _ _, Nat.add_lt_add_left (hplaced io hio).inside _⟩
  · intro io hio io' hio' hdev hsame
    obtain ⟨di, -, -, -, off, hoff, hnat⟩ := mapIo_of_placed h hplaced hio
    obtain ⟨di', -, -, -, off', hoff', hnat'⟩ := mapIo_of_placed h hplaced hio'
    rw [hoff, hoff'] at hsame
    rw [Option.some.inj hsame, hnat', hdev, Nat.add_left_cancel_iff] at hnat
    rw [startOf, startOf, Nat.mul_left_inj (by decide)] at hnat
    exact (UInt64.toNat_inj.mp hnat).symm

/-- An IO of a device that is mapped, before the axis is known to hold it. -/
theorem inside_of_mapped (h : mapDevices recs = some devices) (hmapped : Mapped recs devices)
    (hio : io ∈ iosOf recs) :
    ∃ di, (devicesOf recs)[(devicesOf recs).idxOf io.device]? = some io.device ∧
      devices[(devicesOf recs).idxOf io.device]? = some di ∧ endOf io < 2 ^ 64 ∧
      (maxOn recs io.device).toNat = sizeOn recs io.device ∧ startOf io < sizeOn recs io.device ∧
      di.map.toNat + startOf io < 2 ^ 64 := by
  obtain ⟨di, hidx, hdi, hdev, hmin, hmax, hmap⟩ := mapIo_spec h hio
  have hmem : io ∈ ofDevice recs io.device := mem_ofDevice.mpr ⟨hio, rfl⟩
  have hgreatest := hmapped.greatest di (List.mem_of_getElem? hdi)
  rw [hdev, hmax] at hgreatest
  have hend : endOf io < 2 ^ 64 :=
    Nat.lt_of_le_of_lt (hgreatest.2 ⟨io, hmem, rfl⟩) (maxOn recs io.device).toNat_lt
  have hsize := hgreatest.unique (isGreatest_sizeOn (List.ne_nil_of_mem hmem))
  obtain ⟨di', hdi', hdev', off, hoff, hlo, hhi⟩ := hmapped.inside io hio
  -- there is one entry for each device
  have hsame : di' = di := by
    obtain ⟨i, hi⟩ := List.getElem?_of_mem hdi'
    obtain ⟨map, hget⟩ := (mapDevices_spec h).2 i
    rw [hi] at hget
    obtain ⟨dev, hat, rfl⟩ := Option.map_eq_some_iff.mp hget.symm
    obtain rfl : dev = io.device := hdev'
    obtain ⟨hlt, -⟩ := List.getElem?_eq_some_iff.mp hidx
    have hindex := (List.getElem?_inj hlt (devicesOf_nodup recs)).mp (hidx.trans hat.symm)
    rw [← hindex, hdi] at hi
    exact (Option.some.inj hi).symm
  subst hsame
  have hstart : startOf io < 2 ^ 64 := Nat.lt_of_le_of_lt (Nat.le_add_right _ _) hend
  have hplace : off.toNat = (di'.map.toNat + startOf io) % 2 ^ 64 := by
    rw [← Option.some.inj (hmap.symm.trans hoff), UInt64.toNat_add, startOf_toNat hstart]
  have hwindow : di'.window = (di'.map.toNat, sizeOn recs io.device) := by
    rw [DevInfo.window, hmin, hmax, hsize]
    rfl
  have hlt := di'.map.toNat_lt
  rw [hwindow, hplace] at hlo hhi
  dsimp only at hlo hhi
  refine ⟨di', hidx, hdi, hend, hsize, ?_, ?_⟩ <;> omega

theorem placed_of_mapped (h : mapDevices recs = some devices) (hmapped : Mapped recs devices) :
    ∀ io ∈ iosOf recs, Placed recs io := by
  have hdevice : ∀ dev ∈ devicesOf recs, ∃ io ∈ iosOf recs, io.device = dev := by
    intro dev hdev
    obtain ⟨io, hio⟩ := List.exists_mem_of_ne_nil _ (mem_devicesOf.mp hdev)
    exact ⟨io, mem_ofDevice.mp hio⟩
  have hmax : ∀ dev ∈ devicesOf recs, (maxOn recs dev).toNat = sizeOn recs dev := by
    intro dev hdev
    obtain ⟨io, hio, rfl⟩ := hdevice dev hdev
    obtain ⟨-, -, -, -, hsize, -⟩ := inside_of_mapped h hmapped hio
    exact hsize
  have hbelow : Tiling.Below (2 ^ 64) 0 ((devicesOf recs).map (sizeOn recs)) := by
    have hapart := hmapped.apart
    rw [(mapDevices_spec h).1, List.map_congr_left hmax] at hapart
    refine (Tiling.apart_iff ?_ (by decide)).mp hapart
    rw [List.forall_mem_map]
    intro dev hdev
    obtain ⟨io, hio, rfl⟩ := hdevice dev hdev
    obtain ⟨-, -, -, -, -, hlt, -⟩ := inside_of_mapped h hmapped hio
    exact Nat.zero_lt_of_lt hlt
  intro io hio
  obtain ⟨di, hidx, hdi, hend, -, hlt, hfits⟩ := inside_of_mapped h hmapped hio
  have hwindow := window_of_below h hmax hbelow hidx hdi
  have hbase : di.map.toNat = baseOf recs io.device := congrArg Prod.fst hwindow
  refine ⟨?_, hlt, hend, hbase ▸ hfits⟩
  obtain ⟨di', -, hdi', hdev, hmin, -⟩ := mapIo_spec h hio
  obtain ⟨⟨first, hfirst, hzero⟩, -⟩ := hmapped.least di' (List.mem_of_getElem? hdi')
  rw [hmin] at hzero
  rw [hdev] at hfirst
  refine ⟨first, hfirst, UInt64.toNat_inj.mp ?_⟩
  exact (Nat.mul_eq_zero.mp hzero).resolve_right (by decide)

/-- **The devices are mapped** just if all their IOs are placed. -/
theorem mapped_iff (h : mapDevices recs = some devices) :
    Mapped recs devices ↔ ∀ io ∈ iosOf recs, Placed recs io :=
  ⟨placed_of_mapped h, mapped_of_placed h⟩

theorem mapped_iff_oneIo : ∃ devices, mapDevices [ioRecord 0 0 []] = some devices ∧
    (Mapped [ioRecord 0 0 []] devices ↔ ∀ io ∈ iosOf [ioRecord 0 0 []], Placed [ioRecord 0 0 []] io) :=
  ⟨_, rfl, mapped_iff rfl⟩

/-- An IO that does not begin at the beginning of its device. -/
def fartherIo : BlkIoTrace := { ioRecord 0 0 [] with sector := 8 }

/-- The device is said to begin at 0. -/
theorem not_mapped : ∃ devices, mapDevices [fartherIo] = some devices ∧ ¬ Mapped [fartherIo] devices := by
  refine ⟨_, rfl, fun hmapped => ?_⟩
  have hplaced := placed_of_mapped rfl hmapped fartherIo (by decide)
  obtain ⟨io, hio, hzero⟩ := hplaced.zero
  have hone : ofDevice [fartherIo] fartherIo.device = [fartherIo] := by decide
  rw [hone, List.mem_singleton] at hio
  rw [hio] at hzero
  exact absurd hzero (by decide)

end Blktrace.Iowatcher
