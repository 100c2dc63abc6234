import Blktrace.Blkparse.SkipList
import Blktrace.Blkparse.PipeOrder

/-!
# The skip list at the end of a run

In a run of pipe mode the skip list of a CPU is what `skipRun` makes of the numbers shown for it, in
whichever passes (`doPipe_skips`), so it is right as long as `StepOk` holds of each. A number shown
late in the middle of a hole is the plainest that is not (`not_represents_middle`).
-/

namespace Blktrace.Blkparse

/-! ## One record shown -/

theorem skipTo_skips (pci : PerCpuInfo) (expected seq : UInt64) :
    (skipTo pci expected seq).skips = (checkCurrentSkips seq pci.skips).getD
      (if expected < seq then insertSkip expected (seq - 1) pci.skips else pci.skips) := by
  rw [skipTo]
  cases checkCurrentSkips seq pci.skips with
  | some skips => rfl
  | none => by_cases h : expected < seq <;> simp [h]

/-- `check_sequence` does to the list what `skipStep` says, in a forced pass or not. -/
theorem Passes.skips {find : Find} {pdi pdi' : PerDevInfo} {ts : List Trace} {bit : BlkIoTrace}
    {force : Bool} (hp : pdi.Plain) (h : Passes find pdi pdi' ts bit force) :
    (pdi'.cpus bit.cpu).skips =
        (if bit.isMessage then (pdi.cpus bit.cpu).skips
        else skipStep (pdi.cpus bit.cpu).lastSequence (pdi.cpus bit.cpu).skips
          bit.sequence.toUInt64) ∧
      (bit.isMessage = true → pdi' = pdi) ∧
      ∀ cpu, cpu ≠ bit.cpu → pdi'.cpus cpu = pdi.cpus cpu := by
  rcases h with ⟨hm, rfl⟩ | ⟨hm, h⟩
  · rw [if_pos hm]
    exact ⟨rfl, fun _ => rfl, fun _ _ => rfl⟩
  · rw [hm, if_neg Bool.false_ne_true, skipStep]
    rw [checkSequence_plain hp] at h
    refine ⟨?_, fun h => absurd h Bool.false_ne_true, ?_⟩
    · split at h
      case isTrue hseq =>
        cases h
        rw [if_pos hseq]
      case isFalse hseq =>
        split at h
        · cases h
          rw [if_neg hseq, ← skipTo_skips]
          simp [PerDevInfo.setCpu]
        · cases h
    · intro cpu hcpu
      split at h
      · cases h
        rfl
      · split at h
        · cases h
          simp [PerDevInfo.setCpu, Function.update_of_ne hcpu]
        · cases h

/-- What the skips of a CPU depend on. -/
def PerCpuInfo.skipState (pci : PerCpuInfo) : UInt64 × List SkipInfo := (pci.lastSequence, pci.skips)

theorem toUInt64_eq_ofNat (x : UInt32) : x.toUInt64 = UInt64.ofNat x.toNat := by
  apply UInt64.toNat_inj.mp
  rw [Word.toNat_ofNat x.toNat_lt.le]
  exact UInt32.toNat_toUInt64 x

/-! ## The skip list of a slot -/

/-- The numbers shown for a CPU of a device, and the state of its slot. A slot still unused is
fresh, as long as there is no device 0. -/
structure SkipInv (dev cpu : UInt32) (devices : List PerDevInfo) (seqs : List ℕ) : Prop where
  fresh : slotOf devices dev = none → seqs = []
  unused : dev ≠ 0 → ∀ pdi ∈ devices, pdi.dev = 0 → (pdi.cpus cpu).skipState = skipRun []
  kept : ∀ i, slotOf devices dev = some i →
    ((devAt devices i).cpus cpu).skipState = skipRun seqs

theorem SkipInv.init (dev cpu : UInt32) (names : Nat) :
    SkipInv dev cpu (List.replicate names {}) [] := by
  refine ⟨fun _ => rfl, fun _ pdi hmem _ => ?_, fun i hi => ?_⟩
  · rw [List.eq_of_mem_replicate hmem]
    rfl
  · rw [List.eq_of_mem_replicate (devAt_mem (slotOf_spec hi).1)]
    rfl

theorem SkipInv.look {dev cpu : UInt32} {devices : List PerDevInfo} {seqs : List ℕ}
    (h : SkipInv dev cpu devices seqs) (hd : DevsOk devices) {cache : Option Nat}
    (hc : CacheOk devices cache) {e : UInt32} (hzero : e = 0 ↔ dev = 0) :
    SkipInv dev cpu (lookDev devices cache e).1 seqs := by
  have hl := lookDev_looked hd.slotsOk hc e
  by_cases hslot : slotOf devices e = none
  · rw [lookDev_eq hc hslot] at hl ⊢
    have hmem := @getDevInfo_mem devices e
    generalize (getDevInfo devices e).1 = devices' at *
    -- the new slot of `e` is fresh
    have hnew : e = dev → ∀ pdi ∈ devices', pdi.dev = dev →
        (pdi.cpus cpu).skipState = skipRun [] := by
      rintro rfl pdi hpdi hdev
      rcases hmem hpdi with hold | ⟨pdi', rfl | ⟨hold, h0⟩, rfl⟩
      · exact absurd hdev (slotOf_eq_none hslot pdi hold)
      · rfl
      · by_cases he : e = 0
        · exact absurd (h0.trans he.symm) (slotOf_eq_none hslot pdi' hold)
        · exact h.unused he pdi' hold h0
    refine ⟨fun hnone => ?_, fun hdev pdi hpdi h0 => ?_, fun i hi => ?_⟩
    · by_cases he : e = dev
      · exact h.fresh (he ▸ hslot)
      · have hdev : dev ≠ 0 := fun h0 => he ((hzero.mpr h0).trans h0.symm)
        exact h.fresh (((hl.other dev (Ne.symm he) hdev).1).symm.trans hnone)
    · rcases hmem hpdi with hold | ⟨pdi', -, rfl⟩
      · exact h.unused hdev pdi hold h0
      · exact absurd (hzero.mp h0) hdev
    · by_cases he : e = dev
      · rw [h.fresh (he ▸ hslot)]
        obtain ⟨hlt, hdev⟩ := slotOf_spec hi
        exact hnew he _ (devAt_mem hlt) hdev
      · have hdev : dev ≠ 0 := fun h0 => he ((hzero.mpr h0).trans h0.symm)
        obtain ⟨hs, hat⟩ := hl.other dev (Ne.symm he) hdev
        rw [hs] at hi
        rw [hat i hi]
        exact h.kept i hi
  · rwa [hl.same hslot]

theorem SkipInv.show {dev cpu : UInt32} {devices : List PerDevInfo} {bits : List BlkIoTrace}
    (h : SkipInv dev cpu devices (seqsOf dev cpu bits)) (hd : DevsOk devices) {o : Opts}
    {find : Find} {force : Bool} {i : Nat} {pdi' : PerDevInfo} {t : Trace} {rest : List Trace}
    (hzero : t.bit.device = 0 ↔ dev = 0) (hslot : slotOf devices t.bit.device = some i)
    (hpass : Passes find (devAt devices i) pdi' (t :: rest) t.bit force) :
    SkipInv dev cpu (devices.set i (pdi'.show o t.bit)) (seqsOf dev cpu (bits ++ [t.bit])) := by
  obtain ⟨hdev', -⟩ := hpass.dev (devAt_plain hd.plain i)
  obtain ⟨hskips, -, hothers⟩ := hpass.skips (devAt_plain hd.plain i)
  have hmessage := (hpass.skips (devAt_plain hd.plain i)).2.1
  obtain ⟨hlt, hsdev⟩ := slotOf_spec hslot
  obtain ⟨hdev, -, hcpus, hlast, hsame⟩ := show_spec o pdi' t.bit
  have hs := slotOf_congr (set_dev (hdev.trans hdev')) dev
  refine ⟨fun hnone => ?_, fun hne pdi hmem h0 => ?_, fun j hj => ?_⟩
  · rw [hs] at hnone
    have hother : t.bit.device ≠ dev := by
      intro heq
      rw [heq, hnone] at hslot
      cases hslot
    rw [seqsOf_concat, h.fresh hnone]
    simp [hother]
  · rcases List.mem_or_eq_of_mem_set hmem with hold | rfl
    · exact h.unused hne pdi hold h0
    · rw [hdev, hdev', hsdev] at h0
      exact absurd (hzero.mp h0) hne
  · rw [hs] at hj
    by_cases hji : j = i
    · -- the slot of the record, so the device is the one we look at
      subst hji
      have hdd : t.bit.device = dev := hsdev.symm.trans (slotOf_spec hj).2
      have hkept := h.kept j hj
      rw [devAt_set_self hlt, seqsOf_concat]
      by_cases hcpu : cpu = t.bit.cpu
      · subst hcpu
        cases hm : t.bit.isMessage with
        | true =>
          rw [hm, if_pos rfl] at hlast
          simp only [hdd, beq_self_eq_true, Bool.not_true, Bool.and_false, Bool.false_eq_true,
            if_false, List.append_nil]
          rw [← hkept, PerCpuInfo.skipState, hlast, hsame, hmessage hm]
          rfl
        | false =>
          rw [hm, if_neg Bool.false_ne_true] at hlast hskips
          simp only [hdd, beq_self_eq_true, Bool.not_false, Bool.and_self, if_true]
          rw [skipRun_concat, ← hkept, ← toUInt64_eq_ofNat, PerCpuInfo.skipState, hlast, hsame,
            hskips]
          rfl
      · have hnot : ¬ (t.bit.device == dev && t.bit.cpu == cpu && !t.bit.isMessage) = true := by
          simp [Ne.symm hcpu]
        rw [if_neg hnot, List.append_nil, hcpus cpu hcpu, hothers cpu hcpu]
        exact hkept
    · have hnot : ¬ (t.bit.device == dev && t.bit.cpu == cpu && !t.bit.isMessage) = true := by
        intro hcounts
        simp only [Bool.and_eq_true, beq_iff_eq] at hcounts
        rw [hcounts.1.1, hj] at hslot
        exact hji (Option.some.inj hslot)
      rw [devAt_set_of_ne hji, seqsOf_concat, if_neg hnot, List.append_nil]
      exact h.kept j hj

/-! ## The numbers shown are among those read -/

section Numbers

variable (dev cpu : UInt32)

theorem seqsOf_append (bits bits' : List BlkIoTrace) :
    seqsOf dev cpu (bits ++ bits') = seqsOf dev cpu bits ++ seqsOf dev cpu bits' := by
  rw [seqsOf, List.filter_append, List.map_append]
  rfl

theorem seqsOf_perm {bits bits' : List BlkIoTrace} (h : bits.Perm bits') :
    (seqsOf dev cpu bits).Perm (seqsOf dev cpu bits') := (h.filter _).map _

theorem seqsOf_sublist {bits bits' : List BlkIoTrace} (h : bits.Sublist bits') :
    (seqsOf dev cpu bits).Sublist (seqsOf dev cpu bits') := (h.filter _).map _

theorem seqsOf_relative (genesis : UInt64) (bits : List BlkIoTrace) :
    seqsOf dev cpu (bits.map (relative genesis)) = seqsOf dev cpu bits := by
  rw [seqsOf, List.filter_map, List.map_map]
  rfl

theorem seqsOf_inWindow (o : Opts) (genesis : UInt64) (bits : List BlkIoTrace) :
    (seqsOf dev cpu (inWindow o genesis bits)).Sublist (seqsOf dev cpu bits) := by
  rw [inWindow, ← seqsOf_relative dev cpu genesis bits]
  exact seqsOf_sublist dev cpu List.filter_sublist

theorem seqsOf_lt {bits : List BlkIoTrace} : ∀ n ∈ seqsOf dev cpu bits, n < 2 ^ 32 := by
  intro n hn
  obtain ⟨bit, -, rfl⟩ := List.mem_map.mp hn
  exact bit.sequence.toNat_lt

/-- Distinct numbers in the pipe are distinct when shown. -/
theorem doPipe_nodup {o : Opts} {find : Find} {names : Nat} {native : Bool}
    {input : List (Option BlkIoTrace)} (hv : ValidPipe native input)
    (h : (seqsOf dev cpu (pipeRecords native input)).Nodup) :
    (seqsOf dev cpu (shownAll (doPipe o find names input).passes)).Nodup := by
  obtain ⟨rest, hread, -⟩ := @pipeLoop_read o find native names input hv
  have hshows := (doPipe_tree o find names input).1
  rw [(seqsOf_perm dev cpu hshows.once).nodup_iff, hshows.stored]
  rw [hread.records, ← doPipe_batches, seqsOf_append] at h
  have hraw := (List.nodup_append.mp h).1
  have hrev : ((doPipe o find names input).batches.flatMap fun b => b.raw.reverse).Perm
      ((doPipe o find names input).batches.flatMap Batch.raw) :=
    List.Perm.flatMap_left _ fun b _ => b.raw.reverse_perm
  rw [(seqsOf_perm dev cpu hrev).nodup_iff] at hraw
  refine hraw.sublist ?_
  generalize (doPipe o find names input).batches = batches
  induction batches with
  | nil => exact List.Sublist.refl _
  | cons b batches ih =>
    rw [List.flatMap_cons, List.flatMap_cons, seqsOf_append, seqsOf_append]
    exact (seqsOf_inWindow dev cpu o b.genesis b.raw).append ih

end Numbers

/-! ## The run -/

/-- **The skip list of a CPU** is `skipRun` of the numbers shown for it. With distinct numbers it
is right about them all along exactly when each step is `StepOk`, and then the list that is left
at the end stands for the missing numbers, and `seq_skips` counts them. -/
theorem doPipe_skips (o : Opts) (find : Find) (names : Nat) {native : Bool}
    {input : List (Option BlkIoTrace)} (hv : ValidPipe native input) (dev cpu : UInt32)
    (hdev : ∀ raw, some raw ∈ input → (raw.device = 0 ↔ dev = 0))
    (hdistinct : (seqsOf dev cpu (pipeRecords native input)).Nodup) :
    let s := doPipe o find names input
    let shown := seqsOf dev cpu (shownAll s.passes)
    (∀ i, slotOf s.devices dev = some i →
        ((devAt s.devices i).cpus cpu).skips = (skipRun shown).2) ∧
      ((∀ ys, ys <+: shown → Represents ys) ↔ StepsOk shown) ∧
      (StepsOk shown → ∀ i, slotOf s.devices dev = some i →
        skipped ((devAt s.devices i).cpus cpu).skips = missing shown ∧
          (seqSkips ((devAt s.devices i).cpus cpu).skips).toNat = (missing shown).card) := by
  intro s shown
  have hinv : SkipInv dev cpu s.devices shown :=
    @doPipe_devices (fun e => e = 0 ↔ dev = 0)
      (fun devices past => SkipInv dev cpu devices (seqsOf dev cpu past)) o find names input
      (fun devices cache past e hzero hd hc h => h.look hd hc hzero)
      (fun force devices i pdi' past t rest hzero hd hslot hpass h => h.show hd hzero hslot hpass)
      (fun b raw hmem _ _ => (traceToCpu_device_eq_zero b raw).trans (hdev raw hmem))
      (SkipInv.init dev cpu names)
  have hlist : ∀ i, slotOf s.devices dev = some i →
      ((devAt s.devices i).cpus cpu).skips = (skipRun shown).2 :=
    fun i hi => congrArg Prod.snd (hinv.kept i hi)
  have hnd : shown.Nodup := doPipe_nodup dev cpu hv hdistinct
  have hlt : ∀ y ∈ shown, y < 2 ^ 32 := seqsOf_lt dev cpu
  refine ⟨hlist, represents_iff hlt hnd, fun hsteps i hi => ?_⟩
  obtain ⟨hok, hrep⟩ := hsteps.represents hlt hnd
  rw [hlist i hi]
  exact ⟨hrep, hok.toNat_seqSkips.trans (congrArg Finset.card hrep)⟩

/-- Number 2, shown after 4, fills the lower end of the hole from 2 to 3. -/
theorem doPipe_skips_late :
    slotOf (doPipe {} (fun _ _ _ => none) 0 [some (queueRecord 5 0 1 10),
      some (queueRecord 5 0 4 20), some (queueRecord 5 0 2 30)]).devices 5 = some 0 ∧
    skipped ((devAt (doPipe {} (fun _ _ _ => none) 0 [some (queueRecord 5 0 1 10),
      some (queueRecord 5 0 4 20), some (queueRecord 5 0 2 30)]).devices 0).cpus 0).skips
      = missing [1, 4, 2] := by
  have hslot : slotOf (doPipe {} (fun _ _ _ => none) 0 [some (queueRecord 5 0 1 10),
      some (queueRecord 5 0 4 20), some (queueRecord 5 0 2 30)]).devices 5 = some 0 := by
    decide
  have hshown : seqsOf 5 0 (shownAll (doPipe {} (fun _ _ _ => none) 0 [some (queueRecord 5 0 1 10),
      some (queueRecord 5 0 4 20), some (queueRecord 5 0 2 30)]).passes) = [1, 4, 2] := by
    decide
  have hmem : ∀ raw, some raw ∈ [some (queueRecord 5 0 1 10), some (queueRecord 5 0 4 20),
      some (queueRecord 5 0 2 30)] → raw = queueRecord 5 0 1 10 ∨ raw = queueRecord 5 0 4 20 ∨
        raw = queueRecord 5 0 2 30 := by
    simp
  obtain ⟨-, -, h⟩ := @doPipe_skips {} (fun _ _ _ => none) 0 true [some (queueRecord 5 0 1 10),
    some (queueRecord 5 0 4 20), some (queueRecord 5 0 2 30)]
    (fun raw hraw => by rcases hmem raw hraw with rfl | rfl | rfl <;> decide) 5 0
    (fun raw hraw => by rcases hmem raw hraw with rfl | rfl | rfl <;> decide)
    (by decide)
  rw [hshown] at h
  have hsteps : StepsOk ((([] ++ [1]) ++ [4]) ++ [2]) :=
    stepsOk_concat.mpr ⟨stepsOk_concat.mpr ⟨stepsOk_concat.mpr ⟨stepsOk_nil, by decide⟩,
      by decide⟩, by decide⟩
  exact ⟨hslot, (h hsteps 0 hslot).1⟩

/-- Numbers 1, 5 and then 3: the entry from 2 to 4 should split, and 4 is lost, and the entry put in
its place runs from 4 down to 2 and counts as -1. -/
theorem not_represents_middle :
    seqsOf 5 0 (shownAll (doPipe {} (fun _ _ _ => none) 0 [some (queueRecord 5 0 1 10),
        some (queueRecord 5 0 5 20), some (queueRecord 5 0 3 30)]).passes) = [1, 5, 3] ∧
      ((devAt (doPipe {} (fun _ _ _ => none) 0 [some (queueRecord 5 0 1 10),
        some (queueRecord 5 0 5 20), some (queueRecord 5 0 3 30)]).devices 0).cpus 0).skips
        = [⟨4, 2⟩, ⟨2, 2⟩] ∧
      skipped [⟨4, 2⟩, ⟨2, 2⟩] ≠ missing [1, 5, 3] ∧ seqSkips [⟨4, 2⟩, ⟨2, 2⟩] = 0 := by
  refine ⟨by decide, by decide, by decide, by decide⟩

end Blktrace.Blkparse
