import Blktrace.Blkparse.PipeRun

/-!
# What a pipe-mode run shows

Every record put into the tree comes out once, each pass of `show_entries_rb` takes records out in
the order of the tree, and before the forced pass the sequence numbers shown for a CPU of a device
run on without a gap (`doPipe_shows`). The last is not true of device 0: its slot goes to the next
device, and what comes of device 0 afterwards starts over in another (`not_runsOn_device_zero`).
-/

namespace Blktrace.Blkparse

/-! ## The numbers shown for a CPU -/

/-- The sequence numbers among `bits` of a CPU of a device; messages have none. -/
def seqsOf (dev cpu : UInt32) (bits : List BlkIoTrace) : List Nat :=
  (bits.filter fun bit => bit.device == dev && bit.cpu == cpu && !bit.isMessage).map
    fun bit => bit.sequence.toNat

/-- `s, s + 1, s + 2, ...` without gap or repetition. -/
def RunsOn (seqs : List Nat) : Prop := ∃ first, seqs = List.range' first seqs.length

/-- The numbers shown so far run on, and `last_sequence` of the CPU is the last of them. -/
structure SeqInv (dev cpu : UInt32) (devices : List PerDevInfo) (seqs : List Nat) : Prop where
  fresh : slotOf devices dev = none → seqs = []
  next : ∀ i, slotOf devices dev = some i → seqs = [] ∨
    ∃ first, seqs = List.range' first seqs.length ∧ first + seqs.length ≤ 2 ^ 32 ∧
      ((devAt devices i).cpus cpu).lastSequence.toNat + 1 = first + seqs.length

theorem SeqInv.runsOn {dev cpu : UInt32} {devices : List PerDevInfo} {seqs : List Nat}
    (h : SeqInv dev cpu devices seqs) : RunsOn seqs := by
  have hnil : seqs = [] → RunsOn seqs := fun h => ⟨0, by simp [h]⟩
  cases hslot : slotOf devices dev with
  | none => exact hnil (h.fresh hslot)
  | some i =>
    rcases h.next i hslot with hq | ⟨first, hq, -⟩
    · exact hnil hq
    · exact ⟨first, hq⟩

/-- Looking up a device does not touch the slot of another, unless that is device 0. -/
theorem SeqInv.look {dev cpu : UInt32} {devices : List PerDevInfo} {seqs : List Nat}
    (h : SeqInv dev cpu devices seqs) (hd : DevsOk devices) {cache : Option Nat}
    (hc : CacheOk devices cache) {e : UInt32} (hfit : dev ≠ 0 ∨ e = dev) :
    SeqInv dev cpu (lookDev devices cache e).1 seqs := by
  have hl := lookDev_looked hd.slotsOk hc e
  generalize lookDev devices cache e = look at *
  obtain ⟨devices', j⟩ := look
  dsimp only at *
  by_cases hslot : slotOf devices dev = none
  · have hnil := h.fresh hslot
    exact ⟨fun _ => hnil, fun _ _ => Or.inl hnil⟩
  · by_cases he : e = dev
    · subst he
      rwa [hl.same hslot]
    · obtain ⟨hs, hat⟩ := hl.other dev (Ne.symm he) (hfit.resolve_right he)
      refine ⟨fun hn => h.fresh (hs ▸ hn), fun i hi => ?_⟩
      rw [hs] at hi
      rw [hat i hi]
      exact h.next i hi

/-- A slot may change as long as the last number of the CPU does not. -/
theorem SeqInv.set {dev cpu : UInt32} {devices : List PerDevInfo} {seqs : List Nat}
    (h : SeqInv dev cpu devices seqs) {i : Nat} {pdi : PerDevInfo}
    (hdev : pdi.dev = (devAt devices i).dev)
    (hlast : slotOf devices dev = some i →
      (pdi.cpus cpu).lastSequence = ((devAt devices i).cpus cpu).lastSequence) :
    SeqInv dev cpu (devices.set i pdi) seqs := by
  have hs := slotOf_congr (set_dev hdev) dev
  refine ⟨fun hn => h.fresh (hs ▸ hn), fun j hj => ?_⟩
  rw [hs] at hj
  by_cases hji : j = i
  · subst hji
    rw [devAt_set_self (slotOf_spec hj).1, hlast hj]
    exact h.next j hj
  · rw [devAt_set_of_ne hji]
    exact h.next j hj

/-- In an unforced pass `check_sequence` lets out the next number only, or the first of all. -/
theorem Passes.unforced {find : Find} {pdi pdi' : PerDevInfo} {ts : List Trace} {bit : BlkIoTrace}
    (hp : pdi.Plain) (h : Passes find pdi pdi' ts bit false) :
    pdi' = pdi ∧ (bit.isMessage = true ∨ (pdi.cpus bit.cpu).lastSequence + 1 = 0 ∨
      bit.sequence.toUInt64 = (pdi.cpus bit.cpu).lastSequence + 1) := by
  rcases h with ⟨hm, rfl⟩ | ⟨-, h⟩
  · exact ⟨rfl, Or.inl hm⟩
  · rw [checkSequence_plain hp] at h
    split at h
    case isTrue hseq =>
      cases h
      exact ⟨rfl, Or.inr hseq⟩
    case isFalse => simp at h

theorem seqsOf_concat (dev cpu : UInt32) (bits : List BlkIoTrace) (bit : BlkIoTrace) :
    seqsOf dev cpu (bits ++ [bit]) = seqsOf dev cpu bits ++
      if bit.device == dev && bit.cpu == cpu && !bit.isMessage then [bit.sequence.toNat] else [] := by
  rw [seqsOf, seqsOf, List.filter_append, List.map_append]
  cases h : bit.device == dev && bit.cpu == cpu && !bit.isMessage <;> simp [h]

theorem SeqInv.show {dev cpu : UInt32} {devices : List PerDevInfo} {bits : List BlkIoTrace}
    (h : SeqInv dev cpu devices (seqsOf dev cpu bits)) (hd : DevsOk devices) {o : Opts}
    {find : Find} {i : Nat} {pdi' : PerDevInfo} {t : Trace} {rest : List Trace}
    (hslot : slotOf devices t.bit.device = some i)
    (hpass : Passes find (devAt devices i) pdi' (t :: rest) t.bit false) :
    SeqInv dev cpu (devices.set i (pdi'.show o t.bit)) (seqsOf dev cpu (bits ++ [t.bit])) := by
  obtain ⟨rfl, hwait⟩ := hpass.unforced (devAt_plain hd.plain i)
  obtain ⟨hlt, hsdev⟩ := slotOf_spec hslot
  obtain ⟨hdev, -, hcpus, hlast, -⟩ := show_spec o (devAt devices i) t.bit
  rw [seqsOf_concat]
  split
  case isFalse hother =>
    rw [List.append_nil]
    refine h.set hdev fun hi => ?_
    by_cases hcpu : cpu = t.bit.cpu
    · -- the slot is that of `dev`, so a record of this CPU that does not count is a message
      have hdd : t.bit.device = dev := hsdev.symm.trans (slotOf_spec hi).2
      have hm : t.bit.isMessage = true := by simpa [hdd, hcpu] using hother
      rw [hcpu, hlast, if_pos hm]
    · rw [hcpus cpu hcpu]
  case isTrue hcounts =>
    simp only [Bool.and_eq_true, beq_iff_eq, Bool.not_eq_eq_eq_not, Bool.not_true] at hcounts
    obtain ⟨⟨hdd, rfl⟩, hm⟩ := hcounts
    rw [hdd] at hslot
    rw [hm, if_neg Bool.false_ne_true] at hlast
    have hs := slotOf_congr (set_dev hdev) dev
    refine ⟨fun hn => ?_, fun j hj => Or.inr ?_⟩
    · rw [hs, hslot] at hn
      cases hn
    · rw [hs, hslot] at hj
      cases hj
      rw [devAt_set_self hlt, hlast]
      have hseq := t.bit.sequence.toNat_lt
      have hto : t.bit.sequence.toUInt64.toNat = t.bit.sequence.toNat := UInt32.toNat_toUInt64 _
      rcases h.next i hslot with hnil | ⟨first, hrun, hle, hnext⟩
      · refine ⟨t.bit.sequence.toNat, ?_, ?_, ?_⟩
        · rw [hnil]
          rfl
        · rw [hnil]
          simpa using hseq
        · rw [hnil, hto]
          rfl
      · -- the last number is below 2 ^ 32, so it is not the start value, and this one is the next
        have hnum : t.bit.sequence.toNat = first + (seqsOf dev t.bit.cpu bits).length := by
          rcases hwait with hm' | h0 | hnx
          · rw [hm] at hm'
            cases hm'
          · have h0' := congrArg UInt64.toNat h0
            rw [UInt64.toNat_add] at h0'
            simp only [UInt64.toNat_one, UInt64.toNat_zero] at h0'
            omega
          · rw [← hto, hnx, UInt64.toNat_add]
            simp only [UInt64.toNat_one]
            omega
        refine ⟨first, ?_, ?_, ?_⟩
        · rw [List.length_append, List.length_singleton, List.range'_concat, ← hrun, hnum]
          simp
        · rw [List.length_append, List.length_singleton]
          omega
        · rw [List.length_append, List.length_singleton, hto]
          omega

/-! ## The tree over a run -/

/-- What of a batch the stopwatch lets into the tree. -/
def inWindow (o : Opts) (genesis : UInt64) (bits : List BlkIoTrace) : List BlkIoTrace :=
  (bits.map (relative genesis)).filter fun bit => !checkStopwatch o bit

theorem sortLoop_tree (o : Opts) (ts : List Trace) (pdi : Option Nat) (youngest : UInt64)
    (s : PipeState) :
    (sortLoop o ts pdi youngest s).1.stored
        = s.stored ++ inWindow o s.genesisTime (ts.map Trace.bit) ∧
      ((sortLoop o ts pdi youngest s).1.rbSort.map Trace.bit).Perm
        (s.rbSort.map Trace.bit ++ inWindow o s.genesisTime (ts.map Trace.bit)) ∧
      (TreeSorted s.rbSort → TreeSorted (sortLoop o ts pdi youngest s).1.rbSort) := by
  induction ts generalizing pdi youngest s with
  | nil =>
    rw [sortLoop]
    refine ⟨(List.append_nil _).symm, ?_, id⟩
    simp [inWindow]
  | cons t rest ih =>
    rw [sortLoop_cons]
    obtain ⟨h1, h2, h3⟩ := ih (some (lookDev s.devices pdi t.bit.device).2)
      (younger youngest (relative s.genesisTime t.bit).time)
      (s.sorted o (lookDev s.devices pdi t.bit.device).1
        (lookDev s.devices pdi t.bit.device).2 t)
    rw [h1]
    generalize lookDev s.devices pdi t.bit.device = look at *
    generalize sortLoop o rest (some look.2) _ (s.sorted o look.1 look.2 t) = r at *
    rw [PipeState.sorted] at h2 h3 ⊢
    cases hw : checkStopwatch o (relative s.genesisTime t.bit) with
    | true =>
      simp only [hw, if_true] at h2 h3 ⊢
      have hskip : inWindow o s.genesisTime (t.bit :: rest.map Trace.bit)
          = inWindow o s.genesisTime (rest.map Trace.bit) := by
        simp [inWindow, hw]
      rw [List.map_cons, hskip]
      exact ⟨rfl, h2, h3⟩
    | false =>
      simp only [hw, Bool.false_eq_true, if_false] at h2 h3 ⊢
      have hkeep : inWindow o s.genesisTime (t.bit :: rest.map Trace.bit)
          = relative s.genesisTime t.bit :: inWindow o s.genesisTime (rest.map Trace.bit) := by
        simp [inWindow, hw]
      rw [List.map_cons, hkeep]
      refine ⟨List.append_assoc _ _ _, h2.trans ?_, fun h => h3 (traceRbInsert_sorted h)⟩
      have hins := (traceRbInsert_perm ⟨relative s.genesisTime t.bit, t.readSequence⟩
        s.rbSort).map Trace.bit
      exact (hins.append_right _).trans List.perm_middle.symm

/-- The invariant of the loop of `do_pipe`. -/
structure PipeInv (o : Opts) (s : PipeState) : Prop where
  read : s.traceList = []
  tree : TreeSorted s.rbSort
  once : (shownAll s.passes ++ s.rbSort.map Trace.bit).Perm s.stored
  stored : s.stored = s.batches.flatMap fun b => inWindow o b.genesis b.raw
  dumped : dumps s.events = (shownAll s.passes).filter o.masks
  unforced : ∀ p ∈ s.passes, p.1 = false
  order : ∀ p ∈ s.passes, p.2.Pairwise fun a b => orderKey a ≤ orderKey b

theorem PipeInv.init (o : Opts) (names : Nat) : PipeInv o (.init names) where
  read := rfl
  tree := List.Pairwise.nil
  once := List.Perm.refl _
  stored := rfl
  dumped := rfl
  unforced := by simp [PipeState.init]
  order := by simp [PipeState.init]

section Run

variable {o : Opts} {find : Find}

/-- A batch is read into `trace_list` and leaves the rest as it was. -/
theorem PipeInv.readEvents {s : PipeState} (h : PipeInv o s) (input : List (Option BlkIoTrace)) :
    PipeInv o { (Blkparse.readEvents o input 0 none s).1 with traceList := [] } := by
  obtain ⟨hframe, hdumps⟩ := readEvents_frame o input 0 none s
  rw [hframe]
  exact ⟨rfl, h.tree, h.once, h.stored, hdumps.trans h.dumped, h.unforced, h.order⟩

/-- What `sort_entries` puts into the tree. -/
theorem sortEntries_tree (o : Opts) (s : PipeState) :
    (Blkparse.sortEntries o s).1.stored = s.stored ++
        inWindow o (originOf s.genesisTime s.traceList) (s.traceList.map Trace.bit) ∧
      ((Blkparse.sortEntries o s).1.rbSort.map Trace.bit).Perm (s.rbSort.map Trace.bit ++
        inWindow o (originOf s.genesisTime s.traceList) (s.traceList.map Trace.bit)) ∧
      (TreeSorted s.rbSort → TreeSorted (Blkparse.sortEntries o s).1.rbSort) := by
  rw [Blkparse.sortEntries, originOf]
  split
  · exact sortLoop_tree o (findGenesis s).traceList none 0 _
  · exact sortLoop_tree o s.traceList none 0 _

/-- A batch is sorted into the tree. -/
theorem PipeInv.sortEntries {s : PipeState} (h : PipeInv o { s with traceList := [] }) :
    PipeInv o (Blkparse.sortEntries o s).1 := by
  obtain ⟨hframe, -⟩ := sortEntries_frame o s
  obtain ⟨hstored, hperm, htree⟩ := sortEntries_tree o s
  rw [hframe]
  refine ⟨rfl, htree h.tree, ?_, ?_, h.dumped, h.unforced, h.order⟩
  · dsimp only
    rw [hstored]
    refine (hperm.append_left _).trans ?_
    rw [← List.append_assoc]
    exact h.once.append_right _
  · have hs := h.stored
    dsimp only at hs ⊢
    rw [hstored, List.flatMap_append, List.flatMap_singleton, hs]

/-- A pass moves records from the front of the tree to the output. -/
theorem PipeInv.showEntriesRb {s : PipeState} (h : PipeInv o s) :
    PipeInv o (Blkparse.showEntriesRb o find false s) := by
  obtain ⟨done, hts, hout⟩ := showLoop_split o find false s.rbSort none s
  have hdump := showLoop_dumps o find false s.rbSort none s
  have hframe := showLoop_frame o find false s.rbSort none s
  rw [Blkparse.showEntriesRb]
  generalize showLoop o find false s.rbSort none s = r at *
  obtain ⟨s', out⟩ := r
  dsimp only at *
  have htree := h.tree
  have honce := h.once
  rw [TreeSorted, hts] at htree
  rw [hts, List.map_append, ← hout, ← List.append_assoc] at honce
  have hall := shownAll_concat s.passes (false, out)
  rw [hframe]
  refine ⟨h.read, (List.pairwise_append.mp htree).2.1, ?_, h.stored, ?_, ?_, ?_⟩
  · rw [hall]
    exact honce
  · rw [hall, hdump, h.dumped, List.filter_append]
  · intro p hp
    rcases List.mem_append.mp hp with hp | hp
    · exact h.unforced p hp
    · rw [List.mem_singleton.mp hp]
  · intro p hp
    rcases List.mem_append.mp hp with hp | hp
    · exact h.order p hp
    · rw [List.mem_singleton.mp hp, hout]
      exact List.pairwise_map.mpr (List.pairwise_append.mp htree).1

theorem pipeLoop_inv (names : Nat) (input : List (Option BlkIoTrace)) :
    PipeInv o { pipeLoop o find (input.length + 1) input (.init names) with traceList := [] } := by
  apply pipeLoop_induction (P := fun _ s => PipeInv o s)
    (Q := fun s => PipeInv o { s with traceList := [] })
  · intro input s s' rest h hread
    have hnew := h.readEvents input
    rwa [hread] at hnew
  · intro input s s' events rest s₁ youngest h hread _ hsort
    have hnew := h.readEvents input
    rw [hread] at hnew
    have hs₁ := PipeInv.sortEntries (s := { s' with readSequence := s'.readSequence + 1 })
      ⟨rfl, hnew.tree, hnew.once, hnew.stored, hnew.dumped, hnew.unforced, hnew.order⟩
    rw [hsort] at hs₁
    refine ⟨fun _ => ?_, fun _ => hs₁.showEntriesRb⟩
    have hread := hs₁.read
    dsimp only at hread
    rw [← hread]
    exact hs₁
  · exact Nat.lt_succ_self _
  · exact PipeInv.init o names

end Run

/-- What a run leaves: an empty tree, every record that was stored taken out once and dumped if the
mask lets it, each pass in the order of the tree, and the forced pass, if any, last. -/
structure Shows (o : Opts) (s : PipeState) : Prop where
  empty : s.rbSort = []
  stored : s.stored = s.batches.flatMap fun b =>
    (b.raw.map (relative b.genesis)).filter fun bit => !checkStopwatch o bit
  once : (shownAll s.passes).Perm s.stored
  dumped : dumps s.events = (shownAll s.passes).filter o.masks
  order : ∀ p ∈ s.passes, p.2.Pairwise fun a b => orderKey a ≤ orderKey b
  last : ∀ p ∈ s.passes.dropLast, p.1 = false

/-- The end of `do_pipe`: the forced pass, where something is left in the tree. -/
theorem PipeInv.finish {o : Opts} {find : Find} {s : PipeState}
    (h : PipeInv o { s with traceList := [] }) (hd : DevsOk s.devices) :
    Shows o (if s.rbSort = [] then s else Blkparse.showEntriesRb o find true s) ∧
      shownUnforced (if s.rbSort = [] then s else Blkparse.showEntriesRb o find true s).passes
        = shownAll s.passes := by
  have hall : s.passes.filter (fun p => !p.1) = s.passes :=
    List.filter_eq_self.mpr fun p hp => by simp [h.unforced p hp]
  split
  case isTrue hempty =>
    refine ⟨⟨hempty, h.stored, ?_, h.dumped, h.order, ?_⟩, ?_⟩
    · have honce := h.once
      rw [show ({ s with traceList := [] } : PipeState).rbSort = [] from hempty] at honce
      rwa [List.map_nil, List.append_nil] at honce
    · exact fun p hp => h.unforced p (List.mem_of_mem_dropLast hp)
    · rw [shownUnforced, hall]
  case isFalse =>
    obtain ⟨done, hts, hout⟩ := showLoop_split o find true s.rbSort none s
    have hdump := showLoop_dumps o find true s.rbSort none s
    have hframe := showLoop_frame o find true s.rbSort none s
    have hempty := @showLoop_force o find s.rbSort none s hd (CacheOk.none _)
    rw [Blkparse.showEntriesRb]
    generalize showLoop o find true s.rbSort none s = r at *
    obtain ⟨s', out⟩ := r
    dsimp only at *
    rw [hempty, List.append_nil] at hts
    have hpasses := shownAll_concat s.passes (true, out)
    rw [hframe]
    refine ⟨⟨hempty, h.stored, ?_, ?_, ?_, ?_⟩, ?_⟩
    · have honce := h.once
      dsimp only at honce ⊢
      rw [hts, ← hout] at honce
      rwa [hpasses]
    · have hdumped := h.dumped
      dsimp only at hdumped ⊢
      rw [hpasses, hdump, hdumped, List.filter_append]
    · intro p hp
      rcases List.mem_append.mp hp with hp | hp
      · exact h.order p hp
      · rw [List.mem_singleton.mp hp, hout, ← hts]
        exact List.pairwise_map.mpr h.tree
    · intro p hp
      rw [List.dropLast_concat] at hp
      exact h.unforced p hp
    · rw [shownUnforced, List.filter_append, hall]
      simp

theorem traceToCpu_device (native : Bool) (t : BlkIoTrace) :
    (traceToCpu native t).device = if native then t.device else bswap32 t.device := by
  cases native <;> rfl

theorem traceToCpu_device_eq_zero (native : Bool) (t : BlkIoTrace) :
    (traceToCpu native t).device = 0 ↔ t.device = 0 := by
  rw [traceToCpu_device]
  cases native with
  | true => rfl
  | false =>
    have hzero : bswap32 0 = 0 := by decide
    constructor
    · intro h
      rw [← bswap32_bswap32 t.device, show bswap32 t.device = 0 from h, hzero]
    · intro h
      rw [h]
      exact hzero

theorem doPipe_tree (o : Opts) (find : Find) (names : Nat) (input : List (Option BlkIoTrace)) :
    Shows o (doPipe o find names input) ∧
      shownUnforced (doPipe o find names input).passes
        = shownAll (pipeLoop o find (input.length + 1) input (.init names)).passes := by
  -- nothing is asked of the devices but that they are in order
  have hdevs := @pipeLoop_devices (fun _ => True) (fun _ _ => True) (by simp) o find (by simp)
    names input (fun _ _ _ _ _ => trivial) trivial
  exact @PipeInv.finish o find _ (pipeLoop_inv names input) hdevs.devs

end Blktrace.Blkparse
