import Blktrace.Blkparse.TrackRun
import Blktrace.Blkparse.PipeInOrder
import Blktrace.Blkparse.Stopwatch

/-!
# Tracked times from files and from a pipe

Both modes dump everything through the first slot. In pipe mode the slot knows its device, in file
mode it never does, so `is_remapper` is false there. `tracked_modes` says what that and the rest of
the differences come to for the times attached to `I`, `D` and `C` records.
-/

namespace Blktrace.Blkparse

/-! ## File mode -/

theorem mem_dumps {events : List Event} {p : Nat} {d cpu : UInt32} {bit : BlkIoTrace}
    (h : Event.dump p d cpu bit ∈ events) : bit ∈ dumps events :=
  List.mem_filterMap.mpr ⟨_, h, rfl⟩

/-- Priming a stream dumps nothing. -/
theorem msPrime_mem {o : Opts} {s : FileState} {msp : StreamId} {p : Nat} {d cpu : UInt32}
    {bit : BlkIoTrace} (h : Event.dump p d cpu bit ∈ (msPrime o s msp).1.events) :
    Event.dump p d cpu bit ∈ s.events := by
  rw [msPrime] at h
  split at h
  · exact h
  · rcases List.mem_append.mp h with h | h
    · exact h
    · have hno := mem_dumps h
      rw [dumps_notified] at hno
      cases hno

theorem msDeq_mem {o : Opts} {s : FileState} {msp : StreamId} {next : List StreamId} {p : Nat}
    {d cpu : UInt32} {bit : BlkIoTrace}
    (h : Event.dump p d cpu bit ∈ (msDeq o s msp next).events) :
    Event.dump p d cpu bit ∈ s.events := by
  rw [msDeq] at h
  dsimp only at h
  split at h
  · generalize hr : msPrime o _ msp = r at h
    have hm : Event.dump p d cpu bit ∈ r.1.events := by split at h <;> exact h
    rw [← hr] at hm
    have hold := msPrime_mem hm
    exact hold
  · exact h

/-- What is dumped in file mode was handled, and goes to the slot of its stream, whose device is
not set. -/
theorem FileReach.dumped {o : Opts} {devs : List (List (List BlkIoTrace))} {more : Bool}
    {s : FileState} (h : FileReach o devs more s) {p : Nat} {d cpu : UInt32} {bit : BlkIoTrace}
    (hmem : Event.dump p d cpu bit ∈ s.events) : d = 0 ∧ ∃ e ∈ s.handled, e.1.1 = p := by
  induction h with
  | setup =>
    have hno := mem_dumps hmem
    rw [(setup_dumps o _).1] at hno
    cases hno
  | start hs =>
    rw [fileStart, setupDevices_eq] at hs
    split at hs
    · simp at hs
    · simp only [Option.map_some, Option.some.injEq] at hs
      have hno := mem_dumps hmem
      rw [← hs] at hno
      split at hno <;> rw [(setup_dumps o _).1] at hno <;> cases hno
  | @handle s s' msp next more _ _ hh ih =>
    rw [Blkparse.handle] at hh
    cases hfirst : (s.streams msp).first with
    | nil =>
      rw [hfirst] at hh
      obtain ⟨rfl, -⟩ := Prod.mk.inj hh
      exact ih hmem
    | cons t queue =>
      rw [hfirst] at hh
      dsimp only at hh
      have hold : Event.dump p d cpu bit ∈ s.events →
          d = 0 ∧ ∃ e ∈ s.handled ++ [(msp, t)], e.1.1 = p := by
        intro hmem
        obtain ⟨hd, e, he, hp⟩ := ih hmem
        exact ⟨hd, e, List.mem_append_left _ he, hp⟩
      split at hh
      · obtain ⟨rfl, -⟩ := Prod.mk.inj hh
        exact hold hmem
      · obtain ⟨rfl, -⟩ := Prod.mk.inj hh
        have hhandled : ∀ s₀ : FileState, (msDeq o s₀ msp next).handled = s₀.handled := by
          intro s₀
          rw [msDeq]
          dsimp only
          split
          · split <;> exact (msPrime_frame o _ msp).2.2
          · rfl
        rw [hhandled]
        have hmem := msDeq_mem hmem
        dsimp only at hmem ⊢
        split at hmem
        · rcases List.mem_append.mp hmem with hmem | hmem
          · exact hold hmem
          · obtain ⟨rfl, rfl, -⟩ := Event.dump.inj (List.mem_singleton.mp hmem)
            exact ⟨rfl, _, List.mem_append_right _ (List.mem_singleton_self _), rfl⟩
        · exact hold hmem

section File

variable {o : Opts} (hb : 1 ≤ o.rbBatch) {native : Bool} {files : List (List BlkIoTrace)}
  (hg : ∀ f ∈ inputFiles [files], GoodFile native f.1.2 f.2) {s : FileState}
  (hs : doFile o [files] = some s)

include hb hg hs

/-- A single device has the first slot. -/
theorem doFile_onSlot : OnSlot 0 0 s.events := by
  intro p d cpu bit hmem
  obtain ⟨more, hreach⟩ := doFile_reach hs
  obtain ⟨hd, e, he, hp⟩ := hreach.dumped hmem
  obtain ⟨f, hf, hid⟩ := (doFile_delivers hb hg hs).source e he
  have hfiles : f ∈ filesOf 0 0 files := by simpa [inputFiles, filesFrom] using hf
  exact ⟨by rw [← hp, ← hid, ((filesOf_ids 0 0 files).2 f hfiles).1], hd⟩

/-- **A trace of one CPU** is dumped in its own order. -/
theorem doFile_dumps {dev cpu : UInt32} (hone : OneCpu dev cpu (filesRecords native [files])) :
    dumps s.events = ((filesRecords native [files]).filter (o.wants s.genesisTime)).map
      (relative s.genesisTime) := by
  obtain ⟨more, hreach⟩ := doFile_reach hs
  have hd := doFile_delivers hb hg hs
  have hperm := doFile_selected hb hg hs
  rw [hreach.logged]
  congr 1
  -- all that is handled is of the one stream that has records
  have hsource : ∀ e ∈ s.handled, e.1 = (0, cpu.toNat) ∧ ∃ f ∈ inputFiles [files], f.1 = e.1 := by
    intro e he
    obtain ⟨f, hf, hid⟩ := hd.source e he
    obtain ⟨rest, htaken, -⟩ := hd.complete f hf
    have hmem : e.2 ∈ fileRecords native f.2 := by
      rw [htaken, hid]
      refine List.mem_append_left _ (List.mem_map.mpr ⟨e, List.mem_filter.mpr ⟨he, ?_⟩, rfl⟩)
      simp
    have hcpu := hone.ofCpu e.2 (List.mem_flatMap.mpr ⟨f, hf, hmem⟩)
    obtain ⟨raw, hraw, hbit⟩ := List.mem_map.mp (List.mem_filter.mp hmem).1
    have hown := (hg f hf).own raw hraw
    rw [hbit, hcpu] at hown
    have hfiles : f ∈ filesOf 0 0 files := by simpa [inputFiles, filesFrom] using hf
    exact ⟨hid ▸ Prod.ext ((filesOf_ids 0 0 files).2 f hfiles).1 hown.symm, f, hf, hid⟩
  by_cases hnil : s.handled = []
  · rw [FileState.selected, hnil] at hperm ⊢
    exact hperm.nil_eq
  · obtain ⟨e, he⟩ := List.exists_mem_of_ne_nil _ hnil
    obtain ⟨hid, f, hf, hfid⟩ := hsource e he
    obtain ⟨rest, htaken, hpast⟩ := hd.complete f hf
    have hall : KMerge.taken f.1 s.handled = s.handled.map Prod.snd := by
      rw [KMerge.taken, hfid, hid, List.filter_eq_self.mpr]
      intro e he
      simpa using (hsource e he).1
    have hnone : rest.filter (o.wants s.genesisTime) = [] := by
      refine List.filter_eq_nil_iff.mpr fun t ht => ?_
      have hlt : o.stopwatchEnd < t.time - s.genesisTime := by simpa [Opts.past] using hpast t ht
      simp [Opts.wants, Opts.inSpan, not_le.mpr hlt]
    have hsel : s.selected o = (fileRecords native f.2).filter (o.wants s.genesisTime) := by
      rw [htaken, hall, List.filter_append, hnone, List.append_nil]
      rfl
    have hsub : (fileRecords native f.2).Sublist (filesRecords native [files]) := by
      obtain ⟨fs, gs, hsplit⟩ := List.append_of_mem hf
      rw [filesRecords, hsplit, List.flatMap_append, List.flatMap_cons]
      exact (List.sublist_append_left _ _).trans (List.sublist_append_right _ _)
    rw [hsel] at hperm ⊢
    exact (hsub.filter _).eq_of_length hperm.length_eq

end File

/-! ## Pipe mode -/

/-- The first slot is unused, or it is that of `dev`. -/
def HeadOk (dev : UInt32) (devices : List PerDevInfo) : Prop :=
  ∀ e ∈ (devices.map PerDevInfo.dev).head?, e = 0 ∨ e = dev

theorem HeadOk.congr {dev : UInt32} {devices devices' : List PerDevInfo} (h : HeadOk dev devices)
    (hsame : devices'.map PerDevInfo.dev = devices.map PerDevInfo.dev) : HeadOk dev devices' := by
  rw [HeadOk, hsame]
  exact h

theorem HeadOk.look {dev : UInt32} {devices : List PerDevInfo} (h : HeadOk dev devices)
    (cache : Option Nat) : HeadOk dev (lookDev devices cache dev).1 := by
  have hget : HeadOk dev (getDevInfo devices dev).1 := by
    cases devices with
    | nil => simp [getDevInfo, HeadOk]
    | cons pdi rest =>
      rcases h pdi.dev (by simp) with h0 | rfl
      · rw [getDevInfo_unused h0]
        simp [HeadOk]
      · by_cases h0 : pdi.dev = 0
        · rw [getDevInfo_unused h0]
          simp [HeadOk]
        · rw [getDevInfo_hit h0]
          exact h
  unfold lookDev
  cases cache with
  | none => exact hget
  | some i =>
    dsimp only
    split
    · exact hget
    · exact h

/-- The slot of the device is the first. -/
theorem HeadOk.slot {dev : UInt32} {devices : List PerDevInfo} (h : HeadOk dev devices)
    (hs : SlotsOk devices) {i : Nat} (hslot : slotOf devices dev = some i) : i = 0 := by
  cases devices with
  | nil => cases hslot
  | cons pdi rest =>
    rw [slotOf] at hslot
    split at hslot
    · exact (Option.some.inj hslot).symm
    case isFalse hne =>
      -- an unused slot has only unused ones behind it
      have h0 : pdi.dev = 0 := (h pdi.dev (by simp)).resolve_right hne
      obtain ⟨j, hj, -⟩ := Option.map_eq_some_iff.mp hslot
      obtain ⟨hlt, hdev⟩ := slotOf_spec hj
      have hzero := (List.pairwise_cons.mp hs).1 _ (devAt_mem hlt) h0
      exact absurd (h0.trans (hzero.symm.trans hdev)) hne

theorem showLoop_onSlot {o : Opts} {find : Find} {force : Bool} {dev : UInt32} {ts : List Trace}
    (hdev : ∀ t ∈ ts, t.bit.device = dev) {pdi : Option Nat} {s : PipeState}
    (hd : DevsOk s.devices) (hc : CacheOk s.devices pdi) (hh : HeadOk dev s.devices)
    (h : OnSlot 0 dev s.events) : OnSlot 0 dev (showLoop o find force ts pdi s).1.events := by
  induction ts generalizing pdi s with
  | nil => exact h
  | cons t rest ih =>
    have htdev := hdev t List.mem_cons_self
    have hlooked := lookDev_looked hd.slotsOk hc t.bit.device
    have hd₁ := hd.look hc t.bit.device
    have hh₁ : HeadOk dev (lookDev s.devices pdi t.bit.device).1 := by
      rw [htdev]
      exact hh.look pdi
    rcases showLoop_cons o find force t rest pdi s with
      ⟨devices, -, -, heq⟩ | ⟨devices, i, pdi', hlk, hpass, heq⟩
    · rw [heq]
      exact h
    · rw [hlk] at hlooked hd₁ hh₁
      obtain ⟨hpdev, hplain⟩ := hpass.dev (devAt_plain hd₁.plain i)
      obtain ⟨hsdev, hsplain, -⟩ := show_spec o pdi' t.bit
      have hfound : slotOf devices dev = some i := htdev ▸ hlooked.found
      have hi : i = 0 := hh₁.slot hlooked.slotsOk hfound
      have hidev : pdi'.dev = dev := hpdev.trans (slotOf_spec hfound).2
      rw [heq]
      refine @ih (fun u hu => hdev u (List.mem_cons_of_mem _ hu)) (some i)
        (s.shown o devices i pdi' t.bit) (hd₁.set (hsdev.trans hpdev) (hsplain hplain))
        (hlooked.cacheOk.set (hsdev.trans hpdev)) (hh₁.congr (set_dev (hsdev.trans hpdev))) ?_
      intro p d cpu bit hmem
      rw [PipeState.shown] at hmem
      dsimp only at hmem
      split at hmem
      · rcases List.mem_append.mp hmem with hmem | hmem
        · exact h p d cpu bit hmem
        · obtain ⟨rfl, rfl, -⟩ := Event.dump.inj (List.mem_singleton.mp hmem)
          exact ⟨hi, hidev⟩
      · exact h p d cpu bit hmem

/-- The records dumped of a batch, in the order they were read in. -/
def Batch.dumped (o : Opts) (b : Batch) : List BlkIoTrace :=
  ((b.selected o).map (relative b.genesis)).reverse

section Pipe

variable {o : Opts} {find : Find} {names : Nat} {native : Bool} {dev cpu : UInt32}
  {input : List (Option BlkIoTrace)} (hv : ValidPipe native input)
  (hone : OneCpu dev cpu (pipeRecords native input))

include hv hone

/-- A single device has the first slot, and the slot knows it. -/
theorem doPipe_onSlot : OnSlot 0 dev (doPipe o find names input).events := by
  have hlook : ∀ (devices : List PerDevInfo) cache (past : List BlkIoTrace) e, e = dev →
      DevsOk devices → CacheOk devices cache → HeadOk dev devices →
      HeadOk dev (lookDev devices cache e).1 := by
    rintro devices cache - e rfl - - hh
    exact hh.look cache
  have hshow : ∀ force (s : PipeState),
      DevsKept (· = dev) (fun devices _ => HeadOk dev devices) s → OnSlot 0 dev s.events →
      DevsKept (· = dev) (fun devices _ => HeadOk dev devices) (showEntriesRb o find force s) ∧
        OnSlot 0 dev (showEntriesRb o find force s).events := by
    intro force s hs hslot
    refine ⟨hs.showEntriesRb hlook fun devices i pdi' past t rest he hd _ hpass hh => ?_,
      showLoop_onSlot hs.fits hs.devs (CacheOk.none _) hs.kept hslot⟩
    have hpdev := (hpass.dev (devAt_plain hd.plain i)).1
    exact hh.congr (set_dev ((show_spec o pdi' t.bit).1.trans hpdev))
  have hread : ∀ rest s, OnSlot 0 dev s.events →
      OnSlot 0 dev (Blkparse.readEvents o rest 0 none s).1.events := by
    intro rest s h
    refine readEvents_rule (P := fun s' => OnSlot 0 dev s'.events) (fun _ _ h => h) ?_
      (fun _ _ _ _ _ h => h) rest 0 none h
    intro s' b bit _ _ h p d cpu bit' hmem
    rcases List.mem_append.mp hmem with hmem | hmem
    · exact h p d cpu bit' hmem
    · cases List.mem_singleton.mp hmem
  have hloop := @pipeLoop_induction o find
    (fun rest s => ReadSoFar native input rest s ∧ s.traceList = [] ∧
      DevsKept (· = dev) (fun devices _ => HeadOk dev devices) s ∧ OnSlot 0 dev s.events)
    (fun s => DevsKept (· = dev) (fun devices _ => HeadOk dev devices) s ∧ OnSlot 0 dev s.events)
    ?_ ?_ (input.length + 1) input (.init names) (Nat.lt_succ_self _)
    ⟨⟨hv, Or.inl rfl, rfl, by simp [PipeState.init]⟩, rfl,
      ⟨DevsOk.init names, by simp [PipeState.init], ?_⟩, fun _ _ _ _ h => by cases h⟩
  · rw [doPipe]
    split
    · exact hloop.2
    · exact (hshow true _ hloop.1 hloop.2).2
  · rintro rest s s' rest' ⟨hsofar, hlist, hs, hslot⟩ heq
    have hnew := (hs.readEvents (o := o) hlook (hsofar.fit hone) hlist).1
    have hslot' := hread rest s hslot
    rw [heq] at hnew hslot'
    exact ⟨hnew, hslot'⟩
  · rintro rest s s' events rest' s₁ youngest ⟨hsofar, hlist, hs, hslot⟩ heq hpos hsort
    obtain ⟨hsofar₁, hlist₁, -⟩ := hsofar.sort hlist heq hpos hsort
    obtain ⟨hs₁, -⟩ := hs.turn hlook (hsofar.fit hone) hlist heq hsort
    have hslot₁ : OnSlot 0 dev s₁.events := by
      have hslot' := hread rest s hslot
      have hsframe := (sortEntries_frame o { s' with readSequence := s'.readSequence + 1 }).1
      rw [heq] at hslot'
      rw [hsort] at hsframe
      have hevents := congrArg PipeState.events hsframe
      dsimp only at hevents
      rwa [hevents]
    refine ⟨fun _ => ⟨hs₁, hslot₁⟩, fun _ => ⟨hsofar₁.show, ?_, hshow false s₁ hs₁ hslot₁⟩⟩
    rw [showEntriesRb, showLoop_frame]
    exact hlist₁
  · intro e he
    cases names with
    | zero => cases he
    | succ n => simp_all [PipeState.init, List.replicate_succ]

theorem doPipe_dumps_grows : Grows (dumps (doPipe o find names input).events) := by
  rw [(doPipe_tree o find names input).1.dumped]
  exact (doPipe_grows hone hv).filter _

/-- **A trace of one CPU** is dumped in its own order, but for messages. -/
theorem doPipe_numbered : numbered (dumps (doPipe o find names input).events) =
    numbered ((doPipe o find names input).batches.flatMap (Batch.dumped o)) := by
  refine (doPipe_dumps_grows hv hone).numbered_eq ?_
    ((doPipe_dumps o find names input).trans (List.Perm.flatMap_left _ fun b _ =>
      (List.reverse_perm _).symm))
  obtain ⟨rest, hread, -⟩ := @pipeLoop_read o find native names input hv
  have hrecords := hread.records
  rw [← doPipe_batches] at hrecords
  have hall := hone.grows
  rw [hrecords, Grows, numbered_append] at hall
  have hbatches := (List.pairwise_append.mp hall).1
  rw [Grows]
  rw [numbered, List.filter_flatMap, List.pairwise_flatMap] at hbatches ⊢
  -- a batch dumped has the numbers of the records selected
  have hnum : ∀ b : Batch, ∀ x ∈ (b.dumped o).filter fun bit => !bit.isMessage,
      ∃ raw ∈ b.raw.reverse.filter fun bit => !bit.isMessage, x.sequence = raw.sequence := by
    intro b x hx
    obtain ⟨hx, hm⟩ := List.mem_filter.mp hx
    obtain ⟨raw, hraw, rfl⟩ := List.mem_map.mp (List.mem_reverse.mp hx)
    exact ⟨raw, List.mem_filter.mpr ⟨List.mem_reverse.mpr (List.mem_filter.mp hraw).1, hm⟩, rfl⟩
  refine ⟨fun b hb => ?_, hbatches.2.imp fun {b c} h x hx y hy => ?_⟩
  · have hb := hbatches.1 b hb
    rw [Batch.dumped, ← List.map_reverse, List.filter_map]
    refine List.pairwise_map.mpr ((hb.sublist ?_).imp fun h => h)
    rw [Batch.selected, ← List.filter_reverse]
    exact List.filter_sublist.filter _
  · obtain ⟨rx, hrx, hxs⟩ := hnum b x hx
    obtain ⟨ry, hry, hys⟩ := hnum c y hy
    rw [hxs, hys]
    exact h rx hrx ry hry

end Pipe

/-! ## Both modes -/

/-- The records in the window of the manual page, measured from the first time of the trace: what
file mode dumps. -/
def windowed (o : Opts) (bits : List BlkIoTrace) : List BlkIoTrace :=
  (bits.filter (o.wants (leastTime bits))).map (relative (leastTime bits))

/-- What pipe mode dumps of batches, in the order they were read in. The origin is the least time
of the first batch that does not reach down to 0. -/
def windowedBatches (o : Opts) (origin : UInt64) : List (List BlkIoTrace) → List BlkIoTrace
  | [] => []
  | raw :: raws =>
    let origin := if origin = 0 then leastTime raw else origin
    (inWindow o origin raw.reverse).filter o.masks ++ windowedBatches o origin raws

theorem Batch.dumped_eq (o : Opts) (b : Batch) :
    b.dumped o = (inWindow o b.genesis b.raw.reverse).filter o.masks := by
  rw [Batch.dumped, Batch.selected, inWindow, List.filter_map, List.filter_map, List.filter_filter,
    ← List.map_reverse, ← List.filter_reverse]
  rfl

theorem Origins.windowedBatches {o : Opts} {s : PipeState} (h : Origins s) :
    s.batches.flatMap (Batch.dumped o)
      = Blkparse.windowedBatches o 0 (s.batches.map Batch.raw) := by
  have hrest : ∀ pre post, s.batches = pre ++ post → post.flatMap (Batch.dumped o)
      = Blkparse.windowedBatches o (originAt (pre.map Batch.raw)) (post.map Batch.raw) := by
    intro pre post heq
    induction post generalizing pre with
    | nil => rfl
    | cons b post ih =>
      have horigin := (h.each pre b post heq).2
      rw [List.map_append, List.map_singleton, originAt_concat] at horigin
      have ih := ih (pre ++ [b]) (by rw [heq, List.append_assoc]; rfl)
      rw [List.map_append, List.map_singleton, originAt_concat] at ih
      rw [List.flatMap_cons, List.map_cons, Blkparse.windowedBatches, ih, Batch.dumped_eq, horigin]
  exact hrest [] s.batches rfl

/-- The batches of a trace that does not start at 0 all have its first time as origin. -/
theorem Origins.oneOrigin {native : Bool} {input rest : List (Option BlkIoTrace)} {s : PipeState}
    (horigins : Origins s) (h : ReadSoFar native input rest s)
    (hsorted : (pipeRecords native input).Pairwise fun a b => a.time ≤ b.time)
    (hpos : ∀ bit ∈ pipeRecords native input, bit.time ≠ 0) :
    ∀ b ∈ s.batches, b.genesis = leastTime (pipeRecords native input) := by
  intro b hb
  cases hs : s.batches with
  | nil =>
    rw [hs] at hb
    cases hb
  | cons first others =>
    have hfirst : first ∈ s.batches := hs ▸ List.mem_cons_self
    obtain ⟨bit, hbit, htime⟩ := exists_leastTime (h.nonempty first hfirst)
    have hmem := h.mem hfirst hbit
    have hne : leastTime first.raw ≠ 0 := htime ▸ hpos bit hmem
    rw [(horigins.of_ne_zero hs hne hb).1]
    refine le_antisymm ?_ (htime ▸ leastTime_le hmem)
    -- the first record is in the first batch
    obtain ⟨c, hc, hctime⟩ := exists_leastTime (List.ne_nil_of_mem hmem)
    rw [← hctime]
    have hrecords := h.records
    rw [hs, List.flatMap_cons, List.append_assoc] at hrecords
    rw [hrecords] at hc hsorted
    rcases List.mem_append.mp hc with hc | hc
    · exact leastTime_le (List.mem_reverse.mp hc)
    · rw [← htime]
      exact (List.pairwise_append.mp hsorted).2.2 bit (List.mem_reverse.mpr hbit) c hc

/-- **In the usual case** pipe mode dumps what file mode does, but for the order of messages. -/
theorem doPipe_usual {o : Opts} (hb : 1 ≤ o.rbBatch) {find : Find} {names : Nat} {native : Bool}
    {dev cpu : UInt32} {input : List (Option BlkIoTrace)} (hv : ValidPipe native input)
    (hone : OneCpu dev cpu (pipeRecords native input))
    (hpos : ∀ bit ∈ pipeRecords native input, bit.time ≠ 0)
    (hedge : ∀ bit ∈ pipeRecords native input, o.masks bit = true →
      bit.time - leastTime (pipeRecords native input) ≠ o.stopwatchEnd) :
    numbered (dumps (doPipe o find names input).events) =
      numbered (windowed o (pipeRecords native input)) := by
  obtain ⟨rest, hread, -⟩ := @pipeLoop_read o find native names input hv
  have horigin := (pipeLoop_origins o find names input).oneOrigin hread hone.sorted hpos
  rw [← doPipe_batches] at horigin
  have hmem : ∀ b ∈ (doPipe o find names input).batches, ∀ bit ∈ b.raw,
      bit ∈ pipeRecords native input := by
    intro b hb bit hbit
    rw [doPipe_batches] at hb
    exact hread.mem hb hbit
  have hfree : EdgeFree o (leastTime (pipeRecords native input))
      ((doPipe o find names input).batches.map Batch.raw) := by
    intro pre raw post heq bit hbit hmask
    obtain ⟨bs, cs, hsplit, rfl, hcs⟩ := List.map_eq_append_iff.mp heq
    obtain ⟨b, cs', rfl, rfl, rfl⟩ := List.map_eq_cons_iff.mp hcs
    have hbmem : b ∈ (doPipe o find names input).batches := by
      rw [hsplit]
      exact List.mem_append_right _ List.mem_cons_self
    have heach := ((doPipe_origins o find names input).each bs b cs' hsplit).2
    rw [List.map_append, List.map_singleton, horigin b hbmem] at heach
    rw [← heach, UInt64.sub_self]
    have hne := hedge bit (hmem b hbmem bit hbit) hmask
    have hne' : (bit.time - leastTime (pipeRecords native input)).toNat ≠ o.stopwatchEnd.toNat :=
      fun h => hne (UInt64.toNat_inj.mp h)
    rw [Opts.SameSpan, UInt64.toNat_zero]
    omega
  have hselected := (@doPipe_selected_iff o find names native input hv hone.sorted hb _
    fun bit hbit => leastTime_le hbit).mpr hfree
  have hperm : (dumps (doPipe o find names input).events).Perm
      (windowed o (pipeRecords native input)) := by
    have hmap := hselected.map (relative (leastTime (pipeRecords native input)))
    rw [List.map_flatMap] at hmap
    refine (doPipe_dumps o find names input).trans (List.Perm.trans ?_ hmap)
    refine List.Perm.of_eq (List.flatMap_congr fun b hb => ?_)
    rw [horigin b hb]
  refine (doPipe_dumps_grows hv hone).numbered_eq ?_ hperm
  rw [Grows, numbered, windowed, List.filter_map]
  refine List.pairwise_map.mpr ((hone.grows.sublist ?_).imp fun h => h)
  exact List.filter_sublist.filter _

theorem windowed_sorted {o : Opts} {bits : List BlkIoTrace}
    (h : bits.Pairwise fun a b => a.time ≤ b.time) :
    (windowed o bits).Pairwise fun a b => a.time ≤ b.time := by
  refine List.pairwise_map.mpr (((h.filter _).imp_of_mem ?_))
  intro a b ha hb hle
  exact Word.sub_mono (leastTime_le (List.mem_filter.mp ha).1) hle

/-- **The times attached in the two modes.** They are the same whatever is in the memory of either
if and only if the live tracks of both give them, and give the same. Where the trace does not start
at time 0 and has no record at the end of the window, both modes dump the same records, and what is
left is the time of a `Q` on a remapper. -/
theorem tracked_modes {o : Opts} (hb : 1 ≤ o.rbBatch) (ht : o.trackIos = true) {find : Find}
    {names : Nat} {native : Bool} {dev cpu : UInt32} {files : List (List BlkIoTrace)}
    (hfiles : files ≠ []) (hg : ∀ f ∈ inputFiles [files], GoodFile native f.1.2 f.2)
    {input : List (Option BlkIoTrace)} (hv : ValidPipe native input)
    (hsame : filesRecords native [files] = pipeRecords native input)
    (hone : OneCpu dev cpu (pipeRecords native input)) :
    ∃ s, doFile o [files] = some s ∧
      let p := doPipe o find names input
      let bits := pipeRecords native input
      let remapper := Dumper.isRemapper dev
      (SameTimes o p.events s.events ↔
        Watch.Comparable
          (Watch.timed remapper {} (windowedBatches o 0 (p.batches.map Batch.raw)))
          (Watch.timed false {} (windowed o bits))) ∧
      ((∀ bit ∈ bits, bit.time ≠ 0) →
        (∀ bit ∈ bits, o.masks bit = true → bit.time - leastTime bits ≠ o.stopwatchEnd) →
        (SameTimes o p.events s.events ↔ Watch.AllAlike remapper {} {} (windowed o bits))) := by
  obtain ⟨s, hs⟩ := @doFile_eq_some o [files] (by simpa using hfiles.symm)
  refine ⟨s, hs, ?_⟩
  intro p bits remapper
  have hfile : dumps s.events = windowed o bits := by
    rw [doFile_dumps hb hg hs (hsame ▸ hone), hsame]
    obtain ⟨hle, hattained⟩ := doFile_genesis hb hg hs
    rw [hsame] at hle hattained
    by_cases hnil : pipeRecords native input = []
    · simp [windowed, bits, hnil]
    · obtain ⟨bit, hbit, htime⟩ := hattained hnil
      obtain ⟨least, hleast, hltime⟩ := exists_leastTime hnil
      have hgen : s.genesisTime = leastTime bits :=
        le_antisymm (hltime ▸ hle least hleast) (htime ▸ leastTime_le hbit)
      rw [hgen]
      rfl
  have hbase := sameTimes_iff ht (@doPipe_onSlot o find names native dev cpu input hv hone)
    (doFile_onSlot hb hg hs)
  have hzero : Dumper.isRemapper 0 = false := by decide
  rw [hfile, hzero, ← Watch.timed_numbered remapper] at hbase
  refine ⟨?_, fun hpos hedge => ?_⟩
  · have horder := @doPipe_numbered o find names native dev cpu input hv hone
    rw [numbered, numbered, (doPipe_origins o find names input).windowedBatches] at horder
    rw [hbase, horder, Watch.timed_numbered]
  · have horder := @doPipe_usual o hb find names native dev cpu input hv hone hpos hedge
    rw [numbered, numbered] at horder
    rw [hbase, horder, Watch.timed_numbered]
    refine Watch.comparable_iff ⟨fun _ _ => rfl, fun _ _ h => h, fun _ _ h => h⟩
      (fun t _ sector life hl => by cases hl) (windowed_sorted hone.sorted) fun t hmem heq => ?_
    obtain ⟨raw, hraw, rfl⟩ := List.mem_map.mp hmem
    have hraw := (List.mem_filter.mp hraw).1
    obtain ⟨least, hleast, htime⟩ := exists_leastTime (List.ne_nil_of_mem hraw)
    have hne : (leastTime (pipeRecords native input)).toNat ≠ 0 := fun h =>
      hpos least hleast (htime.trans (UInt64.toNat_inj.mp h))
    have hsub := Word.toNat_sub_of_le (leastTime_le hraw)
    have hlt := raw.time.toNat_lt
    have hval : (raw.time - leastTime (pipeRecords native input)).toNat = 18446744073709551615 :=
      congrArg UInt64.toNat heq
    omega

/-- A record of a device, by its number. -/
def ioRecordOf (device sequence action : UInt32) (time : UInt64) : BlkIoTrace :=
  { ioRecord action time with device, sequence }

/-- `G`, `I`, `D` and `C` of a disk: the same in both modes. -/
theorem tracked_modes_disk : ∃ s, doFile { trackIos := true } [[[ioRecordOf 0x800000 1 4 10,
      ioRecordOf 0x800000 2 12 20, ioRecordOf 0x800000 3 7 30, ioRecordOf 0x800000 4 8 40]]] = some s ∧
    SameTimes { trackIos := true } (doPipe { trackIos := true } (fun _ _ _ => none) 0
      [some (ioRecordOf 0x800000 1 4 10), some (ioRecordOf 0x800000 2 12 20), none,
        some (ioRecordOf 0x800000 3 7 30), some (ioRecordOf 0x800000 4 8 40)]).events s.events := by
  obtain ⟨s, hs, -, h⟩ := @tracked_modes { trackIos := true } (by decide) rfl
    (fun _ _ _ => none) 0 true 0x800000 0 [[ioRecordOf 0x800000 1 4 10,
      ioRecordOf 0x800000 2 12 20, ioRecordOf 0x800000 3 7 30, ioRecordOf 0x800000 4 8 40]]
    (by decide) (by decide) [some (ioRecordOf 0x800000 1 4 10),
      some (ioRecordOf 0x800000 2 12 20), none, some (ioRecordOf 0x800000 3 7 30),
      some (ioRecordOf 0x800000 4 8 40)]
    (by
      intro raw hraw
      have hcases : raw = ioRecordOf 0x800000 1 4 10 ∨ raw = ioRecordOf 0x800000 2 12 20 ∨
          raw = ioRecordOf 0x800000 3 7 30 ∨ raw = ioRecordOf 0x800000 4 8 40 := by simpa using hraw
      rcases hcases with rfl | rfl | rfl | rfl <;> decide)
    (by decide)
    ⟨by decide, by decide, by decide, ⟨1, by decide⟩⟩
  refine ⟨s, hs, (h (by decide) (by decide)).mpr ?_⟩
  have hwin : windowed { trackIos := true } (pipeRecords true [some (ioRecordOf 0x800000 1 4 10),
      some (ioRecordOf 0x800000 2 12 20), none, some (ioRecordOf 0x800000 3 7 30),
      some (ioRecordOf 0x800000 4 8 40)]) = [ioRecordOf 0x800000 1 4 0, ioRecordOf 0x800000 2 12 10,
        ioRecordOf 0x800000 3 7 20, ioRecordOf 0x800000 4 8 30] := by decide
  rw [hwin]
  refine ⟨⟨trivial, ?_⟩, ⟨?_, ?_⟩, ⟨fun _ _ => ?_, ?_⟩, ⟨fun _ => ?_, ?_⟩, trivial⟩ <;>
    decide

/-- `Q` and `C` of an md device, whose major is 9. -/
theorem not_sameTimes_remapper : ∃ s, doFile { trackIos := true }
      [[[ioRecordOf 0x900000 1 1 10, ioRecordOf 0x900000 2 8 20]]] = some s ∧
    ¬ SameTimes { trackIos := true } (doPipe { trackIos := true } (fun _ _ _ => none) 0
      [some (ioRecordOf 0x900000 1 1 10), some (ioRecordOf 0x900000 2 8 20)]).events s.events := by
  obtain ⟨s, hs⟩ := @doFile_eq_some { trackIos := true }
    [[[ioRecordOf 0x900000 1 1 10, ioRecordOf 0x900000 2 8 20]]] (by decide)
  refine ⟨s, hs, fun h => ?_⟩
  have hfile : (doFile { trackIos := true }
      [[[ioRecordOf 0x900000 1 1 10, ioRecordOf 0x900000 2 8 20]]]).map (fun s =>
        attached (({} : Dumper).run { trackIos := true } (fun _ => ⟨0, 0, 0, 0, 0⟩) s.events).lines)
      = some [(2, noElapsed)] := by decide
  have hpipe : attached (({} : Dumper).run { trackIos := true } (fun _ => ⟨0, 0, 0, 0, 0⟩)
      (doPipe { trackIos := true } (fun _ _ _ => none) 0 [some (ioRecordOf 0x900000 1 1 10),
        some (ioRecordOf 0x900000 2 8 20)]).events).lines = [(2, 10)] := by decide
  rw [hs, Option.map_some, ← h (fun _ => ⟨0, 0, 0, 0, 0⟩), hpipe] at hfile
  revert hfile
  decide

end Blktrace.Blkparse
