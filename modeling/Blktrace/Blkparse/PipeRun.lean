import Blktrace.Blkparse.PipeLoops

/-!
# A whole run of pipe mode

Two rules for the loop of `do_pipe`: `pipeLoop_induction` for what is kept from turn to turn, and
`doPipe_devices` for what is kept of the devices whenever a slot is looked up or a record is shown.
And what a turn reads when every record is valid: the records of the pipe in order, in the one
byte order they are all in (`readEvents_valid`).
-/

namespace Blktrace.Blkparse

/-- All that the passes took out, and what those before the forced one did. -/
def shownAll (passes : List (Bool × List BlkIoTrace)) : List BlkIoTrace := passes.flatMap Prod.snd

def shownUnforced (passes : List (Bool × List BlkIoTrace)) : List BlkIoTrace :=
  shownAll (passes.filter fun p => !p.1)

theorem shownAll_concat (passes : List (Bool × List BlkIoTrace)) (p : Bool × List BlkIoTrace) :
    shownAll (passes ++ [p]) = shownAll passes ++ p.2 := by
  simp [shownAll]

/-! ## From turn to turn -/

/-- **The rule of the loop.** The fuel of `do_pipe` does not show in it. -/
theorem pipeLoop_induction {o : Opts} {find : Find}
    {P : List (Option BlkIoTrace) → PipeState → Prop} {Q : PipeState → Prop}
    (hend : ∀ input s s' rest, P input s → readEvents o input 0 none s = (s', 0, rest) → Q s')
    (hturn : ∀ input s s' events rest s₁ youngest, P input s →
      readEvents o input 0 none s = (s', events, rest) → 0 < events →
      sortEntries o { s' with readSequence := s'.readSequence + 1 } = (s₁, youngest) →
      (o.stopwatchEnd < youngest → Q s₁) ∧
        (youngest ≤ o.stopwatchEnd → P rest (showEntriesRb o find false s₁)))
    {fuel : Nat} {input : List (Option BlkIoTrace)} {s : PipeState} (hfuel : input.length < fuel)
    (h : P input s) : Q (pipeLoop o find fuel input s) := by
  induction fuel generalizing input s with
  | zero => exact absurd hfuel (Nat.not_lt_zero _)
  | succ fuel ih =>
    obtain ⟨-, hlen⟩ := readEvents_rest o input 0 none s
    rw [pipeLoop]
    generalize hread : readEvents o input 0 none s = r at *
    obtain ⟨s', events, rest⟩ := r
    dsimp only at *
    split
    case isTrue hev =>
      subst hev
      exact hend input s s' rest h hread
    case isFalse hev =>
      have hpos := Nat.pos_of_ne_zero hev
      have hlt := hlen hpos
      generalize hsort : sortEntries o { s' with readSequence := s'.readSequence + 1 } = q
      obtain ⟨s₁, youngest⟩ := q
      obtain ⟨hstop, hgo⟩ := hturn input s s' events rest s₁ youngest h hread hpos hsort
      dsimp only
      split
      case isTrue hpast => exact hstop hpast
      case isFalse hpast => exact ih (by omega) (hgo (not_lt.mp hpast))

/-! ## A batch sorted -/

/-- The origin a batch is sorted with. -/
def originOf (before : UInt64) (ts : List Trace) : UInt64 := if before = 0 then minTime ts else before

/-- What `find_genesis` does to the clock, where it is called. -/
def clockOf (c : Clock) (before : UInt64) (ts : List Trace) : Clock :=
  if before = 0 then c.findGenesis (minTime ts) else c

/-- **What `sort_entries` does** beside filling the tree. -/
theorem sortEntries_frame (o : Opts) (s : PipeState) :
    (sortEntries o s).1 = { s with
      devices := (sortEntries o s).1.devices
      rbSort := (sortEntries o s).1.rbSort
      stored := (sortEntries o s).1.stored
      traceList := []
      genesisTime := originOf s.genesisTime s.traceList
      clock := clockOf s.clock s.genesisTime s.traceList
      batches := s.batches ++ [⟨s.traceList.map Trace.bit, s.clock, s.genesisTime,
        originOf s.genesisTime s.traceList⟩] } ∧
    (sortEntries o s).2 = (s.traceList.map fun t =>
      (relative (originOf s.genesisTime s.traceList) t.bit).time).foldl younger 0 := by
  rw [sortEntries, originOf, clockOf]
  split
  · obtain ⟨h1, h2⟩ := sortLoop_frame o (findGenesis s).traceList none 0
      { findGenesis s with batches := (findGenesis s).batches ++
        [⟨s.traceList.map Trace.bit, s.clock, s.genesisTime, (findGenesis s).genesisTime⟩] }
    exact ⟨h1, h2⟩
  · obtain ⟨h1, h2⟩ := sortLoop_frame o s.traceList none 0
      { s with batches := s.batches ++
        [⟨s.traceList.map Trace.bit, s.clock, s.genesisTime, s.genesisTime⟩] }
    exact ⟨h1, h2⟩

/-! ## The devices over a run -/

/-- All records that a pipe may put into the tree are of devices that fit. -/
def Fit (Fits : UInt32 → Prop) (input : List (Option BlkIoTrace)) : Prop :=
  ∀ b raw, some raw ∈ input → verifyTrace (traceToCpu b raw) = false →
    (traceToCpu b raw).isNotify = false → Fits (traceToCpu b raw).device

theorem Fit.suffix {Fits : UInt32 → Prop} {input rest : List (Option BlkIoTrace)}
    (h : Fit Fits input) (hs : rest <:+ input) : Fit Fits rest :=
  fun b raw hmem => h b raw (hs.subset hmem)

section Devices

variable {Fits : UInt32 → Prop} {P : List PerDevInfo → List BlkIoTrace → Prop}
  (hlook : ∀ devices cache past dev, Fits dev → DevsOk devices → CacheOk devices cache →
    P devices past → P (lookDev devices cache dev).1 past)

include hlook

/-- `sort_entries` looks up the device of every record it sorts. -/
theorem sortEntries_devices {o : Opts} {s : PipeState} {past : List BlkIoTrace}
    (hd : DevsOk s.devices) (hlist : ∀ t ∈ s.traceList, Fits t.bit.device)
    (htree : ∀ t ∈ s.rbSort, Fits t.bit.device) (h : P s.devices past) :
    DevsOk (sortEntries o s).1.devices ∧ P (sortEntries o s).1.devices past ∧
      (∀ t ∈ (sortEntries o s).1.rbSort, Fits t.bit.device) ∧
      (sortEntries o s).1.traceList = [] ∧ (sortEntries o s).1.passes = s.passes := by
  -- `s₁` is the state after `find_genesis`, with the batch on record
  generalize hs₁ : (let s' := if s.genesisTime = 0 then findGenesis s else s
    ({ s' with batches := s'.batches ++
      [⟨s.traceList.map Trace.bit, s.clock, s.genesisTime, s'.genesisTime⟩] } : PipeState)) = s₁
  have hsame : s₁.devices = s.devices ∧ s₁.rbSort = s.rbSort ∧ s₁.passes = s.passes ∧
      s₁.traceList = s.traceList := by
    rw [← hs₁]
    dsimp only
    split <;> exact ⟨rfl, rfl, rfl, rfl⟩
  obtain ⟨hdev₁, htree₁, hpass₁, hlist₁⟩ := hsame
  have hsort : sortEntries o s = sortLoop o s₁.traceList none 0 s₁ := by
    rw [← hs₁, sortEntries]
  obtain ⟨hd', s', ⟨hp, ht, hpass, -⟩, heq⟩ := @sortLoop_induction o
    (fun s' ts => P s'.devices past ∧ (∀ t ∈ s'.rbSort, Fits t.bit.device) ∧
      s'.passes = s.passes ∧ ∀ t ∈ ts, Fits t.bit.device) s₁.traceList none 0 s₁
    (fun s' cache t rest hd hc ⟨hp, ht, hpass, hts⟩ => by
      have hfit := hts t List.mem_cons_self
      refine ⟨hlook s'.devices cache past t.bit.device hfit hd hc hp, ?_, ?_,
        fun u hu => hts u (List.mem_cons_of_mem _ hu)⟩
      · rw [PipeState.sorted]
        dsimp only
        split
        · exact ht
        · intro u hu
          rcases List.mem_cons.mp ((traceRbInsert_perm _ _).mem_iff.mp hu) with rfl | hu
          · exact hfit
          · exact ht u hu
      · rw [PipeState.sorted]
        dsimp only
        split <;> exact hpass)
    (hdev₁ ▸ hd) (CacheOk.none _) ⟨hdev₁ ▸ h, htree₁ ▸ htree, hpass₁, hlist₁ ▸ hlist⟩
  rw [hsort]
  rw [heq] at hd' ⊢
  exact ⟨hd', hp, ht, rfl, hpass⟩

/-- What the loop of `do_pipe` keeps of the devices. -/
structure DevsKept (Fits : UInt32 → Prop) (P : List PerDevInfo → List BlkIoTrace → Prop)
    (s : PipeState) : Prop where
  devs : DevsOk s.devices
  fits : ∀ t ∈ s.rbSort, Fits t.bit.device
  kept : P s.devices (shownAll s.passes)

omit hlook in
/-- A batch read looks up devices. -/
theorem DevsKept.readEvents {o : Opts} {input : List (Option BlkIoTrace)} {s : PipeState}
    (h : DevsKept Fits P s)
    (hlook : ∀ devices cache past dev, Fits dev → DevsOk devices → CacheOk devices cache →
      P devices past → P (lookDev devices cache dev).1 past)
    (hin : Fit Fits input)
    (hlist : s.traceList = []) : DevsKept Fits P (Blkparse.readEvents o input 0 none s).1 ∧
      ∀ t ∈ (Blkparse.readEvents o input 0 none s).1.traceList, Fits t.bit.device := by
  obtain ⟨hd, hkept, hfits⟩ := @readEvents_induction o
    (fun s' => P s'.devices (shownAll s.passes) ∧ ∀ t ∈ s'.traceList, Fits t.bit.device)
    input 0 none s (fun s' b h => h) (fun s' b bit h => h)
    (fun s' cache b raw hmem hd hc hv hn h => by
      refine ⟨hlook s'.devices cache _ _ (hin b raw hmem hv hn) hd hc h.1, fun t ht => ?_⟩
      rcases List.mem_cons.mp ht with rfl | ht
      · exact hin b raw hmem hv hn
      · exact h.2 t ht)
    h.devs (CacheOk.none _) ⟨h.kept, by simp [hlist]⟩
  obtain ⟨hframe, -⟩ := readEvents_frame o input 0 none s
  refine ⟨⟨hd, ?_, ?_⟩, hfits⟩
  · rw [hframe]
    exact h.fits
  · have hpasses := congrArg PipeState.passes hframe
    rw [hpasses]
    exact hkept

omit hlook in
/-- A batch read and sorted. -/
theorem DevsKept.turn {o : Opts} {input rest : List (Option BlkIoTrace)} {s s' s₁ : PipeState}
    {events : Nat} {youngest : UInt64} (h : DevsKept Fits P s)
    (hlook : ∀ devices cache past dev, Fits dev → DevsOk devices → CacheOk devices cache →
      P devices past → P (lookDev devices cache dev).1 past)
    (hin : Fit Fits input) (hlist : s.traceList = [])
    (hread : Blkparse.readEvents o input 0 none s = (s', events, rest))
    (hsort : sortEntries o { s' with readSequence := s'.readSequence + 1 } = (s₁, youngest)) :
    DevsKept Fits P s₁ ∧ s₁.traceList = [] := by
  have hnew := h.readEvents (o := o) hlook hin hlist
  rw [hread] at hnew
  obtain ⟨hnew, hfits⟩ := hnew
  obtain ⟨hd₁, hkept₁, htree₁, hlist₁, hpass₁⟩ := @sortEntries_devices Fits P hlook o
    { s' with readSequence := s'.readSequence + 1 } (shownAll s'.passes) hnew.devs hfits
    hnew.fits hnew.kept
  rw [hsort] at hd₁ hkept₁ htree₁ hlist₁ hpass₁
  refine ⟨⟨hd₁, htree₁, ?_⟩, hlist₁⟩
  rw [hpass₁]
  exact hkept₁

omit hlook in
/-- A pass keeps what is kept by looking up and showing. -/
theorem DevsKept.showEntriesRb {o : Opts} {find : Find} {force : Bool} {s : PipeState}
    (h : DevsKept Fits P s)
    (hlook : ∀ devices cache past dev, Fits dev → DevsOk devices → CacheOk devices cache →
      P devices past → P (lookDev devices cache dev).1 past)
    (hshow : ∀ devices i pdi' past t rest, Fits t.bit.device → DevsOk devices →
      slotOf devices t.bit.device = some i →
      Passes find (devAt devices i) pdi' (t :: rest) t.bit force →
      P devices past → P (devices.set i (pdi'.show o t.bit)) (past ++ [t.bit])) :
    DevsKept Fits P (Blkparse.showEntriesRb o find force s) := by
  obtain ⟨done, hts, -⟩ := showLoop_split o find force s.rbSort none s
  obtain ⟨hd, hkept⟩ := @showLoop_induction o find force P s.rbSort none s (shownAll s.passes)
    (fun devices cache past t ht hd hc hP =>
      hlook devices cache past t.bit.device (h.fits t ht) hd hc hP)
    (fun devices i pdi' past t rest ht hd hslot hpass hP =>
      hshow devices i pdi' past t rest (h.fits t ht) hd hslot hpass hP)
    h.devs (CacheOk.none _) h.kept
  rw [Blkparse.showEntriesRb]
  refine ⟨hd, fun t ht => h.fits t ?_, ?_⟩
  · rw [hts]
    exact List.mem_append_right _ ht
  · rw [shownAll_concat]
    exact hkept

variable {o : Opts} {find : Find}
  (hshow : ∀ devices i pdi' past t rest, Fits t.bit.device → DevsOk devices →
    slotOf devices t.bit.device = some i →
    Passes find (devAt devices i) pdi' (t :: rest) t.bit false →
    P devices past → P (devices.set i (pdi'.show o t.bit)) (past ++ [t.bit]))

include hshow

theorem pipeLoop_devices {names : Nat} {input : List (Option BlkIoTrace)}
    (hinput : Fit Fits input)
    (hinit : P (List.replicate names {}) []) :
    DevsKept Fits P (pipeLoop o find (input.length + 1) input (.init names)) := by
  refine pipeLoop_induction
    (P := fun input' s => Fit Fits input' ∧ s.traceList = [] ∧ DevsKept Fits P s)
    (Q := DevsKept Fits P) ?_ ?_ (Nat.lt_succ_self _) ⟨hinput, rfl, ?_⟩
  · intro input' s s' rest ⟨hin, hlist, h⟩ heq
    have hnew := h.readEvents (o := o) hlook hin hlist
    rw [heq] at hnew
    exact hnew.1
  · intro input' s s' events rest s₁ youngest ⟨hin, hlist, h⟩ heq _ hsort
    have hrest := (readEvents_rest o input' 0 none s).1
    rw [heq] at hrest
    obtain ⟨hs₁, hlist₁⟩ := h.turn hlook hin hlist heq hsort
    refine ⟨fun _ => hs₁, fun _ => ⟨hin.suffix hrest, ?_, hs₁.showEntriesRb hlook hshow⟩⟩
    rw [showEntriesRb, showLoop_frame]
    exact hlist₁
  · exact ⟨DevsOk.init names, by simp [PipeState.init], hinit⟩

end Devices

/-- **What is kept of the devices in a run**: by looking up a device, and by showing a record, in a
forced pass or not. -/
theorem doPipe_devices {Fits : UInt32 → Prop} {P : List PerDevInfo → List BlkIoTrace → Prop}
    {o : Opts} {find : Find} {names : Nat} {input : List (Option BlkIoTrace)}
    (hlook : ∀ devices cache past dev, Fits dev → DevsOk devices → CacheOk devices cache →
      P devices past → P (lookDev devices cache dev).1 past)
    (hshow : ∀ force devices i pdi' past t rest, Fits t.bit.device → DevsOk devices →
      slotOf devices t.bit.device = some i →
      Passes find (devAt devices i) pdi' (t :: rest) t.bit force →
      P devices past → P (devices.set i (pdi'.show o t.bit)) (past ++ [t.bit]))
    (hinput : Fit Fits input)
    (hinit : P (List.replicate names {}) []) :
    P (doPipe o find names input).devices (shownAll (doPipe o find names input).passes) := by
  have h := pipeLoop_devices hlook (hshow false) hinput hinit
  rw [doPipe]
  split
  · exact h.kept
  · exact (h.showEntriesRb hlook (hshow true)).kept

/-! ## Valid records -/

/-- The records of a pipe as the host reads them. -/
def hostRecords (native : Bool) (input : List (Option BlkIoTrace)) : List BlkIoTrace :=
  (input.filterMap id).map (traceToCpu native)

/-- Those that are put into the tree. -/
def pipeRecords (native : Bool) (input : List (Option BlkIoTrace)) : List BlkIoTrace :=
  (hostRecords native input).filter fun bit => !bit.isNotify

/-- Every record of the pipe is valid, in one byte order. -/
def ValidPipe (native : Bool) (input : List (Option BlkIoTrace)) : Prop :=
  ∀ raw, some raw ∈ input → verifyTrace (traceToCpu native raw) = false

/-- What a call of `read_events` that takes the records `taken` makes of the state. -/
structure Reads (o : Opts) (native : Bool) (s : PipeState) (events : Nat)
    (input : List (Option BlkIoTrace)) (taken : List BlkIoTrace)
    (r : PipeState × Nat × List (Option BlkIoTrace)) : Prop where
  input : hostRecords native input = taken ++ hostRecords native r.2.2
  list : r.1.traceList.map Trace.bit =
    (taken.filter fun bit => !bit.isNotify).reverse ++ s.traceList.map Trace.bit
  events : r.2.1 = events + (taken.filter fun bit => !bit.isNotify).length
  clock : r.1.clock = taken.foldl (fun c bit => c.notify native bit) s.clock
  native : r.1.native = none ∨ r.1.native = some native
  all : r.2.1 = 0 → 0 < o.rbBatch → r.2.2 = []

theorem isNotify_of_timestamp {bit : BlkIoTrace} (h : bit.action = blkTnTimestamp) :
    bit.isNotify = true := by
  rw [BlkIoTrace.isNotify, BlkIoTrace.hasTc, BlkIoTrace.isMessage, h]
  decide

/-- The clock only hears notifies. -/
theorem notify_of_not_isNotify {bit : BlkIoTrace} (h : bit.isNotify = false) (c : Clock)
    (native : Bool) : c.notify native bit = c := by
  rw [Clock.notify, if_neg]
  intro hts
  rw [isNotify_of_timestamp hts] at h
  cases h

/-- **A batch of valid records** is the next records of the pipe, in order. -/
theorem readEvents_valid {o : Opts} {native : Bool} {input : List (Option BlkIoTrace)}
    (hv : ValidPipe native input) {events : Nat} {pdi : Option Nat} {s : PipeState}
    (hn : s.native = none ∨ s.native = some native) :
    ∃ taken, Reads o native s events input taken (readEvents o input events pdi s) := by
  induction input generalizing events pdi s with
  | nil => exact ⟨[], rfl, rfl, rfl, rfl, hn, fun _ _ => rfl⟩
  | cons item rest ih =>
    have hvrest : ValidPipe native rest := fun raw hmem => hv raw (List.mem_cons_of_mem _ hmem)
    cases item with
    | none =>
      rw [readEvents]
      split
      · split
        · obtain ⟨taken, h⟩ := @ih hvrest events pdi s hn
          exact ⟨taken, h.input, h.list, h.events, h.clock, h.native, h.all⟩
        case isFalse hev => exact ⟨[], rfl, rfl, rfl, rfl, hn, fun h => absurd h hev⟩
      case isFalse hlt =>
        refine ⟨[], rfl, rfl, rfl, rfl, hn, fun (h : events = 0) hpos => ?_⟩
        rw [h] at hlt
        exact absurd hpos hlt
    | some raw =>
      have hraw := hv raw List.mem_cons_self
      have hhost : hostRecords native (some raw :: rest)
          = traceToCpu native raw :: hostRecords native rest := rfl
      rw [readEvents]
      split
      case isFalse hlt =>
        refine ⟨[], rfl, rfl, rfl, rfl, hn, fun (h : events = 0) hpos => ?_⟩
        rw [h] at hlt
        exact absurd hpos hlt
      case isTrue =>
        have hlook : lookNative s.native raw.magic = some native := by
          rcases hn with h | h
          · rw [h]
            exact checkDataEndianness_of_valid hraw
          · rw [h]
            rfl
        simp only [hlook, checkMagic_of_valid hraw, hraw, Bool.not_true, Bool.false_eq_true, if_false]
        split
        case isTrue hnot =>
          obtain ⟨taken, h⟩ := @ih hvrest events pdi
            (({ s with native := some native } : PipeState).notify native (traceToCpu native raw))
            (Or.inr rfl)
          refine ⟨traceToCpu native raw :: taken, ?_, ?_, ?_, h.clock, h.native, h.all⟩
          · rw [hhost, h.input, List.cons_append]
          · rw [h.list, List.filter_cons_of_neg (by simp [hnot])]
            rfl
          · rw [h.events, List.filter_cons_of_neg (by simp [hnot])]
        case isFalse hnot =>
          have hnot' : (traceToCpu native raw).isNotify = false := by simpa using hnot
          obtain ⟨taken, h⟩ := @ih hvrest (events + 1)
            (some (lookDev s.devices pdi (traceToCpu native raw).device).2)
            { s with
              native := some native
              devices := (lookDev s.devices pdi (traceToCpu native raw).device).1
              traceList := ⟨traceToCpu native raw, s.readSequence⟩ :: s.traceList } (Or.inr rfl)
          refine ⟨traceToCpu native raw :: taken, ?_, ?_, ?_, ?_, h.native, h.all⟩
          · rw [hhost, h.input, List.cons_append]
          · rw [h.list, List.filter_cons_of_pos (by simp [hnot'])]
            simp
          · rw [h.events, List.filter_cons_of_pos (by simp [hnot']), List.length_cons]
            omega
          · rw [h.clock, List.foldl_cons, notify_of_not_isNotify hnot']

/-- The youngest entry of a batch, as `sort_entries` returns it. -/
def Batch.youngest (b : Batch) : UInt64 :=
  (b.raw.map fun bit => (relative b.genesis bit).time).foldl younger 0

/-- The batches so far and the rest of the pipe are all of it. -/
structure ReadSoFar (native : Bool) (input rest : List (Option BlkIoTrace)) (s : PipeState) :
    Prop where
  valid : ValidPipe native rest
  byteOrder : s.native = none ∨ s.native = some native
  records : pipeRecords native input =
    s.batches.flatMap (fun b => b.raw.reverse) ++ pipeRecords native rest
  nonempty : ∀ b ∈ s.batches, b.raw ≠ []

/-- A call of `read_events` that returns nothing. -/
theorem ReadSoFar.read_none {o : Opts} {native : Bool} {input rest rest' : List (Option BlkIoTrace)}
    {s s' : PipeState} (h : ReadSoFar native input rest s)
    (hread : readEvents o rest 0 none s = (s', 0, rest')) :
    ReadSoFar native input rest' s' ∧ (0 < o.rbBatch → rest' = []) := by
  obtain ⟨taken, ht⟩ := @readEvents_valid o native rest h.valid 0 none s h.byteOrder
  obtain ⟨hframe, -⟩ := readEvents_frame o rest 0 none s
  have hsuf := (readEvents_rest o rest 0 none s).1
  rw [hread] at ht hframe hsuf
  have hnil : taken.filter (fun bit => !bit.isNotify) = [] :=
    List.length_eq_zero_iff.mp (by simpa using ht.events.symm)
  have hbat := congrArg PipeState.batches hframe
  refine ⟨⟨fun raw hmem => h.valid raw (hsuf.subset hmem), ht.native, ?_, ?_⟩, ht.all rfl⟩
  · rw [h.records, hbat, pipeRecords, ht.input, List.filter_append, hnil]
    rfl
  · rw [hbat]
    exact h.nonempty

/-- A batch read and sorted. -/
theorem ReadSoFar.sort {o : Opts} {native : Bool} {input rest rest' : List (Option BlkIoTrace)}
    {s s' s₁ : PipeState} {events : Nat} {youngest : UInt64} (h : ReadSoFar native input rest s)
    (hlist : s.traceList = []) (hread : readEvents o rest 0 none s = (s', events, rest'))
    (hpos : 0 < events)
    (hsort : sortEntries o { s' with readSequence := s'.readSequence + 1 } = (s₁, youngest)) :
    ReadSoFar native input rest' s₁ ∧ s₁.traceList = [] ∧
      ∃ b, s₁.batches = s.batches ++ [b] ∧ youngest = b.youngest ∧
        b.raw = s'.traceList.map Trace.bit ∧
        b.genesis = originOf s'.genesisTime s'.traceList := by
  obtain ⟨taken, ht⟩ := @readEvents_valid o native rest h.valid 0 none s h.byteOrder
  obtain ⟨hframe, -⟩ := readEvents_frame o rest 0 none s
  have hsuf := (readEvents_rest o rest 0 none s).1
  obtain ⟨hsframe, hyoung⟩ := sortEntries_frame o { s' with readSequence := s'.readSequence + 1 }
  rw [hread] at ht hframe hsuf
  rw [hsort] at hsframe hyoung
  have hraw : s'.traceList.map Trace.bit = (taken.filter fun bit => !bit.isNotify).reverse := by
    rw [ht.list, hlist]
    exact List.append_nil _
  have hbat := congrArg PipeState.batches hframe
  have hnew := congrArg PipeState.batches hsframe
  dsimp only at hnew hyoung
  refine ⟨⟨fun raw hmem => h.valid raw (hsuf.subset hmem), ?_, ?_, ?_⟩,
    congrArg PipeState.traceList hsframe, _, hbat ▸ hnew, ?_, rfl, rfl⟩
  · have horder := congrArg PipeState.native hsframe
    dsimp only at horder
    rw [horder]
    exact ht.native
  · rw [h.records, pipeRecords, ht.input, List.filter_append, hnew, hbat, hraw]
    simp [pipeRecords]
  · rw [hnew, hbat]
    refine List.forall_mem_append.mpr ⟨h.nonempty, List.forall_mem_singleton.mpr ?_⟩
    -- the batch has an event
    intro hnil
    rw [hraw, List.reverse_eq_nil_iff] at hnil
    have hev := ht.events
    rw [hnil] at hev
    exact absurd hev (Nat.ne_of_gt hpos)
  · rw [Batch.youngest, List.map_map]
    exact hyoung

theorem ReadSoFar.show {o : Opts} {find : Find} {native : Bool}
    {input rest : List (Option BlkIoTrace)} {s : PipeState} (h : ReadSoFar native input rest s) :
    ReadSoFar native input rest (showEntriesRb o find false s) := by
  rw [showEntriesRb, showLoop_frame]
  exact ⟨h.valid, h.byteOrder, h.records, h.nonempty⟩

/-- The loop of `do_pipe` ends where the pipe does, or where a batch is past the stopwatch. -/
theorem pipeLoop_read {o : Opts} {find : Find} {native : Bool} {names : Nat}
    {input : List (Option BlkIoTrace)} (hv : ValidPipe native input) :
    ∃ rest, ReadSoFar native input rest
        (pipeLoop o find (input.length + 1) input (.init names)) ∧
      (0 < o.rbBatch → rest = [] ∨
        ∃ b, (pipeLoop o find (input.length + 1) input (.init names)).batches.getLast?
          = some b ∧ o.stopwatchEnd < b.youngest) := by
  refine pipeLoop_induction
    (P := fun rest s => ReadSoFar native input rest s ∧ s.traceList = [])
    (Q := fun s => ∃ rest, ReadSoFar native input rest s ∧
      (0 < o.rbBatch → rest = [] ∨
        ∃ b, s.batches.getLast? = some b ∧ o.stopwatchEnd < b.youngest))
    ?_ ?_ (Nat.lt_succ_self _) ⟨⟨hv, Or.inl rfl, rfl, by simp [PipeState.init]⟩, rfl⟩
  · intro rest s s' rest' ⟨h, hlist⟩ hread
    obtain ⟨h', hall⟩ := h.read_none hread
    exact ⟨rest', h', fun hbatch => Or.inl (hall hbatch)⟩
  · intro rest s s' events rest' s₁ youngest ⟨h, hlist⟩ hread hpos hsort
    obtain ⟨h₁, hlist₁, b, hb, hyoung, -, -⟩ := h.sort hlist hread hpos hsort
    refine ⟨fun hpast => ⟨rest', h₁, fun _ => Or.inr ⟨b, ?_, hyoung ▸ hpast⟩⟩,
      fun _ => ⟨h₁.show, ?_⟩⟩
    · rw [hb, List.getLast?_concat]
    · rw [showEntriesRb, showLoop_frame]
      exact hlist₁

/-- The forced pass sorts no batch. -/
theorem doPipe_batches (o : Opts) (find : Find) (names : Nat) (input : List (Option BlkIoTrace)) :
    (doPipe o find names input).batches
      = (pipeLoop o find (input.length + 1) input (.init names)).batches := by
  rw [doPipe]
  split
  · rfl
  · rw [showEntriesRb, showLoop_frame]

section Reading

variable {o : Opts} {find : Find} {names : Nat} {native : Bool} {input : List (Option BlkIoTrace)}
  {K : PipeState → List BlkIoTrace → Prop}

/-- **The rule of a run over valid records**: what is kept of the state and the records read so far. All of
them are read in the end, unless a batch is past the stopwatch. -/
theorem doPipe_reading (hv : ValidPipe native input) (hinit : K (.init names) [])
    (hread : ∀ s read taken rest, K s read → Reads o native s 0 rest taken (readEvents o rest 0 none s) →
      K (readEvents o rest 0 none s).1 (read ++ taken))
    (hsort : ∀ s read n, K s read → (∀ t ∈ s.traceList, t.bit ∈ hostRecords native input) →
      K (sortEntries o { s with readSequence := n }).1 read)
    (hshow : ∀ s read force, K s read → K (showEntriesRb o find force s) read) :
    ∃ read unread, hostRecords native input = read ++ unread ∧ K (doPipe o find names input) read ∧
      (0 < o.rbBatch → unread = [] ∨ ∃ youngest, o.stopwatchEnd < youngest) := by
  have hloop : ∃ read unread, hostRecords native input = read ++ unread ∧
      K (pipeLoop o find (input.length + 1) input (.init names)) read ∧
      (0 < o.rbBatch → unread = [] ∨ ∃ youngest, o.stopwatchEnd < youngest) := by
    refine pipeLoop_induction
      (P := fun rest s => ValidPipe native rest ∧ (s.native = none ∨ s.native = some native) ∧
        s.traceList = [] ∧ ∃ read, hostRecords native input = read ++ hostRecords native rest ∧ K s read)
      (Q := fun s => ∃ read unread, hostRecords native input = read ++ unread ∧ K s read ∧
        (0 < o.rbBatch → unread = [] ∨ ∃ youngest, o.stopwatchEnd < youngest))
      ?_ ?_ (Nat.lt_succ_self _) ⟨hv, Or.inl rfl, rfl, [], rfl, hinit⟩
    · intro rest s s' rest' ⟨hvalid, horder, hlist, read, hall, hkept⟩ hnone
      obtain ⟨taken, ht⟩ := @readEvents_valid o native rest hvalid 0 none s horder
      have hkept' := hread s read taken rest hkept ht
      rw [hnone] at ht hkept'
      refine ⟨read ++ taken, hostRecords native rest', ?_, hkept', fun hbatch => Or.inl ?_⟩
      · rw [hall, ht.input, List.append_assoc]
      · rw [show rest' = [] from ht.all rfl hbatch]
        rfl
    · intro rest s s' events rest' s₁ youngest ⟨hvalid, horder, hlist, read, hall, hkept⟩ hsome _ hsorted
      obtain ⟨taken, ht⟩ := @readEvents_valid o native rest hvalid 0 none s horder
      have hsuf := (readEvents_rest o rest 0 none s).1
      have hkept' := hread s read taken rest hkept ht
      rw [hsome] at ht hkept' hsuf
      have hall' : hostRecords native input = read ++ taken ++ hostRecords native rest' := by
        rw [hall, ht.input, List.append_assoc]
      have hmem : ∀ t ∈ s'.traceList, t.bit ∈ hostRecords native input := by
        intro t hmem
        have hbit : t.bit ∈ s'.traceList.map Trace.bit := List.mem_map_of_mem hmem
        rw [ht.list, hlist, List.map_nil, List.append_nil, List.mem_reverse] at hbit
        rw [hall']
        exact List.mem_append_left _ (List.mem_append_right _ (List.mem_of_mem_filter hbit))
      have hkept₁ := hsort s' (read ++ taken) (s'.readSequence + 1) hkept' hmem
      have hframe := (sortEntries_frame o { s' with readSequence := s'.readSequence + 1 }).1
      rw [hsorted] at hkept₁ hframe
      have hsame := congrArg PipeState.native hframe
      have hempty : s₁.traceList = [] := congrArg PipeState.traceList hframe
      refine ⟨fun hpast => ⟨_, _, hall', hkept₁, fun _ => Or.inr ⟨youngest, hpast⟩⟩, fun _ =>
        ⟨fun raw hraw => hvalid raw (hsuf.subset hraw), ?_, ?_, _, hall', hshow s₁ _ false hkept₁⟩⟩
      · rw [showEntriesRb, showLoop_frame]
        dsimp only at hsame ⊢
        rw [hsame]
        exact ht.native
      · rw [showEntriesRb, showLoop_frame]
        exact hempty
  obtain ⟨read, unread, hall, hkept, hrest⟩ := hloop
  refine ⟨read, unread, hall, ?_, hrest⟩
  rw [doPipe]
  split
  · exact hkept
  · exact hshow _ read true hkept

end Reading

end Blktrace.Blkparse
