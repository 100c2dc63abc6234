import Blktrace.Lib.Sides
import Blktrace.Tracer.Reframe
import Blktrace.Blkparse.PipeOrder
import Blktrace.Blkparse.Reread
import Blktrace.Blkparse.Descriptor

/-!
# Live tracing

`btrace` pipes `blktrace -o-` into `blkparse -i-`. The one writes what is whole of the bytes of each CPU, the
other takes records out of the bytes of the pipe, and neither knows how the other reads. Each record goes
through once, as soon as it is whole.
-/

namespace Blktrace.Tracer

/-! ## Traces and records -/

theorem fileOf_append (big : Bool) (ts us : List BlkIoTrace) :
    fileOf big (ts ++ us) = fileOf big ts ++ fileOf big us := List.flatMap_append

theorem fileOf_mono (big : Bool) {us ts : List BlkIoTrace} (h : us <+: ts) :
    fileOf big us <+: fileOf big ts := by
  obtain ⟨more, rfl⟩ := h
  exact ⟨fileOf big more, (fileOf_append big us more).symm⟩

/-- Complete records are found again in what they are written in front of. -/
theorem prefix_of_fileOf {native : Bool} {us ts : List BlkIoTrace} (hus : ∀ u ∈ us, u.Complete)
    (hts : ∀ t ∈ ts, t.Complete) (h : fileOf (!native) us <+: fileOf (!native) ts) : us <+: ts := by
  induction us generalizing ts with
  | nil => exact List.nil_prefix
  | cons u us ih =>
    obtain ⟨hu, hus⟩ := List.forall_mem_cons.mp hus
    obtain ⟨rest, hrest⟩ := h
    cases ts with
    | nil =>
      have hlength := congrArg List.length hrest
      rw [fileOf_cons, List.length_append, List.length_append, length_image, fileOf_nil,
        List.length_nil] at hlength
      have hsize : 0 < traceSize := by decide
      omega
    | cons t ts =>
      obtain ⟨ht, htail⟩ := List.forall_mem_cons.mp hts
      rw [fileOf_cons, fileOf_cons, List.append_assoc] at hrest
      have hsame : u = t := by
        have hfirst := congrArg (recordAt native) hrest
        rwa [recordAt_image native hu, recordAt_image native ht] at hfirst
      subst hsame
      exact List.cons_prefix_cons.mpr ⟨rfl, ih hus htail ⟨rest, List.append_cancel_left hrest⟩⟩

/-- Whole traces are records, one behind another. -/
theorem records_of_whole {n : ℕ} {bs : List UInt8} (h : traces.Whole n bs) :
    ∃ ts, fileOf false ts = bs ∧ ∀ t ∈ ts, t.Complete := by
  induction h with
  | nil => exact ⟨[], rfl, fun _ ht => absurd ht List.not_mem_nil⟩
  | @cons n f bs hf _ ih =>
    obtain ⟨ts, hts, hall⟩ := ih
    have hsize : recordSize true f = f.length := hf
    have himage : (recordAt true f).image false = f := by
      have htake := @image_recordAt true f hsize.le
      rwa [hsize, List.take_length] at htake
    refine ⟨recordAt true f :: ts, ?_, List.forall_mem_cons.mpr ⟨complete_recordAt hsize.le, hall⟩⟩
    rw [fileOf_cons, himage, hts]

/-- Complete records are whole traces. -/
theorem whole_fileOf {ts : List BlkIoTrace} (h : ∀ t ∈ ts, t.Complete) :
    traces.Whole ts.length (fileOf false ts) := by
  induction ts with
  | nil => exact .nil
  | cons t ts ih =>
    obtain ⟨ht, hts⟩ := List.forall_mem_cons.mp h
    have hframe := recordSize_image true ht []
    rw [List.append_nil] at hframe
    exact .cons hframe (ih hts)

/-! ## What is written -/

section Written

open Runs

variable {κ : Type*} [DecidableEq κ]

/-- Writes of whole traces are writes of records, those of a stream in the order of the stream. -/
theorem records_of_written {written : List (κ × List UInt8)}
    (h : ∀ w ∈ written, ∃ n, traces.Whole n w.2) :
    ∃ tagged : List (κ × BlkIoTrace), fileOf false (tagged.map Prod.snd) = written.flatMap Prod.snd ∧
      (∀ k, fileOf false (own k tagged) = ((written.filter fun w => w.1 = k).map Prod.snd).flatten) ∧
      ∀ t ∈ tagged, t.2.Complete := by
  induction written with
  | nil => exact ⟨[], rfl, fun _ => rfl, fun _ ht => absurd ht List.not_mem_nil⟩
  | cons w written ih =>
    obtain ⟨⟨n, hw⟩, hwritten⟩ := List.forall_mem_cons.mp h
    obtain ⟨tagged, hbytes, hstreams, hall⟩ := ih hwritten
    obtain ⟨ts, hts, hcomplete⟩ := records_of_whole hw
    refine ⟨ts.map (Prod.mk w.1) ++ tagged, ?_, fun k => ?_, fun t ht => ?_⟩
    · have hrecords : (ts.map (Prod.mk w.1)).map Prod.snd = ts := by simp [Function.comp_def]
      rw [List.map_append, hrecords, fileOf_append, hts, hbytes, List.flatMap_cons]
    · rw [own_append, own_map, fileOf_append, hstreams]
      by_cases hk : w.1 = k <;> simp [hk, hts]
    · rcases List.mem_append.mp ht with hnew | hold
      · obtain ⟨u, hu, rfl⟩ := List.mem_map.mp hnew
        exact hcomplete u hu
      · exact hall t hold

/-- **What goes into the pipe** is records: of each stream those that have come whole. -/
theorem handleLists_records {bufSize : ℕ} {fails : ℕ → Bool} (hok : ∀ m, fails m = false)
    (calls : List (κ × List TraceBuf)) (hread : ∀ call ∈ calls, ∀ tbp ∈ call.2, Read bufSize tbp)
    {streams : κ → List BlkIoTrace} (hcomplete : ∀ k, ∀ t ∈ streams k, t.Complete)
    (hcalls : ∀ k, delivered calls k <+: fileOf false (streams k)) :
    ∃ s tagged, handleLists bufSize fails calls {} = some s ∧
      fileOf false (tagged.map Prod.snd) = s.written.flatMap Prod.snd ∧
      ∀ k ts, ts <+: own k tagged ↔ ts <+: streams k ∧ fileOf false ts <+: delivered calls k := by
  obtain ⟨s, hrun, hr⟩ := handleLists_spec hok calls hread (fun k => reframed_init bufSize k)
  have hwritten : ∀ w ∈ s.written, ∃ n, traces.Whole n w.2 := by
    intro w hw
    have hmem : w.2 ∈ s.out w.1 := List.mem_map_of_mem (List.mem_filter.mpr ⟨hw, by simp⟩)
    obtain ⟨n, -, hn⟩ := (hr w.1).writes w.2 hmem
    exact ⟨n, hn⟩
  obtain ⟨tagged, hbytes, hstreams, hall⟩ := records_of_written hwritten
  refine ⟨s, tagged, hrun, hbytes, fun k ts => ?_⟩
  have hk := hr k
  rw [List.nil_append] at hk
  have hout : fileOf false (own k tagged) = (s.out k).flatten := hstreams k
  have hdelivered : fileOf false (own k tagged) <+: delivered calls k := by
    rw [hout, ← hk.bytes]
    exact List.prefix_append _ _
  have hrecords : own k tagged <+: streams k := by
    refine @prefix_of_fileOf true _ _ (fun t ht => ?_) (hcomplete k) (hdelivered.trans (hcalls k))
    obtain ⟨u, hu, rfl⟩ := List.mem_map.mp ht
    exact hall u (List.mem_of_mem_filter hu)
  constructor
  · intro hts
    exact ⟨hts.trans hrecords, (fileOf_mono false hts).trans hdelivered⟩
  · rintro ⟨hts, hcome⟩
    -- the records written are the longest prefix of whole traces
    have hlongest := hk.whole.longest hk.short
    rw [hk.bytes] at hlongest
    have hle := (hlongest.longest _ _ hcome (whole_fileOf fun t ht => hcomplete k t (hts.subset ht))).1
    rcases List.prefix_or_prefix_of_prefix hts hrecords with hfront | ⟨more, rfl⟩
    · exact hfront
    · rw [← hout, fileOf_append, List.length_append] at hle
      have hmore := length_fileOf false more
      have hnil : more = [] := List.length_eq_zero_iff.mp (by omega)
      rw [hnil, List.append_nil]

end Written

end Blktrace.Tracer

namespace Blktrace.Blkparse

/-! ## What is read -/

/-- How far a run over a pipe is. -/
structure Following (native : Bool) (input rest : List (Option BlkIoTrace)) (s : PipeState) : Prop
    extends ReadSoFar native input rest s where
  list : s.traceList = []
  heard : notified s.events ++ toHear native rest = toHear native input

/-- A run has taken all of these records: the notifies are heard as they come, the others are put in batches
as they come, and what the stopwatch and the mask let through is dumped once, with its time since the origin
of its batch. -/
structure TookAll (o : Opts) (native : Bool) (bits : List BlkIoTrace) (s : PipeState) : Prop where
  heard : notified s.events = (bits.filter BlkIoTrace.isNotify).map (Prod.mk native)
  batches : s.batches.flatMap (fun b => b.raw.reverse) = sortable bits
  dumped : (dumps s.events).Perm ((s.batches.flatMap fun b => b.raw.map (relative b.genesis)).filter
    fun bit => o.masks bit && !checkStopwatch o bit)

theorem Following.turn {o : Opts} {find : Find} {native : Bool} {input rest rest' : List (Option BlkIoTrace)}
    {s s' s₁ : PipeState} {events : Nat} {youngest : UInt64} (h : Following native input rest s)
    (hread : readEvents o rest 0 none s = (s', events, rest')) (hpos : 0 < events)
    (hsort : sortEntries o { s' with readSequence := s'.readSequence + 1 } = (s₁, youngest)) :
    Following native input rest' (showEntriesRb o find false s₁) := by
  obtain ⟨h₁, hlist₁, -⟩ := h.toReadSoFar.sort h.list hread hpos hsort
  have hheard := @readEvents_heard o native rest h.valid 0 none s h.byteOrder
  have hframe := congrArg PipeState.events (sortEntries_frame o { s' with readSequence := s'.readSequence + 1 }).1
  rw [hread, h.heard] at hheard
  rw [hsort] at hframe
  refine { toReadSoFar := h₁.show, list := ?_, heard := ?_ }
  · rw [showEntriesRb, showLoop_frame]
    exact hlist₁
  · rw [notified_showEntriesRb]
    dsimp only at hframe
    rw [hframe]
    exact hheard

/-- **Without an end of the stopwatch all valid records are taken.** -/
theorem doPipe_tookAll {o : Opts} (hbatch : 0 < o.rbBatch) (hstop : o.stopwatchEnd = 0xffffffffffffffff)
    (find : Find) (names : Nat) {native : Bool} {input : List (Option BlkIoTrace)}
    (hv : ValidPipe native input) :
    TookAll o native (hostRecords native input) (doPipe o find names input) := by
  have hloop : notified (pipeLoop o find (input.length + 1) input (.init names)).events = toHear native input ∧
      (pipeLoop o find (input.length + 1) input (.init names)).batches.flatMap (fun b => b.raw.reverse) =
        pipeRecords native input := by
    refine pipeLoop_induction (P := Following native input)
      (Q := fun s => notified s.events = toHear native input ∧
        s.batches.flatMap (fun b => b.raw.reverse) = pipeRecords native input)
      ?_ ?_ (Nat.lt_succ_self _) ⟨⟨hv, Or.inl rfl, rfl, by simp [PipeState.init]⟩, rfl, rfl⟩
    · intro rest s s' rest' h hread
      obtain ⟨h', hall⟩ := h.toReadSoFar.read_none hread
      have hheard := @readEvents_heard o native rest h.valid 0 none s h.byteOrder
      have hrecords := h'.records
      rw [hread, h.heard] at hheard
      rw [hall hbatch] at hheard hrecords
      exact ⟨(List.append_nil _).symm.trans hheard, (List.append_nil _).symm.trans hrecords.symm⟩
    · intro rest s s' events rest' s₁ youngest h hread hpos hsort
      refine ⟨fun hpast => ?_, fun _ => h.turn hread hpos hsort⟩
      rw [hstop] at hpast
      exact absurd hpast (not_lt.mpr (Word.le_max _))
  obtain ⟨hheard, hbatches⟩ := hloop
  have hshows := (doPipe_tree o find names input).1
  refine ⟨?_, ?_, ?_⟩
  · rw [doPipe]
    split_ifs
    · exact hheard
    · rw [notified_showEntriesRb]
      exact hheard
  · rw [doPipe_batches]
    exact hbatches
  · rw [hshows.dumped]
    refine (hshows.once.filter _).trans (List.Perm.of_eq ?_)
    rw [hshows.stored, List.filter_flatMap, List.filter_flatMap]
    simp only [List.filter_filter]

end Blktrace.Blkparse

namespace Blktrace

open Runs Tracer Blkparse

variable {κ : Type*} [DecidableEq κ]

/-- **Live tracing.** The records of each CPU that have come whole are what `blkparse` takes, each once and in
the order of the CPU, however they were cut into buffers and however the pipe hands them on. -/
theorem live_tracing {bufSize : ℕ} {fails : ℕ → Bool} (hok : ∀ m, fails m = false)
    (calls : List (κ × List TraceBuf)) (hread : ∀ call ∈ calls, ∀ tbp ∈ call.2, Read bufSize tbp)
    {streams : κ → List BlkIoTrace} (hwhole : ∀ k, ∀ t ∈ streams k, Whole t)
    (hcalls : ∀ k, delivered calls k <+: fileOf false (streams k)) {o : Opts} (hbatch : 0 < o.rbBatch)
    (hstop : o.stopwatchEnd = 0xffffffffffffffff) (find : Find) (names : ℕ) :
    ∃ s tagged, handleLists bufSize fails calls {} = some s ∧
      (∀ k ts, ts <+: own k tagged ↔ ts <+: streams k ∧ fileOf false ts <+: delivered calls k) ∧
      ∀ as : Arrivals UInt8, as.Proper → as.all = s.written.flatMap Prod.snd →
        TookAll o true (tagged.map Prod.snd) (Fd.doPipe o find names as) := by
  obtain ⟨s, tagged, hrun, hbytes, hstreams⟩ :=
    handleLists_records hok calls hread (fun k t ht => (hwhole k t ht).complete) hcalls
  refine ⟨s, tagged, hrun, hstreams, fun as hproper hall => ?_⟩
  have hrecords : ∀ t ∈ tagged.map Prod.snd, Whole t := by
    intro t ht
    obtain ⟨⟨k, t⟩, hmem, rfl⟩ := List.mem_map.mp ht
    have hfront := ((hstreams k _).mp (List.prefix_refl _)).1
    exact hwhole k t (hfront.subset (List.mem_map.mpr ⟨(k, t), List.mem_filter.mpr ⟨hmem, by simp⟩, rfl⟩))
  have hbare : as.all = fileOf (!true) (tagged.map Prod.snd) ++ [] := by
    rw [hall, ← hbytes, List.append_nil]
    rfl
  have hsize : ([] : List UInt8).length < traceSize := by decide
  have hknown : Admits none true := by simp [Admits]
  obtain ⟨input, hcarries, hvalid, hhost⟩ :=
    Fd.carries_fileOf hknown hproper hbare hrecords (.inl hsize) (.inl hsize)
  rw [Fd.doPipe_carries o find names hcarries, ← hhost]
  exact doPipe_tookAll hbatch hstop find names hvalid

/-- A record of CPU 0, cut in two by its buffers, and one of CPU 1 between the two. -/
def twoCpus : List (Bool × List TraceBuf) :=
  let bytes := (queueRecord 5 0 1 10).image false
  [(false, [{ buf := bytes.take 20, room := 64 }]),
    (true, [{ buf := (queueRecord 5 1 1 20).image false, room := 64 }]),
    (false, [{ buf := bytes.drop 20, room := 64 }])]

theorem live_tracing_two :
    ∃ s tagged, handleLists 64 (fun _ => false) twoCpus {} = some s ∧
      (∀ k ts, ts <+: own k tagged ↔
        ts <+: [queueRecord 5 (if k then 1 else 0) 1 (if k then 20 else 10)] ∧
          fileOf false ts <+: delivered twoCpus k) ∧
      ∀ as : Arrivals UInt8, as.Proper → as.all = s.written.flatMap Prod.snd →
        TookAll {} true (tagged.map Prod.snd) (Fd.doPipe {} (fun _ _ _ => none) 0 as) := by
  have hread : ∀ call ∈ twoCpus, ∀ tbp ∈ call.2, Read 64 tbp := by
    simp only [twoCpus, List.forall_mem_cons, List.not_mem_nil, false_implies, implies_true, and_true]
    exact ⟨⟨by decide, by decide, rfl⟩, ⟨by decide, by decide, rfl⟩, ⟨by decide, by decide, rfl⟩⟩
  refine live_tracing (fun _ => rfl) twoCpus hread (fun k t ht => ?_) (fun k => ?_) (by decide) rfl _ 0
  · rw [List.mem_singleton.mp ht]
    cases k <;> exact ⟨by decide, by decide⟩
  · cases k <;> decide

end Blktrace
