import Blktrace.Blkparse.Procs
import Blktrace.Blkparse.WallClock

/-!
# What a run hands on

A reader hands on notifies, which are heard as they are read, and records that are dumped. A notify is a valid
record that is not a message; what is dumped is valid and is none, and so it is wherever the record has been
in between: in the list, in the tree, or in the queue of a stream.
-/

namespace Blktrace.Blkparse

/-! ## What a run tells -/

/-- The notifies of a run, each with the byte order it is handled in. -/
def notified (events : List Event) : List (Bool × BlkIoTrace) :=
  events.filterMap fun
    | .notify native bit => some (native, bit)
    | .dump _ _ _ _ => none

@[simp] theorem notified_append (events events' : List Event) :
    notified (events ++ events') = notified events ++ notified events' := List.filterMap_append

@[simp] theorem notified_notify (native : Bool) (bit : BlkIoTrace) :
    notified [.notify native bit] = [(native, bit)] := rfl

@[simp] theorem notified_dump (pdi : Nat) (dev cpu : UInt32) (bit : BlkIoTrace) :
    notified [.dump pdi dev cpu bit] = [] := rfl

/-- The names that the `PROCESS` records give. -/
def namesOf (events : List Event) : List Ppm :=
  ((notified events).foldl (fun p e => p.notify e.2) ({} : Procs)).ppms

/-- `start_timestamp` and `abs_start_time`, as `handle_notify` sets them. -/
def startOf (events : List Event) : Clock :=
  (notified events).foldl (fun c e => c.notify e.1 e.2) {}

/-- `handle_notify` of a message: the text that it prints, up to a zero byte. -/
def messageText (bit : BlkIoTrace) : Option (List UInt8) :=
  if bit.isMessage ∧ 0 < bit.pduLen then some ((bit.pdu.take bit.pduLen.toNat).takeWhile (· != 0))
  else none

/-- The texts of a run, in the order they are printed in. -/
def messageTexts (events : List Event) : List (List UInt8) := (dumps events).filterMap messageText

theorem isNotify_eq_false_of_isMessage {bit : BlkIoTrace} (h : bit.isMessage = true) :
    bit.isNotify = false := by
  rw [BlkIoTrace.isNotify, h, Bool.not_true, Bool.and_false]

theorem messageText_of_isNotify {bit : BlkIoTrace} (h : bit.isNotify = true) : messageText bit = none := by
  apply if_neg
  rintro ⟨hmsg, -⟩
  rw [isNotify_eq_false_of_isMessage hmsg] at h
  exact nomatch h

/-! ## What a reader hands on -/

/-- The calls out of a reader on a trace. -/
inductive Parses : List Event → Prop
  | pipe (o : Opts) (find : Find) (names : Nat) (input : List (Option BlkIoTrace)) :
      Parses (doPipe o find names input).events
  | files {o : Opts} {devs : List (List (List BlkIoTrace))} {s : FileState} :
      doFile o devs = some s → Parses s.events

/-- A valid record that is not handled as it is read. -/
def Queued (bit : BlkIoTrace) : Prop := verifyTrace bit = false ∧ bit.isNotify = false

/-- The record is valid, and handled or dumped as it should be. -/
def Event.Sound : Event → Prop
  | .notify _ bit => verifyTrace bit = false ∧ bit.isNotify = true
  | .dump _ _ _ bit => Queued bit

theorem Queued.relative {bit : BlkIoTrace} (h : Queued bit) (genesis : UInt64) :
    Queued (relative genesis bit) := h

/-- What a run of pipe mode keeps. -/
structure PipeSound (s : PipeState) : Prop where
  events : ∀ e ∈ s.events, e.Sound
  list : ∀ t ∈ s.traceList, Queued t.bit
  tree : ∀ t ∈ s.rbSort, Queued t.bit

theorem PipeSound.readEvents {o : Opts} {s : PipeState} (h : PipeSound s)
    (input : List (Option BlkIoTrace)) : PipeSound (Blkparse.readEvents o input 0 none s).1 := by
  apply readEvents_rule (P := PipeSound)
  · intro s b h
    exact ⟨h.events, h.list, h.tree⟩
  · intro s b bit hvalid hnot h
    exact ⟨List.forall_mem_append.mpr ⟨h.events, List.forall_mem_singleton.mpr ⟨hvalid, hnot⟩⟩,
      h.list, h.tree⟩
  · intro s devices t hvalid hnot h
    exact ⟨h.events, List.forall_mem_cons.mpr ⟨⟨hvalid, hnot⟩, h.list⟩, h.tree⟩
  · exact h

theorem sortLoop_queued {o : Opts} {ts : List Trace} {pdi : Option Nat} {youngest : UInt64}
    {s : PipeState} (hts : ∀ t ∈ ts, Queued t.bit) (h : ∀ t ∈ s.rbSort, Queued t.bit) :
    ∀ t ∈ (sortLoop o ts pdi youngest s).1.rbSort, Queued t.bit := by
  induction ts generalizing pdi youngest s with
  | nil => exact h
  | cons t rest ih =>
    obtain ⟨ht, hrest⟩ := List.forall_mem_cons.mp hts
    rw [sortLoop_cons]
    apply ih hrest
    rw [PipeState.sorted]
    dsimp only
    split
    · exact h
    · intro u hu
      rcases List.mem_cons.mp ((traceRbInsert_perm _ _).mem_iff.mp hu) with rfl | hu
      · exact ht
      · exact h u hu

theorem PipeSound.sortEntries {o : Opts} {s : PipeState} (h : PipeSound s) :
    PipeSound (Blkparse.sortEntries o s).1 := by
  have hframe := (sortEntries_frame o s).1
  have htree : ∀ t ∈ (Blkparse.sortEntries o s).1.rbSort, Queued t.bit := by
    rw [Blkparse.sortEntries]
    split
    · exact sortLoop_queued (s := { findGenesis s with batches := _ }) h.list h.tree
    · exact sortLoop_queued (s := { s with batches := _ }) h.list h.tree
  rw [hframe]
  exact ⟨h.events, List.forall_mem_nil _, htree⟩

theorem showLoop_sound {o : Opts} {find : Find} {force : Bool} {ts : List Trace} {pdi : Option Nat}
    {s : PipeState} (hts : ∀ t ∈ ts, Queued t.bit) (h : ∀ e ∈ s.events, e.Sound) :
    ∀ e ∈ (showLoop o find force ts pdi s).1.events, e.Sound := by
  induction ts generalizing pdi s with
  | nil => exact h
  | cons t rest ih =>
    obtain ⟨ht, hrest⟩ := List.forall_mem_cons.mp hts
    rcases showLoop_cons o find force t rest pdi s with ⟨devices, -, -, heq⟩ | ⟨devices, i, pdi', -, -, heq⟩
    · rw [heq]
      exact h
    · rw [heq]
      apply ih hrest
      rw [PipeState.shown]
      dsimp only
      split
      · exact List.forall_mem_append.mpr ⟨h, List.forall_mem_singleton.mpr ht⟩
      · exact h

theorem PipeSound.showEntriesRb {o : Opts} {find : Find} {force : Bool} {s : PipeState} (h : PipeSound s) :
    PipeSound (Blkparse.showEntriesRb o find force s) := by
  have hevents := @showLoop_sound o find force s.rbSort none s h.tree h.events
  obtain ⟨done, hsplit, -⟩ := showLoop_split o find force s.rbSort none s
  rw [Blkparse.showEntriesRb, showLoop_frame]
  refine ⟨hevents, h.list, fun t ht => h.tree t ?_⟩
  rw [hsplit]
  exact List.mem_append_right _ ht

theorem doPipe_sound (o : Opts) (find : Find) (names : Nat) (input : List (Option BlkIoTrace)) :
    PipeSound (doPipe o find names input) := by
  have hloop : PipeSound (pipeLoop o find (input.length + 1) input (.init names)) := by
    apply pipeLoop_induction (P := fun _ s => PipeSound s)
    · intro input s s' rest h hread
      have hnew := h.readEvents (o := o) input
      rwa [hread] at hnew
    · intro input s s' events rest s₁ youngest h hread _ hsort
      have hnew := h.readEvents (o := o) input
      rw [hread] at hnew
      have hs₁ := PipeSound.sortEntries (o := o) (s := { s' with readSequence := s'.readSequence + 1 })
        ⟨hnew.events, hnew.list, hnew.tree⟩
      rw [hsort] at hs₁
      exact ⟨fun _ => hs₁, fun _ => hs₁.showEntriesRb⟩
    · exact Nat.lt_succ_self _
    · exact ⟨nofun, nofun, nofun⟩
  rw [doPipe]
  split
  · exact hloop
  · exact hloop.showEntriesRb

/-- What a run of file mode keeps. -/
structure FileSound (s : FileState) : Prop where
  events : ∀ e ∈ s.events, e.Sound
  queues : ∀ id, ∀ t ∈ (s.streams id).first, Queued t

theorem msFetch_notify {cpu : Nat} {native : Bool} {raw bit : BlkIoTrace}
    (h : msFetch cpu native raw = .notify bit) : verifyTrace bit = false ∧ bit.isNotify = true := by
  unfold msFetch at h
  dsimp only at h
  split_ifs at h with _ hvalid _ hnot
  obtain rfl := Fetched.notify.inj h
  exact ⟨by simpa using hvalid, hnot⟩

theorem msFetch_queued {cpu : Nat} {native : Bool} {raw bit : BlkIoTrace}
    (h : msFetch cpu native raw = .queued bit) : Queued bit := by
  unfold msFetch at h
  dsimp only at h
  split_ifs at h with _ hvalid _ hnot
  obtain rfl := Fetched.queued.inj h
  exact ⟨by simpa using hvalid, by simpa using hnot⟩

theorem msPrimeLoop_sound (rbBatch cpu : Nat) (file : List BlkIoTrace) (native : Option Bool) (i : Nat) :
    (∀ t ∈ (msPrimeLoop rbBatch cpu file native i).queue, Queued t) ∧
      ∀ e ∈ (msPrimeLoop rbBatch cpu file native i).notified, e.Sound := by
  have hnone : (∀ t ∈ ([] : List BlkIoTrace), Queued t) ∧ ∀ e ∈ ([] : List Event), e.Sound := ⟨nofun, nofun⟩
  induction file generalizing native i with
  | nil => exact hnone
  | cons raw rest ih =>
    rw [msPrimeLoop]
    split
    case isFalse => exact hnone
    case isTrue =>
      cases lookNative native raw.magic with
      | none => exact hnone
      | some b =>
        dsimp only
        cases hfetch : msFetch cpu b raw with
        | err => exact hnone
        | skipped => exact ih _ _
        | notify bit =>
          obtain ⟨hqueue, hnotified⟩ := ih (some b) i
          exact ⟨hqueue, List.forall_mem_cons.mpr ⟨msFetch_notify hfetch, hnotified⟩⟩
        | queued bit =>
          obtain ⟨hqueue, hnotified⟩ := ih (some b) (i + 1)
          exact ⟨List.forall_mem_cons.mpr ⟨msFetch_queued hfetch, hqueue⟩, hnotified⟩

theorem FileSound.update {s : FileState} (h : FileSound s) (msp : StreamId) {st : MsStream}
    (hst : ∀ t ∈ st.first, Queued t) :
    ∀ id, ∀ t ∈ (Function.update s.streams msp st id).first, Queued t := by
  intro id
  by_cases hid : id = msp
  · subst hid
    rw [Function.update_self]
    exact hst
  · rw [Function.update_of_ne hid]
    exact h.queues id

theorem FileSound.msPrime {s : FileState} (h : FileSound s) (o : Opts) (msp : StreamId) :
    FileSound (msPrime o s msp).1 := by
  rw [Blkparse.msPrime]
  split
  · exact h
  · obtain ⟨hqueue, hnotified⟩ := msPrimeLoop_sound o.rbBatch msp.2 _ s.native 0
    exact ⟨List.forall_mem_append.mpr ⟨h.events, hnotified⟩,
      h.update msp (List.forall_mem_append.mpr ⟨h.queues msp, hqueue⟩)⟩

theorem FileSound.msDeq {s : FileState} (h : FileSound s) (o : Opts) (msp : StreamId)
    (next : List StreamId) : FileSound (msDeq o s msp next) := by
  have htail : FileSound { s with
      streams := Function.update s.streams msp ⟨(s.streams msp).first.tail, (s.streams msp).fd⟩ } :=
    ⟨h.events, h.update msp fun t ht => h.queues msp t (List.mem_of_mem_tail ht)⟩
  have hprimed := htail.msPrime o msp
  unfold Blkparse.msDeq
  dsimp only
  split
  · split
    · exact ⟨hprimed.events, hprimed.queues⟩
    · exact ⟨hprimed.events, hprimed.queues⟩
  · exact ⟨htail.events, htail.queues⟩

theorem setup_sound (o : Opts) (fs : List (StreamId × List BlkIoTrace)) :
    FileSound (fs.foldl (setupFile o) {}) := by
  induction fs using List.reverseRecOn with
  | nil => exact ⟨List.forall_mem_nil _, fun _ => List.forall_mem_nil _⟩
  | append_singleton fs f ih =>
    rw [List.foldl_append, List.foldl_cons, List.foldl_nil, setupFile]
    split
    · exact ih
    · have hopened : FileSound { fs.foldl (setupFile o) {} with
          streams := Function.update (fs.foldl (setupFile o) {}).streams f.1 ⟨[], some f.2⟩ } :=
        ⟨ih.events, ih.update f.1 (List.forall_mem_nil _)⟩
      have hprimed := hopened.msPrime o f.1
      rw [msAlloc]
      dsimp only
      split
      · exact hprimed
      · exact ⟨hprimed.events, hprimed.queues⟩

theorem FileReach.sound {o : Opts} {devs : List (List (List BlkIoTrace))} {more : Bool} {s : FileState}
    (h : FileReach o devs more s) : FileSound s := by
  induction h with
  | setup => exact setup_sound o _
  | start hs =>
    rw [fileStart, setupDevices_eq] at hs
    split at hs
    · simp at hs
    · simp only [Option.map_some, Option.some.injEq] at hs
      have hsetup := setup_sound o (filesFrom 0 devs)
      rw [← hs]
      split
      · exact hsetup
      · exact ⟨hsetup.events, hsetup.queues⟩
  | @handle s s' msp next more _ _ hh ih =>
    rw [Blkparse.handle] at hh
    cases hfirst : (s.streams msp).first with
    | nil =>
      rw [hfirst] at hh
      obtain ⟨rfl, -⟩ := Prod.mk.inj hh
      exact ih
    | cons t queue =>
      rw [hfirst] at hh
      dsimp only at hh
      obtain ⟨ht, hqueue⟩ := List.forall_mem_cons.mp (hfirst ▸ ih.queues msp)
      have hqueues := @FileSound.update _ ih msp
        { s.streams msp with first := relative s.genesisTime t :: queue }
        (List.forall_mem_cons.mpr ⟨ht.relative s.genesisTime, hqueue⟩)
      split at hh
      · obtain ⟨rfl, -⟩ := Prod.mk.inj hh
        exact ⟨ih.events, hqueues⟩
      · obtain ⟨rfl, -⟩ := Prod.mk.inj hh
        apply FileSound.msDeq
        refine ⟨?_, hqueues⟩
        dsimp only
        split
        · exact List.forall_mem_append.mpr
            ⟨ih.events, List.forall_mem_singleton.mpr (ht.relative s.genesisTime)⟩
        · exact ih.events

/-- **Every call out of a reader is sound**, whatever the trace is. -/
theorem Parses.sound {events : List Event} (h : Parses events) : ∀ e ∈ events, e.Sound := by
  cases h with
  | pipe o find names input => exact (doPipe_sound o find names input).events
  | files hs =>
    obtain ⟨more, hreach⟩ := doFile_reach hs
    exact hreach.sound.events

end Blktrace.Blkparse
