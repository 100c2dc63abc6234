import Blktrace.Blkparse.BinaryDump
import Blktrace.Blkparse.Handed

/-!
# Reading the binary dump again

The dump is a file of native records, read back through a pipe. Their headers were converted before
they were written, but not their payloads: where the trace was in the other byte order, the wall clock
of a `TIMESTAMP` record is read the wrong way round. And a message may be left out, where the origin of its
batch is 2^64 - 1 nanoseconds before it: the stopwatch ends there by default.
-/

namespace Blktrace.Blkparse

/-! ## What is written -/

/-- The dump holds the notifies and the texts of the run. -/
structure Rewritten (events : List Event) (bits : List BlkIoTrace) : Prop where
  notifies : bits.filter BlkIoTrace.isNotify = (notified events).map Prod.snd
  messages : bits.filterMap messageText = messageTexts events
  valid : ∀ bit ∈ bits, verifyTrace bit = false

theorem written_rewritten {x : TextOutput} {o : Opts} {malloc : Nat → IoTrack} {behind : ℕ → List UInt8}
    {d : Dumper} {n : ℕ} {events : List Event} {bits : List BlkIoTrace} (hs : ∀ e ∈ events, e.Sound)
    (h : d.written x o malloc true behind n events = some bits) : Rewritten events bits := by
  induction events generalizing d n bits with
  | nil =>
    obtain rfl := Option.some.inj h
    exact ⟨rfl, rfl, nofun⟩
  | cons e events ih =>
    obtain ⟨he, hevents⟩ := List.forall_mem_cons.mp hs
    cases e with
    | notify native bit =>
      obtain ⟨rest, hrest, hcons⟩ := Option.bind_eq_some_iff.mp h
      obtain rfl := Option.some.inj hcons
      obtain ⟨hnotifies, hmessages, hvalid⟩ := ih hevents hrest
      refine ⟨?_, ?_, List.forall_mem_cons.mpr ⟨he.1, hvalid⟩⟩
      · rw [List.filter_cons_of_pos he.2, hnotifies]
        rfl
      · rw [List.filterMap_cons_none (messageText_of_isNotify he.2), hmessages]
        rfl
    | dump pdi dev cpu t =>
      obtain ⟨bit, hbit, hbind⟩ := Option.bind_eq_some_iff.mp h
      obtain ⟨rest, hrest, hcons⟩ := Option.bind_eq_some_iff.mp hbind
      obtain rfl := Option.some.inj hcons
      obtain ⟨hnotifies, hmessages, hvalid⟩ := ih hevents hrest
      obtain ⟨device, hdevice⟩ := dumpedRecord_device hbit
      have hsound : Queued bit := hdevice ▸ he
      have htext : messageText bit = messageText t := by
        rw [hdevice]
        rfl
      rw [Bool.true_or, if_pos rfl]
      refine ⟨?_, ?_, List.forall_mem_cons.mpr ⟨hsound.1, hvalid⟩⟩
      · rw [List.filter_cons_of_neg (by simp [hsound.2]), hnotifies]
        rfl
      · rw [List.filterMap_cons, htext, hmessages]
        rfl

/-! ## A file through a pipe -/

/-- The records that are put into the tree. -/
def sortable (bits : List BlkIoTrace) : List BlkIoTrace := bits.filter fun bit => !bit.isNotify

theorem sortable_append (bits bits' : List BlkIoTrace) :
    sortable (bits ++ bits') = sortable bits ++ sortable bits' := by
  rw [sortable, List.filter_append, sortable, sortable]

theorem pipeRecords_eq (native : Bool) (input : List (Option BlkIoTrace)) :
    pipeRecords native input = sortable (hostRecords native input) := rfl

/-- The records `i * n` to `i * n + n - 1`. -/
def batch (n : ℕ) (bits : List BlkIoTrace) (i : ℕ) : List BlkIoTrace := (bits.drop (n * i)).take n

/-- What `find_genesis` makes the origin of batch `i`. -/
def batchOrigin (n : ℕ) (bits : List BlkIoTrace) (i : ℕ) : UInt64 :=
  originAt ((List.range (i + 1)).map (batch n bits))

/-- The notifies that are still in a pipe. -/
def toHear (native : Bool) (input : List (Option BlkIoTrace)) : List (Bool × BlkIoTrace) :=
  ((hostRecords native input).filter BlkIoTrace.isNotify).map (Prod.mk native)

/-- A call of `read_events` hears the notifies that it takes out of the pipe. -/
theorem readEvents_heard {o : Opts} {native : Bool} {input : List (Option BlkIoTrace)}
    (hv : ValidPipe native input) {events : Nat} {pdi : Option Nat} {s : PipeState}
    (hn : s.native = none ∨ s.native = some native) :
    notified (readEvents o input events pdi s).1.events ++ toHear native (readEvents o input events pdi s).2.2 =
      notified s.events ++ toHear native input := by
  induction input generalizing events pdi s with
  | nil => rfl
  | cons item rest ih =>
    have hvrest : ValidPipe native rest := fun raw hmem => hv raw (List.mem_cons_of_mem _ hmem)
    cases item with
    | none =>
      rw [readEvents]
      split_ifs
      · exact ih hvrest hn
      · rfl
      · rfl
    | some raw =>
      have hraw := hv raw List.mem_cons_self
      have hhost : hostRecords native (some raw :: rest) = traceToCpu native raw :: hostRecords native rest := rfl
      have hlook : lookNative s.native raw.magic = some native := lookNative_of_valid hn hraw
      rw [readEvents]
      split_ifs
      · simp only [hlook, checkMagic_of_valid hraw, hraw, Bool.not_true, Bool.false_eq_true, if_false]
        split_ifs with hnotify
        · rw [ih hvrest (Or.inr rfl), PipeState.notify, notified_append, notified_notify, List.append_assoc,
            toHear, toHear, hhost, List.filter_cons_of_pos hnotify]
          rfl
        · rw [ih hvrest (Or.inr rfl), toHear, toHear, hhost, List.filter_cons_of_neg hnotify]
      · rfl

/-- **A batch out of a pipe that does not run dry** is full, or the last. -/
theorem readEvents_file {o : Opts} {native : Bool} {input : List (Option BlkIoTrace)}
    (hv : ValidPipe native input) (hfile : none ∉ input) {events : Nat} (hle : events ≤ o.rbBatch)
    {pdi : Option Nat} {s : PipeState} (hn : s.native = none ∨ s.native = some native) :
    (readEvents o input events pdi s).2.1 ≤ o.rbBatch ∧
      ((readEvents o input events pdi s).2.1 < o.rbBatch → (readEvents o input events pdi s).2.2 = []) := by
  induction input generalizing events pdi s with
  | nil => exact ⟨hle, fun _ => rfl⟩
  | cons item rest ih =>
    obtain ⟨hitem, hrest⟩ := not_or.mp (List.mem_cons.not.mp hfile)
    cases item with
    | none => exact absurd rfl hitem
    | some raw =>
      have hraw := hv raw List.mem_cons_self
      have hvrest : ValidPipe native rest := fun raw hmem => hv raw (List.mem_cons_of_mem _ hmem)
      have hlook : lookNative s.native raw.magic = some native := lookNative_of_valid hn hraw
      rw [readEvents]
      split_ifs with hlt
      · simp only [hlook, checkMagic_of_valid hraw, hraw, Bool.not_true, Bool.false_eq_true, if_false]
        split_ifs
        · exact ih hvrest hrest hle (Or.inr rfl)
        · exact ih hvrest hrest hlt (Or.inr rfl)
      · exact ⟨hle, fun h => absurd h hlt⟩

/-! ## A run over the dump -/

/-- Nothing is left out of what is read, but a record at the very end of time. -/
structure Opts.TakesAll (o : Opts) : Prop where
  batch : 1 ≤ o.rbBatch
  actMask : o.actMask = 0xffffffff
  start : o.stopwatchStart = 0
  stop : o.stopwatchEnd = 0xffffffffffffffff

theorem notified_showEntriesRb (o : Opts) (find : Find) (force : Bool) (s : PipeState) :
    notified (showEntriesRb o find force s).events = notified s.events := by
  have hloop : ∀ (ts : List Trace) (pdi : Option Nat) (s : PipeState),
      notified (showLoop o find force ts pdi s).1.events = notified s.events := by
    intro ts
    induction ts with
    | nil => exact fun _ _ => rfl
    | cons t rest ih =>
      intro pdi s
      rcases showLoop_cons o find force t rest pdi s with ⟨devices, -, -, heq⟩ | ⟨devices, i, pdi', -, -, heq⟩
      · rw [heq]
      · rw [heq, ih, PipeState.shown]
        dsimp only
        split
        · rw [notified_append, notified_dump, List.append_nil]
        · rfl
  exact hloop s.rbSort none s

/-- How far a run over a file is. -/
structure FileRead (o : Opts) (recs : List BlkIoTrace) (rest : List (Option BlkIoTrace)) (s : PipeState) :
    Prop where
  valid : ValidPipe true rest
  file : none ∉ rest
  native : s.native = none ∨ s.native = some true
  list : s.traceList = []
  heard : notified s.events ++ ((hostRecords true rest).filter BlkIoTrace.isNotify).map (Prod.mk true) =
    (recs.filter BlkIoTrace.isNotify).map (Prod.mk true)
  batches : ∃ j, s.batches.map Batch.raw = (List.range j).map
      (fun i => (batch o.rbBatch (sortable recs) i).reverse) ∧
    pipeRecords true rest = (sortable recs).drop (o.rbBatch * j)

/-- The run has read all of it. -/
structure FileDone (o : Opts) (recs : List BlkIoTrace) (s : PipeState) : Prop where
  heard : notified s.events = (recs.filter BlkIoTrace.isNotify).map (Prod.mk true)
  batches : ∃ j, s.batches.map Batch.raw = (List.range j).map
      (fun i => (batch o.rbBatch (sortable recs) i).reverse) ∧
    (sortable recs).length ≤ o.rbBatch * j

/-- A call of `read_events` on the rest of a file. -/
theorem FileRead.read {o : Opts} {recs : List BlkIoTrace} {rest : List (Option BlkIoTrace)} {s : PipeState}
    (h : FileRead o recs rest s) :
    ∃ taken, hostRecords true rest = taken ++ hostRecords true (readEvents o rest 0 none s).2.2 ∧
      notified (readEvents o rest 0 none s).1.events ++ toHear true (readEvents o rest 0 none s).2.2 =
        notified s.events ++ toHear true rest ∧
      (readEvents o rest 0 none s).1.traceList.map Trace.bit =
        (sortable taken).reverse ∧
      (sortable taken).length = (readEvents o rest 0 none s).2.1 ∧
      (readEvents o rest 0 none s).2.1 ≤ o.rbBatch ∧
      ((readEvents o rest 0 none s).2.1 < o.rbBatch → (readEvents o rest 0 none s).2.2 = []) ∧
      ((readEvents o rest 0 none s).1.native = none ∨ (readEvents o rest 0 none s).1.native = some true) := by
  obtain ⟨taken, ht⟩ := @readEvents_valid o true rest h.valid 0 none s h.native
  obtain ⟨hmax, hlast⟩ := @readEvents_file o true rest h.valid h.file 0 (Nat.zero_le _) none s h.native
  have hheard := @readEvents_heard o true rest h.valid 0 none s h.native
  have hlist := ht.list
  rw [h.list, List.map_nil, List.append_nil] at hlist
  have hevents := ht.events
  rw [Nat.zero_add] at hevents
  exact ⟨taken, ht.input, hheard, hlist, hevents.symm, hmax, hlast, ht.native⟩

theorem FileRead.done {o : Opts} (hbatch : 1 ≤ o.rbBatch) {recs : List BlkIoTrace}
    {rest rest' : List (Option BlkIoTrace)} {s s' : PipeState} (h : FileRead o recs rest s)
    (hread : readEvents o rest 0 none s = (s', 0, rest')) : FileDone o recs s' := by
  obtain ⟨taken, hinput, hheard, -, hcount, -, hend, -⟩ := h.read
  have hframe := congrArg PipeState.batches (readEvents_frame o rest 0 none s).1
  rw [hread] at hinput hheard hcount hend hframe
  obtain rfl : rest' = [] := hend hbatch
  obtain ⟨j, hraws, hleft⟩ := h.batches
  rw [show hostRecords true [] = [] from rfl, List.append_nil] at hinput
  have hnone : sortable taken = [] := List.length_eq_zero_iff.mp hcount
  rw [pipeRecords_eq, hinput, hnone] at hleft
  refine ⟨?_, j, ?_, List.drop_eq_nil_iff.mp hleft.symm⟩
  · rw [← h.heard]
    exact (List.append_nil _).symm.trans hheard
  · rw [hframe]
    exact hraws

/-- One batch more. -/
theorem FileRead.turn {o : Opts} {find : Find} {recs : List BlkIoTrace}
    {rest rest' : List (Option BlkIoTrace)} {s s' s₁ : PipeState} {events : ℕ} {youngest : UInt64}
    (h : FileRead o recs rest s) (hread : readEvents o rest 0 none s = (s', events, rest'))
    (hsort : sortEntries o { s' with readSequence := s'.readSequence + 1 } = (s₁, youngest)) :
    FileRead o recs rest' (showEntriesRb o find false s₁) := by
  obtain ⟨taken, hinput, hheard, hlist, hcount, hmax, hend, hnative⟩ := h.read
  have hframe := congrArg PipeState.batches (readEvents_frame o rest 0 none s).1
  have hsuf := (readEvents_rest o rest 0 none s).1
  have hsorted := (sortEntries_frame o { s' with readSequence := s'.readSequence + 1 }).1
  rw [hread] at hinput hheard hlist hcount hmax hend hnative hframe hsuf
  rw [hsort] at hsorted
  dsimp only at hinput hheard hlist hcount hmax hend hnative hframe hsuf
  have hevents : s₁.events = s'.events := by
    have hsame := congrArg PipeState.events hsorted
    exact hsame
  have hraws : s₁.batches.map Batch.raw = s.batches.map Batch.raw ++
      [(sortable taken).reverse] := by
    have hnew := congrArg PipeState.batches hsorted
    dsimp only at hnew
    rw [hnew, hframe, hlist, List.map_append]
    rfl
  obtain ⟨j, hbefore, hleft⟩ := h.batches
  rw [pipeRecords_eq, hinput, sortable_append] at hleft
  refine ⟨fun raw hmem => h.valid raw (hsuf.subset hmem), fun hmem => h.file (hsuf.subset hmem), ?_, ?_, ?_, ?_⟩
  · have hsame := congrArg PipeState.native hsorted
    rw [showEntriesRb, showLoop_frame]
    dsimp only at hsame ⊢
    rw [hsame]
    exact hnative
  · rw [showEntriesRb, showLoop_frame]
    exact congrArg PipeState.traceList hsorted
  · rw [notified_showEntriesRb, hevents, ← h.heard]
    exact hheard
  · -- what was read is the next batch, and what is left begins behind it
    have hbatch : batch o.rbBatch (sortable recs) j =
          sortable taken ∧
        pipeRecords true rest' = (sortable recs).drop (o.rbBatch * (j + 1)) := by
      rw [batch, Nat.mul_succ, ← List.drop_drop, ← hleft]
      rcases Nat.lt_or_eq_of_le hmax with hlt | heq
      · obtain rfl := hend hlt
        rw [show sortable (hostRecords true []) = [] from rfl, List.append_nil]
        have hle : (sortable taken).length ≤ o.rbBatch := hcount.trans_le hmax
        exact ⟨List.take_of_length_le hle, (List.drop_of_length_le hle).symm⟩
      · rw [← heq, ← hcount, List.take_left, List.drop_left]
        exact ⟨rfl, rfl⟩
    refine ⟨j + 1, ?_, hbatch.2⟩
    rw [showEntriesRb, showLoop_frame]
    dsimp only
    rw [hraws, hbefore, List.range_succ, List.map_append, List.map_singleton, hbatch.1]

/-- **A run over a file** reads all of it, in batches that are full but for the last. -/
theorem doPipe_file {o : Opts} (ho : o.TakesAll) (find : Find) (names : ℕ) {recs : List BlkIoTrace}
    (hvalid : ∀ bit ∈ recs, verifyTrace bit = false) :
    FileDone o recs (doPipe o find names (recs.map some)) := by
  have hhost : hostRecords true (recs.map some) = recs := by
    have hsame : traceToCpu true = id := rfl
    rw [hostRecords, hsame, List.map_id, List.filterMap_map]
    exact List.filterMap_some
  have hinit : FileRead o recs (recs.map some) (PipeState.init names) := by
    refine ⟨?_, by simp, Or.inl rfl, rfl, ?_, 0, rfl, ?_⟩
    · intro raw hmem
      obtain ⟨bit, hbit, heq⟩ := List.mem_map.mp hmem
      obtain rfl := Option.some.inj heq
      exact hvalid bit hbit
    · rw [hhost]
      rfl
    · rw [pipeRecords_eq, hhost, Nat.mul_zero, List.drop_zero]
  have hloop : FileDone o recs (pipeLoop o find ((recs.map some).length + 1) (recs.map some) (.init names)) := by
    apply pipeLoop_induction (P := FileRead o recs)
    · intro input s s' rest h hread
      exact h.done ho.batch hread
    · intro input s s' events rest s₁ youngest h hread _ hsort
      refine ⟨fun hpast => ?_, fun _ => h.turn hread hsort⟩
      rw [ho.stop] at hpast
      exact absurd hpast (not_lt.mpr (Word.le_max _))
    · exact Nat.lt_succ_self _
    · exact hinit
  rw [doPipe]
  split
  · exact hloop
  · refine ⟨?_, ?_⟩
    · rw [notified_showEntriesRb]
      exact hloop.heard
    · rw [showEntriesRb, showLoop_frame]
      exact hloop.batches

/-! ## The wall clock -/

/-- A `TIMESTAMP` record that `handle_notify` takes. -/
def isStamp (bit : BlkIoTrace) : Bool := bit.action == blkTnTimestamp && bit.pduLen == 8

/-- The last of them. -/
def lastStamp (events : List Event) : Option (Bool × BlkIoTrace) :=
  (notified events).reverse.find? fun e => isStamp e.2

theorem notify_of_isStamp {bit : BlkIoTrace} (h : isStamp bit = true) (native : Bool) (c : Clock) :
    c.notify native bit = ({} : Clock).notify native bit := by
  rw [isStamp, Bool.and_eq_true, beq_iff_eq, beq_iff_eq] at h
  simp [Clock.notify, h.1, h.2]

theorem notify_of_not_isStamp {bit : BlkIoTrace} (h : isStamp bit = false) (native : Bool) (c : Clock) :
    c.notify native bit = c := by
  rw [Clock.notify]
  split_ifs with haction hlen
  · rfl
  · rw [isStamp, haction, not_not.mp hlen] at h
    cases h
  · rfl

/-- Only the last one counts. -/
theorem startOf_eq (events : List Event) :
    startOf events = ((lastStamp events).map fun e => ({} : Clock).notify e.1 e.2).getD {} := by
  rw [startOf, lastStamp]
  induction notified events using List.reverseRecOn with
  | nil => rfl
  | append_singleton es e ih =>
    rw [List.foldl_concat, List.reverse_concat, List.find?_cons]
    cases hstamp : isStamp e.2 with
    | true => exact notify_of_isStamp hstamp _ _
    | false => exact (notify_of_not_isStamp hstamp _ _).trans ih

theorem toInt_word (x : UInt32) : x.toUInt64.toInt64.toInt = x.toNat := by
  have hlt := x.toNat_lt
  rw [Word.toInt_toInt64 (by rw [UInt32.toNat_toUInt64]; omega), UInt32.toNat_toUInt64]

theorem word_inj {x y : UInt32} : x.toUInt64.toInt64 = y.toUInt64.toInt64 ↔ x = y := by
  refine ⟨fun h => ?_, fun h => by rw [h]⟩
  have hint := congrArg Int64.toInt h
  rw [toInt_word, toInt_word] at hint
  exact UInt32.toNat_inj.mp (by exact_mod_cast hint)

/-- The clock of a stamp. -/
theorem notify_stamp {bit : BlkIoTrace} (h : isStamp bit = true) (native : Bool) :
    ({} : Clock).notify native bit =
      { startTimestamp := bit.time
        tvSec := (two32 native bit.pdu 0).toUInt64.toInt64
        tvNsec := (two32 native bit.pdu 4).toUInt64.toInt64 } := by
  rw [isStamp, Bool.and_eq_true, beq_iff_eq, beq_iff_eq] at h
  have hpos : ¬ (two32 native bit.pdu 4).toUInt64.toInt64 < 0 := by
    rw [Int64.lt_iff_toInt_lt, toInt_word]
    exact not_lt.mpr (Int.natCast_nonneg _)
  rw [Clock.notify, if_pos h.1, if_neg (not_not.mpr h.2)]
  exact if_neg hpos

/-- What is read as native is the same just if the two words are. -/
theorem notify_native_iff {bit : BlkIoTrace} (h : isStamp bit = true) (native : Bool) :
    ({} : Clock).notify true bit = ({} : Clock).notify native bit ↔
      two32 native bit.pdu 0 = two32 true bit.pdu 0 ∧ two32 native bit.pdu 4 = two32 true bit.pdu 4 := by
  rw [notify_stamp h, notify_stamp h, Clock.mk.injEq, word_inj, word_inj, eq_self_iff_true, true_and]
  exact and_congr eq_comm eq_comm

/-! ## The texts -/

theorem filterMap_filter_perm_iff {β γ : Type*} (l : List β) (p : β → Bool) (g : β → Option γ) :
    ((l.filter p).filterMap g).Perm (l.filterMap g) ↔ ∀ x ∈ l, (g x).isSome → p x = true := by
  induction l with
  | nil => simp
  | cons x l ih =>
    have hle : ((l.filter p).filterMap g).length ≤ (l.filterMap g).length :=
      (List.filter_sublist.filterMap g).length_le
    rw [List.forall_mem_cons, ← ih]
    cases hp : p x with
    | true =>
      rw [List.filter_cons_of_pos hp]
      cases hg : g x with
      | none => simp [hg]
      | some y => simp [hg]
    | false =>
      rw [List.filter_cons_of_neg (by simp [hp])]
      cases hg : g x with
      | none => simp [hg]
      | some y =>
        rw [List.filterMap_cons_some hg]
        constructor
        · intro hperm
          have hlen := hperm.length_eq
          rw [List.length_cons] at hlen
          omega
        · rintro ⟨hx, -⟩
          exact absurd (hx rfl) Bool.false_ne_true

theorem leastTime_reverse (bits : List BlkIoTrace) : leastTime bits.reverse = leastTime bits := by
  have hle : ∀ l l' : List BlkIoTrace, (∀ bit, bit ∈ l ↔ bit ∈ l') → l ≠ [] → leastTime l' ≤ leastTime l := by
    intro l l' hsame hne
    obtain ⟨bit, hbit, htime⟩ := exists_leastTime hne
    rw [← htime]
    exact leastTime_le ((hsame bit).mp hbit)
  by_cases hne : bits = []
  · rw [hne]
    rfl
  · apply le_antisymm
    · exact hle _ _ (fun bit => List.mem_reverse.symm) hne
    · exact hle _ _ (fun bit => List.mem_reverse) (by simpa using hne)

/-- The batches, one behind another. -/
theorem flatMap_batch (n j : ℕ) (bits : List BlkIoTrace) :
    (List.range j).flatMap (batch n bits) = bits.take (n * j) := by
  induction j with
  | zero => simp
  | succ j ih =>
    rw [List.range_succ, List.flatMap_append, ih, List.flatMap_singleton, batch, Nat.mul_succ, List.take_add]

/-- Batch `i` of a run over a file. -/
theorem FileDone.batch_spec {o : Opts} {recs : List BlkIoTrace} {s : PipeState} (h : FileDone o recs s)
    (horigins : Origins s) {i : ℕ} {b : Batch} (hb : s.batches[i]? = some b) :
    b.raw = (batch o.rbBatch (sortable recs) i).reverse ∧
      b.genesis = batchOrigin o.rbBatch (sortable recs) i := by
  obtain ⟨j, hraws, -⟩ := h.batches
  obtain ⟨hi, hget⟩ := List.getElem?_eq_some_iff.mp hb
  have hij : i < j := by
    have hlen := congrArg List.length hraws
    rw [List.length_map, List.length_map, List.length_range] at hlen
    omega
  have hraw : b.raw = (batch o.rbBatch (sortable recs) i).reverse := by
    have hat := congrArg (fun l : List (List BlkIoTrace) => l[i]?) hraws
    rw [List.getElem?_map, hb, List.getElem?_map, List.getElem?_range hij] at hat
    exact Option.some.inj hat
  refine ⟨hraw, ?_⟩
  have hsplit : s.batches = s.batches.take i ++ b :: s.batches.drop (i + 1) := by
    rw [← hget, ← List.drop_eq_getElem_cons hi, List.take_append_drop]
  rw [(horigins.each _ _ _ hsplit).2, batchOrigin, originAt, originAt]
  have hpre : (s.batches.take i ++ [b]).map Batch.raw = (List.range (i + 1)).map
      fun i => (batch o.rbBatch (sortable recs) i).reverse := by
    rw [List.map_append, List.map_take, hraws, ← List.map_take, List.take_range, Nat.min_eq_left hij.le,
      List.range_succ, List.map_append, List.map_singleton, List.map_singleton, hraw]
  rw [hpre, List.map_map, List.map_map]
  have hleast : (leastTime ∘ fun i => (batch o.rbBatch (sortable recs) i).reverse) =
      leastTime ∘ batch o.rbBatch (sortable recs) := by
    funext i
    exact leastTime_reverse _
  rw [hleast]

/-! ## Reading again -/

/-- **What is read again is the same**: the names, the wall clock at the start, and the texts. -/
structure Reread (events events' : List Event) : Prop where
  names : namesOf events' = namesOf events
  start : startOf events' = startOf events
  messages : (messageTexts events').Perm (messageTexts events)

/-- The two words of the last `TIMESTAMP` record are the same as native ones, and no message is 2^64 - 1
nanoseconds behind the origin of its batch. -/
structure Rereadable (n : ℕ) (events : List Event) (bits : List BlkIoTrace) : Prop where
  stamp : ∀ e ∈ lastStamp events,
    two32 e.1 e.2.pdu 0 = two32 true e.2.pdu 0 ∧ two32 e.1 e.2.pdu 4 = two32 true e.2.pdu 4
  edge : ∀ i, ∀ bit ∈ batch n (sortable bits) i, (messageText bit).isSome →
    bit.time - batchOrigin n (sortable bits) i ≠ 0xffffffffffffffff

section

variable {o : Opts} (ho : o.TakesAll) {recs : List BlkIoTrace} {events events' : List Event}

/-- The notifies are heard again, as native ones. -/
theorem startOf_iff (h : notified events' = (notified events).map fun e => (true, e.2)) :
    startOf events' = startOf events ↔ ∀ e ∈ lastStamp events,
      two32 e.1 e.2.pdu 0 = two32 true e.2.pdu 0 ∧ two32 e.1 e.2.pdu 4 = two32 true e.2.pdu 4 := by
  have hlast : lastStamp events' = (lastStamp events).map fun e => (true, e.2) := by
    rw [lastStamp, h, ← List.map_reverse, List.find?_map]
    rfl
  rw [startOf_eq, startOf_eq, hlast]
  cases hfind : lastStamp events with
  | none => simp
  | some e =>
    have hstamp : isStamp e.2 = true := by
      have hprop := List.find?_some hfind
      exact hprop
    simp only [Option.map_some, Option.getD_some, Option.mem_some_iff, forall_eq']
    exact notify_native_iff hstamp e.1

theorem namesOf_eq (h : notified events' = (notified events).map fun e => (true, e.2)) :
    namesOf events' = namesOf events := by
  rw [namesOf, namesOf, h, List.foldl_map]

/-- The texts of a file are those of its batches. -/
theorem FileDone.texts_perm {s : PipeState} (h : FileDone o recs s) :
    (s.batches.flatMap fun b => b.raw.filterMap messageText).Perm (recs.filterMap messageText) := by
  obtain ⟨j, hraws, hlen⟩ := h.batches
  have hrecs : recs.filterMap messageText =
      (sortable recs).filterMap messageText := by
    rw [sortable, List.filterMap_filter]
    refine List.filterMap_congr fun bit _ => ?_
    cases hnot : bit.isNotify with
    | false => rfl
    | true => exact messageText_of_isNotify hnot
  have hwhole : (List.range j).flatMap (batch o.rbBatch (sortable recs)) =
      sortable recs := by
    rw [flatMap_batch, List.take_of_length_le hlen]
  rw [hrecs, ← hwhole, List.filterMap_flatMap]
  have hflat : (s.batches.flatMap fun b => b.raw.filterMap messageText) =
      (s.batches.map Batch.raw).flatMap (List.filterMap messageText) := by
    rw [List.flatMap_map]
  rw [hflat, hraws, List.flatMap_map]
  exact List.Perm.flatMap_left _ fun i _ => ((List.reverse_perm _).filterMap _)

/-- The condition on the batches, as one on the file. -/
theorem FileDone.edge_iff {s : PipeState} (h : FileDone o recs s) (horigins : Origins s) :
    (∀ b ∈ s.batches, ∀ bit ∈ b.raw, (messageText bit).isSome → bit.time - b.genesis ≠ 0xffffffffffffffff) ↔
      ∀ i, ∀ bit ∈ batch o.rbBatch (sortable recs) i, (messageText bit).isSome →
        bit.time - batchOrigin o.rbBatch (sortable recs) i ≠ 0xffffffffffffffff := by
  constructor
  · intro hedge i bit hbit hsome
    obtain ⟨j, hraws, hlen⟩ := h.batches
    have hij : i < s.batches.length := by
      have hcount := congrArg List.length hraws
      rw [List.length_map, List.length_map, List.length_range] at hcount
      rw [hcount]
      by_contra hge
      have hempty : batch o.rbBatch (sortable recs) i = [] := by
        rw [batch, List.drop_of_length_le (hlen.trans (Nat.mul_le_mul_left _ (not_lt.mp hge))), List.take_nil]
      rw [hempty] at hbit
      nomatch hbit
    have hget := List.getElem?_eq_getElem hij
    obtain ⟨hraw, hgenesis⟩ := h.batch_spec horigins hget
    rw [← hgenesis]
    refine hedge _ (List.getElem_mem hij) bit ?_ hsome
    rw [hraw]
    exact List.mem_reverse.mpr hbit
  · intro hedge b hb bit hbit hsome
    obtain ⟨i, hget⟩ := List.getElem?_of_mem hb
    obtain ⟨hraw, hgenesis⟩ := h.batch_spec horigins hget
    rw [hraw, List.mem_reverse] at hbit
    rw [hgenesis]
    exact hedge i bit hbit hsome

include ho

theorem selects_message {b : Batch} {bit : BlkIoTrace} (h : (messageText bit).isSome) :
    (o.masks bit && !checkStopwatch o (relative b.genesis bit)) = true ↔
      bit.time - b.genesis ≠ 0xffffffffffffffff := by
  have hmasks : o.masks bit = true := by
    have hmsg : bit.isMessage = true := by
      by_contra hnot
      rw [messageText, if_neg (fun hboth => hnot hboth.1)] at h
      nomatch h
    rw [BlkIoTrace.isMessage, beq_iff_eq] at hmsg
    rw [Opts.masks, ho.actMask, hmsg]
    decide
  rw [hmasks, Bool.true_and, checkStopwatch_eq, ho.start, ho.stop]
  have hle := Word.le_max (bit.time - b.genesis)
  constructor
  · rintro ⟨-, hlt⟩
    exact hlt.ne
  · intro hne
    exact ⟨UInt64.le_iff_toNat_le.mpr (Nat.zero_le _), lt_of_le_of_ne hle hne⟩

/-- What is printed of the batches, and what there is to print. -/
theorem messageTexts_perm_iff {s : PipeState} (hdumps : (dumps s.events).Perm
      (s.batches.flatMap fun b => (b.selected o).map (relative b.genesis))) :
    (messageTexts s.events).Perm (s.batches.flatMap fun b => b.raw.filterMap messageText) ↔
      ∀ b ∈ s.batches, ∀ bit ∈ b.raw, (messageText bit).isSome →
        bit.time - b.genesis ≠ 0xffffffffffffffff := by
  have hprinted : (messageTexts s.events).Perm
      (s.batches.flatMap fun b => (b.selected o).filterMap messageText) := by
    refine (hdumps.filterMap messageText).trans (List.Perm.of_eq ?_)
    rw [List.filterMap_flatMap]
    refine List.flatMap_congr fun b _ => ?_
    rw [List.filterMap_map]
    rfl
  -- the records, each with its batch
  have hiff := filterMap_filter_perm_iff (s.batches.flatMap fun b => b.raw.map fun bit => (b, bit))
    (fun e => o.masks e.2 && !checkStopwatch o (relative e.1.genesis e.2)) (fun e => messageText e.2)
  have hselected : ((s.batches.flatMap fun b => b.raw.map fun bit => (b, bit)).filter fun e =>
        o.masks e.2 && !checkStopwatch o (relative e.1.genesis e.2)).filterMap (fun e => messageText e.2) =
      s.batches.flatMap fun b => (b.selected o).filterMap messageText := by
    rw [List.filter_flatMap, List.filterMap_flatMap]
    refine List.flatMap_congr fun b _ => ?_
    rw [List.filter_map, List.filterMap_map]
    rfl
  have hall : (s.batches.flatMap fun b => b.raw.map fun bit => (b, bit)).filterMap (fun e => messageText e.2) =
      s.batches.flatMap fun b => b.raw.filterMap messageText := by
    rw [List.filterMap_flatMap]
    refine List.flatMap_congr fun b _ => ?_
    rw [List.filterMap_map]
    rfl
  rw [hselected, hall] at hiff
  rw [hprinted.congr_left, hiff]
  simp only [List.mem_flatMap, List.mem_map]
  constructor
  · intro h b hb bit hbit hsome
    exact (selects_message ho hsome).mp (h (b, bit) ⟨b, hb, bit, hbit, rfl⟩ hsome)
  · rintro h _ ⟨b, hb, bit, hbit, rfl⟩ hsome
    exact (selects_message ho hsome).mpr (h b hb bit hbit hsome)

/-- **The dump is read again** just if it can be. -/
theorem reread_iff {x : TextOutput} {o' : Opts} {malloc : Nat → IoTrack} {behind : ℕ → List UInt8} {d : Dumper}
    {n : ℕ} {bits : List BlkIoTrace} (h : Parses events)
    (hwritten : d.written x o' malloc true behind n events = some bits) (find : Find) (names : ℕ) :
    Reread events (doPipe o find names (bits.map some)).events ↔ Rereadable o.rbBatch events bits := by
  obtain ⟨hnotifies, hmessages, hvalid⟩ := written_rewritten h.sound hwritten
  have hdone := doPipe_file ho find names hvalid
  have horigins := doPipe_origins o find names (bits.map some)
  have hdumps := doPipe_dumps o find names (bits.map some)
  have hheard : notified (doPipe o find names (bits.map some)).events =
      (notified events).map fun e => (true, e.2) := by
    rw [hdone.heard, hnotifies, List.map_map]
    rfl
  have htexts := (messageTexts_perm_iff ho hdumps).trans (hdone.edge_iff horigins)
  rw [hdone.texts_perm.congr_right, hmessages] at htexts
  constructor
  · rintro ⟨-, hstart, hperm⟩
    exact ⟨(startOf_iff hheard).mp hstart, htexts.mp hperm⟩
  · rintro ⟨hstamp, hedge⟩
    exact ⟨namesOf_eq hheard, (startOf_iff hheard).mpr hstamp, htexts.mpr hedge⟩

end

theorem reread_iff_stampAt :
    writtenBy noText (doPipe {} (fun _ _ _ => none) 0 [some (stampAt 5)]).events = some [stampAt 5] ∧
    (Reread (doPipe {} (fun _ _ _ => none) 0 [some (stampAt 5)]).events
        (doPipe {} (fun _ _ _ => none) 0 ([stampAt 5].map some)).events ↔
      Rereadable 512 (doPipe {} (fun _ _ _ => none) 0 [some (stampAt 5)]).events [stampAt 5]) := by
  have hwritten : writtenBy noText (doPipe {} (fun _ _ _ => none) 0 [some (stampAt 5)]).events =
      some [stampAt 5] := by decide
  have htakes : Opts.TakesAll {} := ⟨by decide, rfl, rfl, rfl⟩
  exact ⟨hwritten, reread_iff htakes (.pipe _ _ _ _) hwritten _ _⟩

/-- Ten seconds in the other byte order. -/
def otherStamp : BlkIoTrace := { stampAt 5 with pdu := [0, 0, 0, 10, 0, 0, 0, 0] }

/-- The header of the record is turned round before it is written, and its payload is not. -/
theorem not_reread :
    writtenBy noText (doPipe {} (fun _ _ _ => none) 0 [some (traceToCpu false otherStamp)]).events =
      some [otherStamp] ∧
    ¬ Reread (doPipe {} (fun _ _ _ => none) 0 [some (traceToCpu false otherStamp)]).events
      (doPipe {} (fun _ _ _ => none) 0 ([otherStamp].map some)).events := by
  refine ⟨by decide, fun hreread => ?_⟩
  exact absurd hreread.start (by decide)

end Blktrace.Blkparse
