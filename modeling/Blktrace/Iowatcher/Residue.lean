import Blktrace.Iowatcher.Seconds
import Blktrace.Iowatcher.InFlight

/-!
# What a trace leaves behind

`ios_in_flight` and the table of pending IOs outlive the trace that they were filled by. A trace shows what
was left before it as soon as it has a dispatch or a completion, and only then: a dispatch adds what is in
flight to the queue depth, and a completion finds a request that an earlier trace has dispatched.
-/

namespace Blktrace.Iowatcher

/-- The arrays that are drawn of a trace. -/
structure Series where
  tputWrites : UInt32 → GraphLinePair
  tputReads : UInt32 → GraphLinePair
  iop : UInt32 → GraphLinePair
  latency : UInt32 → GraphLinePair
  queueDepth : UInt32 → GraphLinePair

def Graphs.series (g : Graphs) : Series :=
  ⟨g.tputWrites.data, g.tputReads.data, g.iop.data, g.latency.data, g.queueDepth.data⟩

/-- The series of a trace that is read after others. -/
def seriesAfter (minSeconds maxSeconds : UInt32) (earlier : List (List UInt8)) (file : List UInt8) :
    Option Series :=
  ((readAllTraces minSeconds maxSeconds {} ((earlier ++ [file]).map readTrace)).getLast?).map Graphs.series

/-- The record is one of that action, not a notify, and not later than the last second. -/
def Moves (maxSeconds : UInt32) (action : BlkTa) (io : BlkIoTrace) : Prop :=
  seconds io.time ≤ maxSeconds.toUInt64 ∧ io.hasTc blkTcNotify = false ∧
    BlkTa.ofAction io.action = some action

instance (maxSeconds : UInt32) (action : BlkTa) (io : BlkIoTrace) : Decidable (Moves maxSeconds action io) := by
  unfold Moves
  infer_instance

/-- No dispatch and no completion. -/
def Quiet (maxSeconds : UInt32) (io : BlkIoTrace) : Prop :=
  ¬ Moves maxSeconds .issue io ∧ ¬ Moves maxSeconds .complete io

/-! ## The loop over a trace -/

section

variable (minSeconds maxSeconds : UInt32)

/-- The loop of `read_trace_events` over the records of a trace. -/
def readTraceEvents (s : Flight) (tf : TraceFile) : Flight × Graphs :=
  (exposed tf.file).foldl (addRecord tf.found maxSeconds)
    (s, setupGraphs (setMinmaxTf minSeconds maxSeconds tf.seconds))

/-- What is in flight after some traces. -/
def leftBy (s : Flight) (traces : List TraceFile) : Flight :=
  traces.foldl (fun s tf => (readTraceEvents minSeconds maxSeconds s tf).1) s

theorem readAllTraces_getLast? (s : Flight) (earlier : List TraceFile) (tf : TraceFile) :
    (readAllTraces minSeconds maxSeconds s (earlier ++ [tf])).getLast? =
      some (readTraceEvents minSeconds maxSeconds (leftBy minSeconds maxSeconds s earlier) tf).2 := by
  induction earlier generalizing s with
  | nil => rfl
  | cons first earlier ih =>
    rw [List.cons_append, readAllTraces, List.getLast?_cons, ← readTraceEvents, ih]
    rfl

theorem seriesAfter_eq (earlier : List (List UInt8)) (file : List UInt8) :
    seriesAfter minSeconds maxSeconds earlier file =
      some (readTraceEvents minSeconds maxSeconds
        (leftBy minSeconds maxSeconds {} (earlier.map readTrace)) (readTrace file)).2.series := by
  rw [seriesAfter, List.map_append, List.map_singleton, readAllTraces_getLast?]
  rfl

end

section

variable {found : Found} {maxSeconds : UInt32} {io : BlkIoTrace}

theorem addTput_others (g : Graphs) :
    (addIop found io (addTput found io g)).latency = g.latency ∧
      (addIop found io (addTput found io g)).queueDepth = g.queueDepth := by
  unfold addIop addTput
  dsimp only
  split_ifs <;> exact ⟨rfl, rfl⟩

theorem addRecord_late (hlate : maxSeconds.toUInt64 < seconds io.time) (s : Flight × Graphs) :
    addRecord found maxSeconds s io = s := if_pos hlate

theorem addRecord_track (hlate : ¬ maxSeconds.toUInt64 < seconds io.time) (s : Flight × Graphs) :
    addRecord found maxSeconds s io =
      track found (s.1, addIop found io (addTput found io s.2)) io := if_neg hlate

/-- A record that is no dispatch and no completion adds nothing that depends on what is in flight. -/
theorem track_quiet (hquiet : io.hasTc blkTcNotify = true ∨
      BlkTa.ofAction io.action ≠ some .issue ∧ BlkTa.ofAction io.action ≠ some .complete)
    (s : Flight × Graphs) : (track found s io).2 = s.2 := by
  rcases hquiet with hnotify | ⟨hissue, hcomplete⟩
  · rw [track_notify hnotify]
  · rw [track_of_ne hcomplete]
    unfold addPendingIo
    split
    · rfl
    split
    · split_ifs <;> rfl
    · rfl
    case h_3 hact => exact absurd hact hissue
    · rfl

theorem Quiet.cases (h : Quiet maxSeconds io) (hlate : ¬ maxSeconds.toUInt64 < seconds io.time) :
    io.hasTc blkTcNotify = true ∨
      BlkTa.ofAction io.action ≠ some .issue ∧ BlkTa.ofAction io.action ≠ some .complete := by
  have hin := UInt64.not_lt.mp hlate
  cases hnotify : io.hasTc blkTcNotify with
  | true => exact .inl rfl
  | false => exact .inr ⟨fun hact => h.1 ⟨hin, hnotify, hact⟩, fun hact => h.2 ⟨hin, hnotify, hact⟩⟩

/-- **A quiet trace** is drawn the same whatever was in flight before it. -/
theorem foldl_quiet {ios : List BlkIoTrace} (hquiet : ∀ io ∈ ios, Quiet maxSeconds io) (f f' : Flight)
    (g : Graphs) : (ios.foldl (addRecord found maxSeconds) (f, g)).2 =
      (ios.foldl (addRecord found maxSeconds) (f', g)).2 := by
  induction ios generalizing f f' g with
  | nil => rfl
  | cons io ios ih =>
    obtain ⟨hio, hios⟩ := List.forall_mem_cons.mp hquiet
    have hsame : (addRecord found maxSeconds (f, g) io).2 = (addRecord found maxSeconds (f', g) io).2 := by
      by_cases hlate : maxSeconds.toUInt64 < seconds io.time
      · rw [addRecord_late hlate, addRecord_late hlate]
      · rw [addRecord_track hlate, addRecord_track hlate, track_quiet (hio.cases hlate),
          track_quiet (hio.cases hlate)]
    rw [List.foldl_cons, List.foldl_cons]
    have hrest := ih hios (addRecord found maxSeconds (f, g) io).1 (addRecord found maxSeconds (f', g) io).1
      (addRecord found maxSeconds (f, g) io).2
    rw [Prod.mk.eta] at hrest
    rw [hrest, hsame]

/-! ## What a record does -/

/-- `if (ios_in_flight > 0) ios_in_flight--`, for the counter alone. -/
def fewer (n : UInt64) : UInt64 := if 0 < n then n - 1 else n

theorem leave_eq (table : List PendingIo) (n : UInt64) : (⟨table, n⟩ : Flight).leave = ⟨table, fewer n⟩ := by
  unfold Flight.leave fewer
  dsimp only
  split_ifs <;> rfl

/-- An array is changed, but two that differ in an entry do so afterwards. -/
def Adds (f : GraphLineData → GraphLineData) : Prop :=
  ∀ second, ∃ F : GraphLinePair → GraphLinePair, F.Injective ∧
    ∀ gld, (f gld).data second = F (gld.data second)

theorem adds_id : Adds id := fun _ => ⟨id, Function.injective_id, fun _ => rfl⟩

theorem adds_access (second : UInt32) {F : GraphLinePair → GraphLinePair} (h : F.Injective) :
    Adds fun gld => gld.access second F := by
  intro second'
  by_cases hsecond : second' = second
  · subst hsecond
    exact ⟨F, h, fun gld => Function.update_self _ _ _⟩
  · exact ⟨id, Function.injective_id, fun gld => Function.update_of_ne hsecond _ _⟩

/-- The latency of a completion that had been dispatched at the time. -/
def addLatency (io : BlkIoTrace) (dispatchTime : UInt64) (pair : GraphLinePair) : GraphLinePair :=
  if dispatchTime ≤ io.time then ⟨pair.count + 1, pair.sum + (io.time - dispatchTime)⟩ else pair

theorem addLatency_injective (io : BlkIoTrace) (dispatchTime : UInt64) :
    (addLatency io dispatchTime).Injective := by
  intro pair pair' h
  unfold addLatency at h
  split_ifs at h with hle
  · injection h with hcount hsum
    obtain ⟨count, sum⟩ := pair
    obtain ⟨count', sum'⟩ := pair'
    exact congrArg₂ _ (add_right_cancel hcount) (add_right_cancel hsum)
  · exact h

/-- What a record does to the table and to the latency does not depend on the counter, and only a dispatch
adds the counter to the queue depth. -/
theorem track_cases (found : Found) (io : BlkIoTrace) (table : List PendingIo) :
    (io.hasTc blkTcNotify = false ∧ BlkTa.ofAction io.action = some .issue ∧
      ∃ table', ∀ n g, track found (⟨table, n⟩, g) io =
        (⟨table', n + 1⟩, { g with queueDepth := g.queueDepth.access (ioSeconds io) fun pair =>
          ⟨pair.count + 1, pair.sum + (n + 1)⟩ })) ∨
      (¬ (io.hasTc blkTcNotify = false ∧ BlkTa.ofAction io.action = some .issue) ∧
        ∃ table' next latency, (next = id ∨ next = fewer) ∧ Adds latency ∧
          ∀ n g, track found (⟨table, n⟩, g) io =
            (⟨table', next n⟩, { g with latency := latency g.latency })) := by
  by_cases hnotify : io.hasTc blkTcNotify = true
  · right
    refine ⟨by simp [hnotify], table, id, id, .inl rfl, adds_id, fun n g => ?_⟩
    exact track_notify hnotify
  have hno : io.hasTc blkTcNotify = false := Bool.not_eq_true _ ▸ hnotify
  by_cases hissue : BlkTa.ofAction io.action = some .issue
  · left
    obtain ⟨table', htable⟩ := Option.isSome_iff_exists.mp (hashDispatchedIo_isSome io table)
    refine ⟨hno, hissue, if found.completion then table' else removeIo table' io, fun n g => ?_⟩
    rw [track_of_ne (by rw [hissue]; exact nofun), addPendingIo, if_neg hnotify, hissue]
    dsimp only
    rw [htable]
  right
  refine ⟨fun h => hissue h.2, ?_⟩
  by_cases hcomplete : BlkTa.ofAction io.action = some .complete
  · cases hsearch : ioHashTableSearch table io.sector io.device with
    | none =>
      refine ⟨table, id, id, .inl rfl, adds_id, fun n g => ?_⟩
      rw [track_complete hnotify hcomplete, hsearch]
      rfl
    | some pio =>
      refine ⟨removeIo table io, fewer, _, .inr rfl,
        adds_access (ioSeconds io) (addLatency_injective io pio.dispatchTime), fun n g => ?_⟩
      rw [track_complete hnotify hcomplete]
      dsimp only
      rw [hsearch, leave_eq]
      rfl
  by_cases hqueue : BlkTa.ofAction io.action = some .queue
  · refine ⟨if found.issue || found.completion then (hashQueuedIo table io).getD table else table, id, id,
      .inl rfl, adds_id, fun n g => ?_⟩
    rw [track_of_ne hcomplete, addPendingIo, if_neg hnotify, hqueue]
    dsimp only
    split_ifs <;> rfl
  by_cases hrequeue : BlkTa.ofAction io.action = some .requeue
  · refine ⟨table, fewer, id, .inr rfl, adds_id, fun n g => ?_⟩
    rw [track_of_ne hcomplete, addPendingIo, if_neg hnotify, hrequeue]
    dsimp only
    rw [leave_eq]
    rfl
  · refine ⟨table, id, id, .inl rfl, adds_id, fun n g => ?_⟩
    rw [(@track_other found {} _ io hnotify hqueue hissue hrequeue hcomplete).1]
    rfl

/-! ## One more in flight -/

/-- The dispatches of a second. -/
def depthCount (maxSeconds second : UInt32) (ios : List BlkIoTrace) : ℕ :=
  ios.countP fun io => decide (Moves maxSeconds .issue io) && ioSeconds io == second

theorem fewer_of_pos {n : UInt64} (hpos : 0 < n.toNat) : fewer n = n - 1 := by
  refine if_pos ?_
  rw [UInt64.lt_iff_toNat_lt]
  exact hpos

theorem add_ofNat_succ (sum d : UInt64) (k : ℕ) :
    sum + d + UInt64.ofNat (k + 1) = sum + (d + 1) + UInt64.ofNat k := by
  rw [UInt64.ofNat_add, add_assoc, add_assoc, add_assoc, add_comm (UInt64.ofNat k)]
  rfl

/-- Two runs of which one has one more in flight: while there are enough, each dispatch counts one more. -/
theorem foldl_apart (found : Found) (maxSeconds second : UInt32) (ios : List BlkIoTrace)
    (table : List PendingIo) {n : UInt64} (hmany : ios.length ≤ n.toNat)
    (hfew : n.toNat + ios.length < 2 ^ 64 - 1) {g g' : Graphs} {d : UInt64}
    (hsum : (g'.queueDepth.data second).sum = (g.queueDepth.data second).sum + d) :
    ((ios.foldl (addRecord found maxSeconds) (⟨table, n + 1⟩, g')).2.queueDepth.data second).sum =
      ((ios.foldl (addRecord found maxSeconds) (⟨table, n⟩, g)).2.queueDepth.data second).sum + d +
        UInt64.ofNat (depthCount maxSeconds second ios) := by
  induction ios generalizing table n g g' d with
  | nil =>
    rw [List.foldl_nil, List.foldl_nil, hsum]
    exact (add_zero _).symm
  | cons io ios ih =>
    rw [List.length_cons] at hmany hfew
    have hmore : (n + 1).toNat = n.toNat + 1 := by
      rw [UInt64.toNat_add, UInt64.toNat_one]
      exact Nat.mod_eq_of_lt (by omega)
    rw [List.foldl_cons, List.foldl_cons, depthCount]
    by_cases hlate : maxSeconds.toUInt64 < seconds io.time
    · have hnot : ¬ Moves maxSeconds .issue io := fun h => UInt64.not_le.mpr hlate h.1
      rw [addRecord_late hlate, addRecord_late hlate, List.countP_cons_of_neg (by simp [hnot])]
      exact ih table (by omega) (by omega) hsum
    rw [addRecord_track hlate, addRecord_track hlate]
    dsimp only
    generalize hg : addIop found io (addTput found io g) = gt
    generalize hg' : addIop found io (addTput found io g') = gt'
    have hdepth : (gt'.queueDepth.data second).sum = (gt.queueDepth.data second).sum + d := by
      rw [← hg, ← hg', (addTput_others g).2, (addTput_others g').2]
      exact hsum
    rcases track_cases found io table with ⟨hnotify, hact, table', htrack⟩ | ⟨hnot, table', next, latency,
      hnext, -, htrack⟩
    · have hmoves : Moves maxSeconds .issue io := ⟨UInt64.not_lt.mp hlate, hnotify, hact⟩
      rw [htrack, htrack]
      by_cases hsecond : ioSeconds io = second
      · subst hsecond
        rw [List.countP_cons_of_pos (by simp [hmoves]), add_ofNat_succ]
        refine ih table' (by omega) (by omega) ?_
        dsimp only [GraphLineData.access]
        rw [Function.update_self, Function.update_self, hdepth]
        exact add_add_add_comm _ _ _ _
      · rw [List.countP_cons_of_neg (by simp [hsecond])]
        refine ih table' (by omega) (by omega) ?_
        dsimp only [GraphLineData.access]
        rw [Function.update_of_ne (Ne.symm hsecond), Function.update_of_ne (Ne.symm hsecond)]
        exact hdepth
    · rw [List.countP_cons_of_neg (by simpa using fun h => absurd ⟨h.2.1, h.2.2⟩ hnot), htrack, htrack]
      rcases hnext with rfl | rfl
      · exact ih table' (by omega) (by omega) hdepth
      · have hback : n + 1 - 1 = n - 1 + 1 := by rw [add_sub_cancel_right, sub_add_cancel]
        have hone : (n - 1).toNat = n.toNat - 1 := by
          refine Word.toNat_sub_of_le (UInt64.le_iff_toNat_le.mpr ?_)
          rw [UInt64.toNat_one]
          omega
        rw [fewer_of_pos (by omega), fewer_of_pos (by omega), hback]
        exact ih table' (by omega) (by omega) hdepth

/-! ## A request left pending -/

/-- Two arrays of latencies that differ in an entry do so after the rest of the trace. -/
theorem foldl_latency (found : Found) (maxSeconds second : UInt32) (ios : List BlkIoTrace) (f : Flight)
    {g g' : Graphs} (hne : g.latency.data second ≠ g'.latency.data second) :
    (ios.foldl (addRecord found maxSeconds) (f, g)).2.latency.data second ≠
      (ios.foldl (addRecord found maxSeconds) (f, g')).2.latency.data second := by
  induction ios generalizing f g g' with
  | nil => exact hne
  | cons io ios ih =>
    rw [List.foldl_cons, List.foldl_cons]
    by_cases hlate : maxSeconds.toUInt64 < seconds io.time
    · rw [addRecord_late hlate, addRecord_late hlate]
      exact ih f hne
    rw [addRecord_track hlate, addRecord_track hlate]
    dsimp only
    generalize hg : addIop found io (addTput found io g) = gt
    generalize hg' : addIop found io (addTput found io g') = gt'
    have hnet : gt.latency.data second ≠ gt'.latency.data second := by
      rw [← hg, ← hg', (addTput_others g).1, (addTput_others g').1]
      exact hne
    obtain ⟨table, n⟩ := f
    rcases track_cases found io table with ⟨-, -, table', htrack⟩ | ⟨-, table', next, latency, -, hadds, htrack⟩
    · rw [htrack, htrack]
      exact ih _ hnet
    · rw [htrack, htrack]
      refine ih _ ?_
      obtain ⟨F, hF, hdata⟩ := hadds second
      dsimp only
      rw [hdata, hdata]
      exact hF.ne hnet

/-- A request whose dispatch an earlier trace has recorded. -/
def leftPending (k : Request) (time : UInt64) : PendingIo := ⟨k.1, k.2, time⟩

theorem search_pending (io : BlkIoTrace) (time : UInt64) (rest : List PendingIo) :
    ioHashTableSearch (leftPending (requestOf io) time :: rest) io.sector io.device =
      some (leftPending (requestOf io) time) := by
  refine List.find?_cons_of_pos ?_
  exact (isAt_eq (leftPending (requestOf io) time) (requestOf io)).trans (decide_eq_true rfl)

theorem search_pending_of_ne {k : Request} {io : BlkIoTrace} (hk : k ≠ requestOf io) (time : UInt64)
    (rest : List PendingIo) : ioHashTableSearch (leftPending k time :: rest) io.sector io.device =
      ioHashTableSearch rest io.sector io.device := by
  refine List.find?_cons_of_neg fun h => hk ?_
  exact of_decide_eq_true ((isAt_eq (leftPending k time) (requestOf io)).symm.trans h)

/-- It stays in front of what is queued. -/
theorem hashQueuedIo_pending (k : Request) (rest : List PendingIo) (io : BlkIoTrace) : ∃ rest', ∀ time,
    (hashQueuedIo (leftPending k time :: rest) io).getD (leftPending k time :: rest) =
      leftPending k time :: rest' := by
  unfold hashQueuedIo ioHashTableInsert
  dsimp only
  by_cases hk : k = requestOf io
  · refine ⟨rest, fun time => ?_⟩
    rw [hk, search_pending]
    rfl
  · cases hsearch : ioHashTableSearch rest io.sector io.device with
    | some pio =>
      refine ⟨rest, fun time => ?_⟩
      rw [search_pending_of_ne hk, hsearch]
      rfl
    | none =>
      refine ⟨rest ++ [{ sector := io.sector, device := io.device }], fun time => ?_⟩
      rw [search_pending_of_ne hk, hsearch]
      rfl

theorem track_pending (found : Found) {io : BlkIoTrace} (hquiet : io.hasTc blkTcNotify = true ∨
      BlkTa.ofAction io.action ≠ some .issue ∧ BlkTa.ofAction io.action ≠ some .complete)
    (k : Request) (rest : List PendingIo) (n : UInt64) : ∃ rest' n', ∀ time g,
      (track found (⟨leftPending k time :: rest, n⟩, g) io).1 = ⟨leftPending k time :: rest', n'⟩ := by
  rcases hquiet with hnotify | ⟨hissue, hcomplete⟩
  · exact ⟨rest, n, fun time g => by rw [track_notify hnotify]⟩
  by_cases hnotify : io.hasTc blkTcNotify = true
  · exact ⟨rest, n, fun time g => by rw [track_notify hnotify]⟩
  by_cases hqueue : BlkTa.ofAction io.action = some .queue
  · obtain ⟨rest', hrest⟩ := hashQueuedIo_pending k rest io
    by_cases hfound : (found.issue || found.completion) = true
    · refine ⟨rest', n, fun time g => ?_⟩
      rw [track_of_ne hcomplete, addPendingIo, if_neg hnotify, hqueue]
      dsimp only
      rw [if_pos hfound, hrest]
    · refine ⟨rest, n, fun time g => ?_⟩
      rw [track_of_ne hcomplete, addPendingIo, if_neg hnotify, hqueue]
      dsimp only
      rw [if_neg hfound]
  by_cases hrequeue : BlkTa.ofAction io.action = some .requeue
  · refine ⟨rest, fewer n, fun time g => ?_⟩
    rw [track_of_ne hcomplete, addPendingIo, if_neg hnotify, hrequeue]
    exact leave_eq _ n
  · refine ⟨rest, n, fun time g => ?_⟩
    rw [(@track_other found {} _ io hnotify hqueue hissue hrequeue hcomplete).1]

/-- While nothing is dispatched or completed it stays in front of the table. -/
theorem foldl_pending (found : Found) {maxSeconds : UInt32} {ios : List BlkIoTrace}
    (hquiet : ∀ io ∈ ios, Quiet maxSeconds io) (k : Request) (rest : List PendingIo) (n : UInt64) :
    ∃ rest' n', ∀ time g, ∃ g', g'.latency = g.latency ∧
      ios.foldl (addRecord found maxSeconds) (⟨leftPending k time :: rest, n⟩, g) =
        (⟨leftPending k time :: rest', n'⟩, g') := by
  induction ios generalizing rest n with
  | nil => exact ⟨rest, n, fun time g => ⟨g, rfl, rfl⟩⟩
  | cons io ios ih =>
    obtain ⟨hio, hios⟩ := List.forall_mem_cons.mp hquiet
    have hstep : ∃ rest' n', ∀ time g, ∃ g', g'.latency = g.latency ∧
        addRecord found maxSeconds (⟨leftPending k time :: rest, n⟩, g) io =
          (⟨leftPending k time :: rest', n'⟩, g') := by
      by_cases hlate : maxSeconds.toUInt64 < seconds io.time
      · exact ⟨rest, n, fun time g => ⟨g, rfl, addRecord_late hlate _⟩⟩
      · have hcases := hio.cases hlate
        obtain ⟨rest', n', htrack⟩ := track_pending found hcases k rest n
        refine ⟨rest', n', fun time g => ⟨addIop found io (addTput found io g), (addTput_others g).1, ?_⟩⟩
        rw [addRecord_track hlate]
        exact Prod.ext (htrack time _) (track_quiet hcases _)
    obtain ⟨rest', n', hstep⟩ := hstep
    obtain ⟨rest'', n'', hrest⟩ := ih hios rest' n'
    refine ⟨rest'', n'', fun time g => ?_⟩
    obtain ⟨g', hg', heq⟩ := hstep time g
    obtain ⟨g'', hg'', heq'⟩ := hrest time g'
    exact ⟨g'', hg''.trans hg', by rw [List.foldl_cons, heq, heq']⟩

/-- Its completion takes it away. -/
theorem addRecord_pending (found : Found) {maxSeconds : UInt32} {io : BlkIoTrace}
    (hio : Moves maxSeconds .complete io) (time : UInt64) (rest : List PendingIo) (n : UInt64) (g : Graphs) :
    (addRecord found maxSeconds (⟨leftPending (requestOf io) time :: rest, n⟩, g) io).1 = ⟨rest, fewer n⟩ ∧
      (addRecord found maxSeconds (⟨leftPending (requestOf io) time :: rest, n⟩, g) io).2.latency.data
        (ioSeconds io) = addLatency io time (g.latency.data (ioSeconds io)) := by
  obtain ⟨hin, hnotify, hact⟩ := hio
  rw [addRecord_track (UInt64.not_lt.mpr hin), track_complete (by simp [hnotify]) hact]
  dsimp only
  rw [search_pending, leave_eq, (addTput_others g).1]
  have hremove : removeIo (leftPending (requestOf io) time :: rest) io = rest := by
    refine List.eraseP_cons_of_pos ?_
    exact (isAt_eq (leftPending (requestOf io) time) (requestOf io)).trans (decide_eq_true rfl)
  constructor
  · dsimp only
    rw [hremove]
  · exact Function.update_self _ _ _

/-- The latencies since two times differ. -/
theorem addLatency_ne (io : BlkIoTrace) (pair : GraphLinePair) : addLatency io 0 pair ≠ addLatency io 1 pair := by
  unfold addLatency
  rw [if_pos UInt64.zero_le]
  intro h
  split_ifs at h with hone
  · injection h with _ hsum
    have hsub := add_left_cancel hsum
    rw [sub_zero] at hsub
    exact absurd (sub_eq_self.mp hsub.symm) (by decide)
  · exact absurd (add_eq_left.mp (congrArg GraphLinePair.count h)) (by decide)

/-- **A request left pending** by an earlier trace: its first completion in a trace without dispatches has a
latency that depends on when it was dispatched. -/
theorem pending_apart {found : Found} {maxSeconds : UInt32} {pre post : List BlkIoTrace} {io : BlkIoTrace}
    (hpre : ∀ io ∈ pre, Quiet maxSeconds io) (hio : Moves maxSeconds .complete io) (n : UInt64) (g : Graphs) :
    ((pre ++ io :: post).foldl (addRecord found maxSeconds)
        (⟨[leftPending (requestOf io) 0], n⟩, g)).2.latency.data (ioSeconds io) ≠
      ((pre ++ io :: post).foldl (addRecord found maxSeconds)
        (⟨[leftPending (requestOf io) 1], n⟩, g)).2.latency.data (ioSeconds io) := by
  obtain ⟨rest, n', hpending⟩ := foldl_pending found hpre (requestOf io) [] n
  obtain ⟨g₀, hg₀, heq₀⟩ := hpending 0 g
  obtain ⟨g₁, hg₁, heq₁⟩ := hpending 1 g
  obtain ⟨hflight₀, hlatency₀⟩ := addRecord_pending found hio 0 rest n' g₀
  obtain ⟨hflight₁, hlatency₁⟩ := addRecord_pending found hio 1 rest n' g₁
  rw [List.foldl_append, List.foldl_append, heq₀, heq₁, List.foldl_cons, List.foldl_cons]
  have hstate : ∀ s : Flight × Graphs, s.1 = ⟨rest, fewer n'⟩ → s = (⟨rest, fewer n'⟩, s.2) :=
    fun s hs => Prod.ext hs rfl
  rw [hstate _ hflight₀, hstate _ hflight₁]
  refine foldl_latency found maxSeconds _ post _ ?_
  rw [hlatency₀, hlatency₁, hg₀, hg₁]
  exact addLatency_ne io _

end

/-! ## Traces that leave something -/

theorem exposedFrom_fileOf {file : List UInt8} {t : BlkIoTrace} {ts : List BlkIoTrace} {cur fuel : ℕ}
    (hfile : file.drop cur = fileOf false (t :: ts)) (h : ∀ u ∈ t :: ts, u.Complete)
    (hfuel : ts.length < fuel) : exposedFrom file fuel cur = t :: ts := by
  induction ts generalizing t cur fuel with
  | nil =>
    obtain ⟨fuel, rfl⟩ := Nat.exists_eq_add_of_lt hfuel
    have ht := h t List.mem_cons_self
    rw [exposedFrom, ioAt_image ht hfile]
    rcases nextRecord_image ht hfile with ⟨-, hend⟩ | ⟨mid, hmid, hrest⟩
    · rw [hend]
    · obtain ⟨-, hin⟩ := nextRecord_lt hmid
      have hlen := List.drop_eq_nil_iff.mp hrest
      omega
  | cons u us ih =>
    obtain ⟨fuel, rfl⟩ : ∃ n, fuel = n + 1 := Nat.exists_eq_succ_of_ne_zero (Nat.ne_of_gt
      (Nat.zero_lt_of_lt hfuel))
    have ht := h t List.mem_cons_self
    rw [exposedFrom, ioAt_image ht hfile]
    rcases nextRecord_image ht hfile with ⟨hnil, -⟩ | ⟨mid, hmid, hrest⟩
    · have hlen := length_fileOf false (u :: us)
      have hzero : (fileOf false (u :: us)).length = 0 := congrArg List.length hnil
      rw [hzero] at hlen
      cases hlen
    · rw [hmid]
      exact congrArg _ (ih hrest (fun v hv => h v (List.mem_cons_of_mem t hv)) (Nat.lt_of_succ_lt_succ hfuel))

/-- The records of a file of complete records are gone through. -/
theorem exposed_fileOf {t : BlkIoTrace} {ts : List BlkIoTrace} (h : ∀ u ∈ t :: ts, u.Complete) :
    exposed (fileOf false (t :: ts)) = t :: ts := by
  exact exposedFrom_fileOf rfl h (length_fileOf false (t :: ts))

/-- A dispatch where nothing is pending. -/
theorem track_first {found : Found} {io : BlkIoTrace} (hnotify : io.hasTc blkTcNotify = false)
    (hact : BlkTa.ofAction io.action = some .issue) (n : UInt64) (g : Graphs) :
    (track found (⟨[], n⟩, g) io).1 =
      ⟨if found.completion then [leftPending (requestOf io) io.time] else [], n + 1⟩ := by
  have hat : ∀ time, (leftPending (requestOf io) time).isAt io.sector io.device = true :=
    fun time => (isAt_eq (leftPending (requestOf io) time) (requestOf io)).trans (decide_eq_true rfl)
  have hdispatched : hashDispatchedIo [] io = some [leftPending (requestOf io) io.time] := by
    show some [if (leftPending (requestOf io) 0).isAt io.sector io.device then _ else _] = _
    rw [if_pos (hat 0)]
    rfl
  have hremove : removeIo [leftPending (requestOf io) io.time] io = [] := List.eraseP_cons_of_pos (hat _)
  rw [track_of_ne (by rw [hact]; exact nofun), addPendingIo, if_neg (by simp [hnotify]), hact]
  dsimp only
  rw [hdispatched]
  dsimp only
  rw [hremove]

variable (minSeconds maxSeconds : UInt32)

/-- A trace with a dispatch and no completion. -/
def dispatchFile : List UInt8 := fileOf false [readIssue 0]

/-- It leaves one more in flight. -/
theorem dispatchFile_leaves (n : UInt64) :
    (readTraceEvents minSeconds maxSeconds ⟨[], n⟩ (readTrace dispatchFile)).1 = ⟨[], n + 1⟩ := by
  have hexposed : exposed dispatchFile = [readIssue 0] := exposed_fileOf (by decide)
  have hfound : (readTrace dispatchFile).found = ⟨true, false, false⟩ := by
    rw [readTrace, hexposed]
    decide
  rw [readTraceEvents, hfound, show (readTrace dispatchFile).file = dispatchFile from rfl, hexposed,
    List.foldl_cons, List.foldl_nil, addRecord_track (UInt64.not_lt.mpr UInt64.zero_le)]
  exact track_first (by decide) (by decide) n _

theorem dispatchFiles_leave (n : UInt64) (k : ℕ) :
    leftBy minSeconds maxSeconds ⟨[], n⟩ ((List.replicate k dispatchFile).map readTrace) =
      ⟨[], n + UInt64.ofNat k⟩ := by
  induction k generalizing n with
  | zero => exact congrArg _ (add_zero n).symm
  | succ k ih =>
    have hleaves := dispatchFile_leaves minSeconds maxSeconds n
    have hrest := ih (n + 1)
    unfold leftBy at hrest ⊢
    rw [List.replicate_succ, List.map_cons, List.foldl_cons, hleaves, hrest, add_assoc, UInt64.ofNat_add,
      add_comm (UInt64.ofNat k)]
    rfl

/-- A completion of the request. -/
def completionOf (k : Request) : BlkIoTrace := { readComplete 0 with sector := k.1, device := k.2 }

/-- Its dispatch. -/
def dispatchAt (k : Request) (time : UInt64) : BlkIoTrace :=
  { readIssue time with sector := k.1, device := k.2 }

theorem completionOf_moves (k : Request) : Moves maxSeconds .complete (completionOf k) := by
  have hnotify : (readComplete 0).hasTc blkTcNotify = false := by decide
  have hact : BlkTa.ofAction (readComplete 0).action = some .complete := by decide
  refine ⟨?_, hnotify, hact⟩
  show seconds 0 ≤ _
  exact UInt64.zero_le

theorem dispatchAt_moves (k : Request) {time : UInt64} (htime : seconds time = 0) :
    Moves maxSeconds .issue (dispatchAt k time) := by
  have hnotify : (readIssue 0).hasTc blkTcNotify = false := by decide
  have hact : BlkTa.ofAction (readIssue 0).action = some .issue := by decide
  refine ⟨?_, hnotify, hact⟩
  show seconds time ≤ _
  rw [htime]
  exact UInt64.zero_le

/-- A trace in which a request is completed that no one knows of, and then dispatched. -/
def pendingFile (k : Request) (time : UInt64) : List UInt8 :=
  fileOf false [completionOf k, dispatchAt k time]

/-- It leaves the request pending. -/
theorem pendingFile_leaves (k : Request) {time : UInt64} (htime : seconds time = 0) :
    (readTraceEvents minSeconds maxSeconds {} (readTrace (pendingFile k time))).1 =
      ⟨[leftPending k time], 1⟩ := by
  have hexposed : exposed (pendingFile k time) = [completionOf k, dispatchAt k time] := by
    refine exposed_fileOf fun u hu => ?_
    rcases List.mem_cons.mp hu with rfl | hu
    · rfl
    · rw [List.mem_singleton.mp hu]
      rfl
  obtain ⟨hin, hnotify, hact⟩ := completionOf_moves maxSeconds k
  obtain ⟨hin', hnotify', hact'⟩ := dispatchAt_moves maxSeconds k htime
  have hfound : (readTrace (pendingFile k time)).found.completion = true := by
    rw [readTrace, hexposed]
    exact completion_foldl (.inr ⟨_, List.mem_cons_self, hnotify, hact⟩)
  rw [readTraceEvents, show (readTrace (pendingFile k time)).file = pendingFile k time from rfl, hexposed,
    List.foldl_cons, List.foldl_cons, List.foldl_nil, addRecord_track (UInt64.not_lt.mpr hin),
    track_complete (by simp [hnotify]) hact, addRecord_track (UInt64.not_lt.mpr hin')]
  exact (track_first hnotify' hact' 0 _).trans (by rw [hfound]; rfl)

/-! ## The traces -/

theorem length_exposedFrom (file : List UInt8) (fuel cur : ℕ) : (exposedFrom file fuel cur).length ≤ fuel := by
  induction fuel generalizing cur with
  | zero => exact le_refl 0
  | succ fuel ih =>
    rw [exposedFrom, List.length_cons]
    cases nextRecord file cur with
    | none => exact Nat.succ_le_succ (Nat.zero_le fuel)
    | some next => exact Nat.succ_le_succ (ih next)

section

variable {minSeconds maxSeconds : UInt32} {file : List UInt8}
  (hsame : ∀ earlier : List (List UInt8), (∀ f ∈ earlier, f.length < 2 ^ 63) →
    seriesAfter minSeconds maxSeconds earlier file = seriesAfter minSeconds maxSeconds [] file)
include hsame

/-- The series are the same after any two lists of traces. -/
theorem series_eq {earlier earlier' : List (List UInt8)} (h : ∀ f ∈ earlier, f.length < 2 ^ 63)
    (h' : ∀ f ∈ earlier', f.length < 2 ^ 63) :
    (readTraceEvents minSeconds maxSeconds
        (leftBy minSeconds maxSeconds {} (earlier.map readTrace)) (readTrace file)).2.series =
      (readTraceEvents minSeconds maxSeconds
        (leftBy minSeconds maxSeconds {} (earlier'.map readTrace)) (readTrace file)).2.series := by
  have heq := (hsame earlier h).trans (hsame earlier' h').symm
  rw [seriesAfter_eq, seriesAfter_eq] at heq
  exact Option.some.inj heq

/-- A dispatch shows how many are in flight. -/
theorem not_issue_of_same (hlen : file.length < 2 ^ 63) {io : BlkIoTrace} (hio : io ∈ exposed file) :
    ¬ Moves maxSeconds .issue io := by
  intro hmoves
  have hfile : ∀ k, ∀ f ∈ List.replicate k dispatchFile, f.length < 2 ^ 63 := by
    intro k f hf
    rw [List.eq_of_mem_replicate hf]
    decide
  have hle : (exposed file).length ≤ file.length := length_exposedFrom file file.length 0
  have hdepth := congrArg (fun series => (series.queueDepth (ioSeconds io)).sum)
    (series_eq hsame (hfile (exposed file).length) (hfile ((exposed file).length + 1)))
  have hnat : (UInt64.ofNat (exposed file).length).toNat = (exposed file).length := by
    rw [UInt64.toNat_ofNat']
    exact Nat.mod_eq_of_lt (by omega)
  have hleft : ∀ k, leftBy minSeconds maxSeconds {} ((List.replicate k dispatchFile).map readTrace) =
      ⟨[], UInt64.ofNat k⟩ := by
    intro k
    rw [show ({} : Flight) = ⟨[], 0⟩ from rfl, dispatchFiles_leave, zero_add]
  rw [hleft, hleft, UInt64.ofNat_add] at hdepth
  have hapart := foldl_apart (readTrace file).found maxSeconds (ioSeconds io) (exposed file) []
    (le_of_eq hnat.symm) (by rw [hnat]; omega)
    (show ((setupGraphs (setMinmaxTf minSeconds maxSeconds (readTrace file).seconds)).queueDepth.data
      (ioSeconds io)).sum = _ + 0 from (add_zero _).symm)
  have hzero := left_eq_add.mp (hdepth.trans (hapart.trans (add_assoc _ _ _)))
  -- There is one in this second, and fewer than the sum has room for.
  have hpos : 0 < depthCount maxSeconds (ioSeconds io) (exposed file) :=
    List.countP_pos_iff.mpr ⟨io, hio, by simp [hmoves]⟩
  have hcount : depthCount maxSeconds (ioSeconds io) (exposed file) ≤ (exposed file).length :=
    List.countP_le_length
  have hword := congrArg UInt64.toNat hzero
  rw [zero_add, UInt64.toNat_ofNat', Nat.mod_eq_of_lt (by omega)] at hword
  exact hpos.ne' hword

/-- A completion shows what is pending. -/
theorem not_complete_of_same (hissue : ∀ io ∈ exposed file, ¬ Moves maxSeconds .issue io) {io : BlkIoTrace}
    (hio : io ∈ exposed file) : ¬ Moves maxSeconds .complete io := by
  intro hmoves
  obtain ⟨first, hfirst⟩ : ∃ first, (exposed file).find? (fun io => decide (Moves maxSeconds .complete io)) =
      some first := Option.isSome_iff_exists.mp (List.find?_isSome.mpr ⟨io, hio, decide_eq_true hmoves⟩)
  obtain ⟨hcomplete, pre, post, hios, hpre⟩ := List.find?_eq_some_iff_append.mp hfirst
  have hquiet : ∀ io ∈ pre, Quiet maxSeconds io := by
    intro io hio
    refine ⟨hissue io (hios ▸ List.mem_append_left _ hio), ?_⟩
    simpa using hpre io hio
  have hfile : ∀ time, ∀ f ∈ [pendingFile (requestOf first) time], f.length < 2 ^ 63 := by
    intro time f hf
    rw [List.mem_singleton.mp hf, pendingFile, fileOf_cons, fileOf_cons, fileOf_nil, List.append_nil,
      List.length_append, length_image, length_image]
    show traceSize + 0 + (traceSize + 0) < 2 ^ 63
    decide
  have hlatency := congrArg (fun series => series.latency (ioSeconds first))
    (series_eq hsame (hfile 0) (hfile 1))
  have hleft : ∀ time, seconds time = 0 →
      leftBy minSeconds maxSeconds {} ([pendingFile (requestOf first) time].map readTrace) =
        ⟨[leftPending (requestOf first) time], 1⟩ :=
    fun time htime => pendingFile_leaves minSeconds maxSeconds (requestOf first) htime
  rw [hleft 0 (by decide), hleft 1 (by decide), readTraceEvents, readTraceEvents,
    show (readTrace file).file = file from rfl, hios] at hlatency
  exact pending_apart hquiet (of_decide_eq_true hcomplete) 1 _ hlatency

end

/-- **Apart from other traces**: a trace is drawn the same whatever traces are read before it just if it has
no dispatch and no completion. -/
theorem alone_iff {file : List UInt8} (hlen : file.length < 2 ^ 63) :
    (∀ earlier : List (List UInt8), (∀ f ∈ earlier, f.length < 2 ^ 63) →
      seriesAfter minSeconds maxSeconds earlier file = seriesAfter minSeconds maxSeconds [] file) ↔
      ∀ io ∈ exposed file, Quiet maxSeconds io := by
  constructor
  · intro hsame io hio
    have hissue := fun io hio => @not_issue_of_same minSeconds maxSeconds file hsame hlen io hio
    exact ⟨hissue io hio, not_complete_of_same hsame hissue hio⟩
  · intro hquiet earlier _
    rw [seriesAfter_eq, seriesAfter_eq, readTraceEvents, readTraceEvents]
    exact congrArg (fun g => some g.series) (foldl_quiet hquiet _ _ _)

/-- A trace of one record that is queued. -/
theorem alone_iff_queued :
    (fileOf false [ioRecord 0 0 []]).length < 2 ^ 63 ∧
      ((∀ earlier : List (List UInt8), (∀ f ∈ earlier, f.length < 2 ^ 63) →
          seriesAfter 0 1 earlier (fileOf false [ioRecord 0 0 []]) =
            seriesAfter 0 1 [] (fileOf false [ioRecord 0 0 []])) ↔
        ∀ io ∈ exposed (fileOf false [ioRecord 0 0 []]), Quiet 1 io) :=
  ⟨by decide, alone_iff 0 1 (by decide)⟩

/-- A dispatch makes two in flight after another trace with one. -/
theorem not_alone : ¬ ∀ earlier : List (List UInt8), (∀ f ∈ earlier, f.length < 2 ^ 63) →
    seriesAfter 0 1 earlier dispatchFile = seriesAfter 0 1 [] dispatchFile := by
  intro h
  have hsame := congrArg (fun series => series.map fun series => series.queueDepth 0)
    (h [dispatchFile] (by rintro f hf; rw [List.mem_singleton.mp hf]; decide))
  revert hsame
  decide

end Blktrace.Iowatcher
