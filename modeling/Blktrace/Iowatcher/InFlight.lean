import Blktrace.Lib.Chains
import Blktrace.Lib.Runs
import Blktrace.Iowatcher.Events

/-!
# The requests in flight

What `ios_in_flight` and the table of pending IOs should say, and when they do. A dispatch is counted
even if the request is in flight already, a requeue even if it is not, and a completion takes a request
that was only queued for one that was dispatched at time 0.
-/

namespace Blktrace.Iowatcher

/-! ## The table -/

/-- A request: its sector and its device. -/
abbrev Request := UInt64 × UInt32

def requestOf (io : BlkIoTrace) : Request := (io.sector, io.device)

def PendingIo.request (pio : PendingIo) : Request := (pio.sector, pio.device)

/-- The dispatch time that the table has of a request. -/
def dispatchOf (table : List PendingIo) (k : Request) : Option UInt64 :=
  (ioHashTableSearch table k.1 k.2).map PendingIo.dispatchTime

/-- No request is in the table twice. -/
def OneEach (table : List PendingIo) : Prop := (table.map PendingIo.request).Nodup

section

variable {table : List PendingIo} {io : BlkIoTrace}

theorem isAt_eq (pio : PendingIo) (k : Request) : pio.isAt k.1 k.2 = decide (pio.request = k) := by
  rw [Bool.eq_iff_iff, decide_eq_true_iff, PendingIo.isAt, Bool.and_eq_true, beq_iff_eq, beq_iff_eq]
  exact (@Prod.ext_iff _ _ pio.request k).symm

theorem search_eq (table : List PendingIo) (k : Request) :
    ioHashTableSearch table k.1 k.2 = table.find? fun pio => decide (pio.request = k) :=
  congrArg (table.find? ·) (funext fun pio => isAt_eq pio k)

theorem search_eq_none (k : Request) : ioHashTableSearch table k.1 k.2 = none ↔ dispatchOf table k = none := by
  rw [dispatchOf, Option.map_eq_none_iff]

/-- A request that is not in the table is put there. -/
theorem insert_spec (honce : OneEach table) (pio : PendingIo) (hnone : dispatchOf table pio.request = none) :
    ioHashTableInsert table pio = some (table ++ [pio]) ∧ OneEach (table ++ [pio]) ∧
      dispatchOf (table ++ [pio]) =
        Function.update (dispatchOf table) pio.request (some pio.dispatchTime) := by
  rw [← search_eq_none] at hnone
  refine ⟨?_, ?_, ?_⟩
  · rw [ioHashTableInsert, show ioHashTableSearch table pio.sector pio.device = none from hnone]
    rfl
  · rw [OneEach, List.map_append, List.nodup_append]
    refine ⟨honce, List.nodup_singleton _, fun k hk k' hk' => ?_⟩
    rw [List.mem_singleton.mp hk']
    rintro rfl
    obtain ⟨pio', hmem, hkey⟩ := List.mem_map.mp hk
    rw [search_eq, List.find?_eq_none] at hnone
    exact hnone pio' hmem (decide_eq_true hkey)
  · funext k
    rw [dispatchOf, search_eq, List.find?_append, ← search_eq]
    by_cases hk : k = pio.request
    · subst hk
      rw [Function.update_self, hnone, List.find?_cons_of_pos (by simp)]
      rfl
    · rw [Function.update_of_ne hk, List.find?_cons_of_neg (by simpa using Ne.symm hk), List.find?_nil,
        Option.or_none]
      rfl

/-- `hash_queued_io` puts a request into the table, unless it is there. -/
theorem hashQueuedIo_spec (honce : OneEach table) :
    OneEach ((hashQueuedIo table io).getD table) ∧
      dispatchOf ((hashQueuedIo table io).getD table) =
        Function.update (dispatchOf table) (requestOf io)
          (some ((dispatchOf table (requestOf io)).getD 0)) := by
  cases hdispatch : dispatchOf table (requestOf io) with
  | none =>
    obtain ⟨hinsert, honce', hview⟩ :=
      insert_spec honce { sector := io.sector, device := io.device } hdispatch
    rw [hashQueuedIo, hinsert]
    exact ⟨honce', hview⟩
  | some time =>
    have hsome : (ioHashTableSearch table io.sector io.device).isSome := by
      obtain ⟨pio, hpio, -⟩ := Option.map_eq_some_iff.mp hdispatch
      exact Option.isSome_of_eq_some hpio
    rw [hashQueuedIo, ioHashTableInsert, if_pos hsome]
    exact ⟨honce, (Function.update_eq_self_iff.mpr hdispatch.symm).symm⟩

/-- The time of a request that is in the table is set. -/
theorem setTime_spec (honce : OneEach table) (hmem : (dispatchOf table (requestOf io)).isSome) :
    OneEach (table.map fun pio =>
        if pio.isAt io.sector io.device then { pio with dispatchTime := io.time } else pio) ∧
      dispatchOf (table.map fun pio =>
        if pio.isAt io.sector io.device then { pio with dispatchTime := io.time } else pio) =
        Function.update (dispatchOf table) (requestOf io) (some io.time) := by
  have hrequest : ∀ pio : PendingIo, PendingIo.request
      (if pio.isAt io.sector io.device then { pio with dispatchTime := io.time } else pio) = pio.request := by
    intro pio
    split_ifs <;> rfl
  constructor
  · rw [OneEach, List.map_map]
    exact (congrArg List.Nodup (List.map_congr_left fun pio _ => hrequest pio)).mpr honce
  · funext k
    rw [dispatchOf, search_eq, List.find?_map]
    have hsame : ((fun pio => decide (pio.request = k)) ∘ fun pio : PendingIo =>
        if pio.isAt io.sector io.device then { pio with dispatchTime := io.time } else pio) =
          fun pio => decide (pio.request = k) := by
      funext pio
      exact congrArg (fun r => decide (r = k)) (hrequest pio)
    rw [hsame, ← search_eq]
    by_cases hk : k = requestOf io
    · subst hk
      obtain ⟨pio, hpio, -⟩ := Option.map_eq_some_iff.mp (Option.eq_some_of_isSome hmem)
      have hat := List.find?_some hpio
      replace hat : pio.isAt io.sector io.device = true := hat
      rw [Function.update_self, hpio]
      show some (PendingIo.dispatchTime (if pio.isAt io.sector io.device then _ else pio)) = _
      rw [if_pos hat]
    · rw [Function.update_of_ne hk, Option.map_map]
      unfold dispatchOf
      cases hsearch : ioHashTableSearch table k.1 k.2 with
      | none => rfl
      | some pio =>
        have hat := List.find?_some hsearch
        rw [isAt_eq, decide_eq_true_iff] at hat
        have hnot : pio.isAt io.sector io.device = false := by
          rw [show pio.isAt io.sector io.device = decide (pio.request = requestOf io) from
            isAt_eq pio (requestOf io), hat]
          exact decide_eq_false hk
        show some (PendingIo.dispatchTime (if pio.isAt io.sector io.device then _ else pio)) = _
        rw [hnot]
        rfl

/-- `hash_dispatched_io` has a request in the table with its time. -/
theorem hashDispatchedIo_spec (honce : OneEach table) :
    ∃ table', hashDispatchedIo table io = some table' ∧ OneEach table' ∧
      dispatchOf table' = Function.update (dispatchOf table) (requestOf io) (some io.time) := by
  unfold hashDispatchedIo
  cases hsearch : ioHashTableSearch table io.sector io.device with
  | some pio =>
    have hmem : (dispatchOf table (requestOf io)).isSome := by
      rw [dispatchOf, show ioHashTableSearch table (requestOf io).1 (requestOf io).2 = some pio from hsearch]
      rfl
    exact ⟨_, rfl, setTime_spec honce hmem⟩
  | none =>
    obtain ⟨hinsert, honce', hview⟩ :=
      insert_spec honce { sector := io.sector, device := io.device } ((search_eq_none _).mp hsearch)
    dsimp only
    rw [hashQueuedIo, hinsert]
    have hview' : dispatchOf (table ++ [{ sector := io.sector, device := io.device }]) =
      Function.update (dispatchOf table) (requestOf io) (some 0) := hview
    obtain ⟨honce'', hview''⟩ := @setTime_spec _ io honce' (by rw [hview', Function.update_self]; rfl)
    refine ⟨_, rfl, honce'', ?_⟩
    rw [hview'', hview', Function.update_idem]

/-- The IO that was found is taken out. -/
theorem removeIo_spec (honce : OneEach table) :
    OneEach (removeIo table io) ∧
      dispatchOf (removeIo table io) = Function.update (dispatchOf table) (requestOf io) none := by
  have herase : removeIo table io = table.eraseP fun pio => decide (pio.request = requestOf io) :=
    congrArg (table.eraseP ·) (funext fun pio => isAt_eq pio (requestOf io))
  rw [herase]
  refine ⟨honce.sublist (List.eraseP_sublist.map _), funext fun k => ?_⟩
  rw [dispatchOf, search_eq]
  by_cases hk : k = requestOf io
  · subst hk
    rw [Function.update_self, Chains.find?_eraseP_self honce]
    rfl
  · rw [Function.update_of_ne hk, Chains.find?_eraseP_of_ne hk, ← search_eq]
    rfl

end

/-! ## Requests -/

/-- How far a request has come since its last completion. -/
inductive Stage
  | none
  | queued
  | dispatched (time : UInt64)
deriving DecidableEq

/-- What has been recorded of all requests, and those that are in flight. -/
structure Requests where
  stage : Request → Stage := fun _ => .none
  flying : Finset Request := ∅

/-- One more record. -/
def Requests.next (r : Requests) (io : BlkIoTrace) : Requests :=
  if io.hasTc blkTcNotify then r
  else
    match BlkTa.ofAction io.action with
    | some .queue =>
      { r with
        stage := Function.update r.stage (requestOf io)
          (if r.stage (requestOf io) = .none then .queued else r.stage (requestOf io)) }
    | some .issue =>
      { stage := Function.update r.stage (requestOf io) (.dispatched io.time)
        flying := insert (requestOf io) r.flying }
    | some .requeue => { r with flying := r.flying.erase (requestOf io) }
    | some .complete =>
      { stage := Function.update r.stage (requestOf io) .none
        flying := r.flying.erase (requestOf io) }
    | _ => r

/-- The latency that a record is a sample of: that of a completion whose request was dispatched. -/
def Requests.sample (r : Requests) (io : BlkIoTrace) : Option UInt64 :=
  if io.hasTc blkTcNotify then none
  else
    match BlkTa.ofAction io.action, r.stage (requestOf io) with
    | some .complete, .dispatched time => some (io.time - time)
    | _, _ => none

/-- A dispatch is of a request that is not in flight, a requeue of one that is, or of none at all; a
completion is of a request that is in flight too, unless nothing is, and not earlier than its dispatch, or
of one that nothing was recorded of. -/
def Requests.Suits (r : Requests) (io : BlkIoTrace) : Prop :=
  if io.hasTc blkTcNotify then True
  else
    match BlkTa.ofAction io.action, r.stage (requestOf io) with
    | some .issue, _ => requestOf io ∉ r.flying ∧ r.flying.card + 1 < 2 ^ 64
    | some .requeue, _ => requestOf io ∈ r.flying ∨ r.flying = ∅
    | some .complete, .queued => False
    | some .complete, .dispatched time => (requestOf io ∈ r.flying ∨ r.flying = ∅) ∧ time ≤ io.time
    | _, _ => True

/-- What `read_trace_events` has done of a record for the requests. -/
def track (found : Found) (s : Flight × Graphs) (io : BlkIoTrace) : Flight × Graphs :=
  addCompletedIo io (addPendingIo found io s)

/-- After the record the counter is the number of requests in flight, and the latency array has got the
sample of the record, if it is one of any. -/
def Requests.Right (found : Found) (r : Requests) (s : Flight × Graphs) (io : BlkIoTrace) : Prop :=
  (track found s io).1.iosInFlight.toNat = (r.next io).flying.card ∧
    (track found s io).2.latency.data =
      match r.sample io with
      | some latency => Function.update s.2.latency.data (ioSeconds io)
          ⟨(s.2.latency.data (ioSeconds io)).count + 1, (s.2.latency.data (ioSeconds io)).sum + latency⟩
      | none => s.2.latency.data

/-- The dispatch time in the table of a request at that stage. -/
def Stage.dispatchTime : Stage → Option UInt64
  | .none => Option.none
  | .queued => some 0
  | .dispatched time => some time

/-- The table says how far the requests have come. -/
structure Tabled (r : Requests) (s : Flight) : Prop where
  once : OneEach s.ioHashTable
  dispatch : ∀ k, dispatchOf s.ioHashTable k = (r.stage k).dispatchTime
  flying : ∀ k ∈ r.flying, ∃ time, r.stage k = .dispatched time

section

variable {found : Found} (hfound : found.completion = true) {r : Requests} {s : Flight × Graphs}
  {io : BlkIoTrace}

theorem toNat_leave (s : Flight) : s.leave.iosInFlight.toNat = s.iosInFlight.toNat - 1 := by
  unfold Flight.leave
  split_ifs with hpos
  · have hone : (1 : UInt64) ≤ s.iosInFlight := by
      rw [UInt64.le_iff_toNat_le]
      exact UInt64.lt_iff_toNat_lt.mp hpos
    exact Word.toNat_sub_of_le hone
  · have hzero : s.iosInFlight.toNat = 0 := by
      rw [UInt64.lt_iff_toNat_lt] at hpos
      exact Nat.eq_zero_of_not_pos hpos
    rw [hzero]

theorem ioHashTable_leave (s : Flight) : s.leave.ioHashTable = s.ioHashTable := by
  unfold Flight.leave
  split_ifs <;> rfl

/-- One fewer is one fewer in flight just for one that is, or where none is. -/
theorem card_pred_iff (flying : Finset Request) (k : Request) :
    flying.card - 1 = (flying.erase k).card ↔ k ∈ flying ∨ flying = ∅ := by
  by_cases hk : k ∈ flying
  · rw [Finset.card_erase_of_mem hk]
    exact iff_of_true rfl (.inl hk)
  · rw [Finset.erase_eq_of_notMem hk, or_iff_right hk, ← Finset.card_eq_zero]
    omega

theorem track_of_ne (hact : BlkTa.ofAction io.action ≠ some .complete) :
    track found s io = addPendingIo found io s := by
  unfold track addCompletedIo
  rw [if_pos hact]
  split_ifs <;> rfl

theorem track_notify (hnotify : io.hasTc blkTcNotify = true) : track found s io = s := by
  unfold track addCompletedIo addPendingIo
  rw [if_pos hnotify, if_pos hnotify]

theorem track_complete (hnotify : ¬ io.hasTc blkTcNotify = true)
    (hact : BlkTa.ofAction io.action = some .complete) : track found s io =
      match ioHashTableSearch s.1.ioHashTable io.sector io.device with
      | none => s
      | some pio =>
        ({ s.1.leave with ioHashTable := removeIo s.1.ioHashTable io },
          { s.2 with
            latency := s.2.latency.access (ioSeconds io) fun pair =>
              if pio.dispatchTime ≤ io.time then ⟨pair.count + 1, pair.sum + (io.time - pio.dispatchTime)⟩
              else pair }) := by
  have hpending : addPendingIo found io s = s := by
    unfold addPendingIo
    rw [if_neg hnotify, hact]
  exact (congrArg (addCompletedIo io) hpending).trans
    ((if_neg hnotify).trans (if_neg (not_not.mpr hact)))

include hfound in
/-- A request is queued. -/
theorem track_queue (h : Tabled r s.1) (hnotify : ¬ io.hasTc blkTcNotify = true)
    (hact : BlkTa.ofAction io.action = some .queue) :
    Tabled (r.next io) (track found s io).1 ∧ (r.next io).flying = r.flying ∧
      (track found s io).1.iosInFlight = s.1.iosInFlight ∧ (track found s io).2 = s.2 := by
  obtain ⟨honce, hview⟩ := @hashQueuedIo_spec _ io h.once
  have htrack : track found s io =
      ({ s.1 with ioHashTable := (hashQueuedIo s.1.ioHashTable io).getD s.1.ioHashTable }, s.2) := by
    rw [track_of_ne (by rw [hact]; exact nofun), addPendingIo, if_neg hnotify, hact]
    dsimp only
    rw [hfound, Bool.or_true, if_pos rfl]
  rw [htrack, Requests.next, if_neg hnotify, hact]
  refine ⟨⟨honce, fun k => ?_, fun k hk => ?_⟩, rfl, rfl, rfl⟩
  · dsimp only
    rw [hview]
    by_cases hk : k = requestOf io
    · subst hk
      rw [Function.update_self, Function.update_self, h.dispatch]
      cases r.stage (requestOf io) <;> rfl
    · rw [Function.update_of_ne hk, Function.update_of_ne hk, h.dispatch]
  · obtain ⟨time, htime⟩ := h.flying k hk
    refine ⟨time, ?_⟩
    dsimp only
    by_cases hkey : k = requestOf io
    · subst hkey
      rw [Function.update_self, htime]
      rfl
    · rw [Function.update_of_ne hkey, htime]

include hfound in
/-- A request is dispatched. -/
theorem track_issue (h : Tabled r s.1) (hnotify : ¬ io.hasTc blkTcNotify = true)
    (hact : BlkTa.ofAction io.action = some .issue) :
    Tabled (r.next io) (track found s io).1 ∧ (r.next io).flying = insert (requestOf io) r.flying ∧
      (track found s io).1.iosInFlight = s.1.iosInFlight + 1 ∧
      (track found s io).2.latency = s.2.latency := by
  obtain ⟨table, htable, honce, hview⟩ := @hashDispatchedIo_spec _ io h.once
  rw [track_of_ne (by rw [hact]; exact nofun), addPendingIo, if_neg hnotify, Requests.next, if_neg hnotify,
    hact]
  dsimp only
  rw [htable]
  dsimp only
  rw [hfound, if_pos rfl]
  refine ⟨⟨honce, fun k => ?_, fun k hk => ?_⟩, rfl, rfl, rfl⟩
  · dsimp only
    rw [hview]
    by_cases hk : k = requestOf io
    · subst hk
      rw [Function.update_self, Function.update_self]
      rfl
    · rw [Function.update_of_ne hk, Function.update_of_ne hk, h.dispatch]
  · dsimp only at hk ⊢
    by_cases hkey : k = requestOf io
    · subst hkey
      exact ⟨io.time, Function.update_self _ _ _⟩
    · rw [Function.update_of_ne hkey]
      exact h.flying k (Finset.mem_of_mem_insert_of_ne hk hkey)

/-- A request is requeued. -/
theorem track_requeue (h : Tabled r s.1) (hnotify : ¬ io.hasTc blkTcNotify = true)
    (hact : BlkTa.ofAction io.action = some .requeue) :
    Tabled (r.next io) (track found s io).1 ∧ (r.next io).flying = r.flying.erase (requestOf io) ∧
      (track found s io).1.iosInFlight = s.1.leave.iosInFlight ∧ (track found s io).2 = s.2 := by
  rw [track_of_ne (by rw [hact]; exact nofun), addPendingIo, if_neg hnotify, Requests.next, if_neg hnotify,
    hact]
  refine ⟨⟨?_, fun k => ?_, fun k hk => h.flying k (Finset.mem_of_mem_erase hk)⟩, rfl, rfl, rfl⟩
  · dsimp only
    rw [ioHashTable_leave]
    exact h.once
  · dsimp only
    rw [ioHashTable_leave]
    exact h.dispatch k

/-- A request is completed: one that the table does not have, or one that it has. -/
theorem track_completes (h : Tabled r s.1) (hnotify : ¬ io.hasTc blkTcNotify = true)
    (hact : BlkTa.ofAction io.action = some .complete) :
    Tabled (r.next io) (track found s io).1 ∧ (r.next io).flying = r.flying.erase (requestOf io) ∧
      match (r.stage (requestOf io)).dispatchTime with
      | none => requestOf io ∉ r.flying ∧ track found s io = s
      | some time => (track found s io).1.iosInFlight = s.1.leave.iosInFlight ∧
          (track found s io).2.latency.data = Function.update s.2.latency.data (ioSeconds io)
            (if time ≤ io.time then ⟨(s.2.latency.data (ioSeconds io)).count + 1,
              (s.2.latency.data (ioSeconds io)).sum + (io.time - time)⟩
            else s.2.latency.data (ioSeconds io)) := by
  have hview := h.dispatch (requestOf io)
  have hlanded : ∀ k ∈ r.flying.erase (requestOf io), ∃ time,
      Function.update r.stage (requestOf io) .none k = .dispatched time := by
    intro k hk
    rw [Function.update_of_ne (Finset.ne_of_mem_erase hk)]
    exact h.flying k (Finset.mem_of_mem_erase hk)
  have hstage : ∀ k, (Function.update r.stage (requestOf io) .none k).dispatchTime =
      Function.update (dispatchOf s.1.ioHashTable) (requestOf io) none k := by
    intro k
    by_cases hk : k = requestOf io
    · subst hk
      rw [Function.update_self, Function.update_self]
      rfl
    · rw [Function.update_of_ne hk, Function.update_of_ne hk, h.dispatch]
  rw [track_complete hnotify hact, Requests.next, if_neg hnotify, hact]
  cases hsearch : ioHashTableSearch s.1.ioHashTable io.sector io.device with
  | none =>
    rw [(search_eq_none (requestOf io)).mp hsearch] at hview
    refine ⟨⟨h.once, fun k => ?_, hlanded⟩, rfl, ?_⟩
    · rw [hstage, Function.update_eq_self_iff.mpr ((search_eq_none (requestOf io)).mp hsearch).symm]
    · rw [← hview]
      refine ⟨fun hflying => ?_, rfl⟩
      obtain ⟨time, htime⟩ := h.flying _ hflying
      rw [htime] at hview
      nomatch hview
  | some pio =>
    have hpio : dispatchOf s.1.ioHashTable (requestOf io) = some pio.dispatchTime := by
      rw [dispatchOf, show ioHashTableSearch s.1.ioHashTable (requestOf io).1 (requestOf io).2 = some pio
        from hsearch]
      rfl
    obtain ⟨honce, hremove⟩ := @removeIo_spec _ io h.once
    rw [hpio] at hview
    refine ⟨⟨honce, fun k => ?_, hlanded⟩, rfl, ?_⟩
    · rw [hstage, ← hremove]
    · rw [← hview]
      exact ⟨rfl, rfl⟩

/-- The other records are passed over. -/
theorem track_other (hnotify : ¬ io.hasTc blkTcNotify = true)
    (hqueue : BlkTa.ofAction io.action ≠ some .queue)
    (hissue : BlkTa.ofAction io.action ≠ some .issue) (hrequeue : BlkTa.ofAction io.action ≠ some .requeue)
    (hcomplete : BlkTa.ofAction io.action ≠ some .complete) :
    track found s io = s ∧ r.next io = r ∧ r.sample io = none ∧ r.Suits io := by
  refine ⟨?_, ?_, ?_, ?_⟩
  · rw [track_of_ne hcomplete, addPendingIo, if_neg hnotify]
    split
    case h_1 hact => exact absurd hact hqueue
    case h_2 hact => exact absurd hact hrequeue
    case h_3 hact => exact absurd hact hissue
    case h_4 => rfl
  · rw [Requests.next, if_neg hnotify]
    split
    case h_1 hact => exact absurd hact hqueue
    case h_2 hact => exact absurd hact hissue
    case h_3 hact => exact absurd hact hrequeue
    case h_4 hact => exact absurd hact hcomplete
    case h_5 => rfl
  · rw [Requests.sample, if_neg hnotify]
    split
    case h_1 hact _ => exact absurd hact hcomplete
    case h_2 => rfl
  · rw [Requests.Suits, if_neg hnotify]
    split
    case h_1 hact => exact absurd hact hissue
    case h_2 hact => exact absurd hact hrequeue
    case h_3 hact _ => exact absurd hact hcomplete
    case h_4 hact _ => exact absurd hact hcomplete
    case h_5 => exact trivial

/-- A sample is not nothing. -/
theorem update_ne_self (data : UInt32 → GraphLinePair) (second : UInt32) (sum : UInt64) :
    Function.update data second ⟨(data second).count + 1, sum⟩ ≠ data := by
  intro h
  have hcount := congrArg GraphLinePair.count (Function.update_eq_self_iff.mp h)
  have hone : (1 : UInt64) = 0 := left_eq_add.mp hcount.symm
  exact absurd hone (by decide)

include hfound in
/-- **A record** is taken note of as it should be just if it suits what came before it. -/
theorem Tabled.right_iff (h : Tabled r s.1) (hcount : s.1.iosInFlight.toNat = r.flying.card) :
    Tabled (r.next io) (track found s io).1 ∧ (r.Right found s io ↔ r.Suits io) := by
  by_cases hnotify : io.hasTc blkTcNotify = true
  · have hnext : r.next io = r := if_pos hnotify
    have hsample : r.sample io = none := if_pos hnotify
    rw [hnext, track_notify hnotify, Requests.Right, hnext, hsample, track_notify hnotify, Requests.Suits,
      if_pos hnotify]
    exact ⟨h, iff_of_true ⟨hcount, rfl⟩ trivial⟩
  by_cases hqueue : BlkTa.ofAction io.action = some .queue
  · obtain ⟨htabled, hflying, hinflight, hgraphs⟩ := track_queue hfound h hnotify hqueue
    refine ⟨htabled, iff_of_true ⟨?_, ?_⟩ ?_⟩
    · rw [hinflight, hflying, hcount]
    · rw [hgraphs, Requests.sample, if_neg hnotify, hqueue]
    · rw [Requests.Suits, if_neg hnotify, hqueue]
      trivial
  by_cases hissue : BlkTa.ofAction io.action = some .issue
  · obtain ⟨htabled, hflying, hinflight, hlatency⟩ := track_issue hfound h hnotify hissue
    refine ⟨htabled, ?_⟩
    rw [Requests.Right, hinflight, hflying, hlatency, Requests.sample, if_neg hnotify, hissue, Requests.Suits,
      if_neg hnotify, hissue, UInt64.toNat_add, UInt64.toNat_one, hcount]
    dsimp only
    rw [and_iff_left rfl]
    have hbound := s.1.iosInFlight.toNat_lt
    rw [hcount] at hbound
    by_cases hmem : requestOf io ∈ r.flying
    · rw [Finset.insert_eq_of_mem hmem]
      refine iff_of_false (fun heq => ?_) fun hsuits => hsuits.1 hmem
      rcases Nat.lt_or_ge (r.flying.card + 1) (2 ^ 64) with hlt | hge
      · rw [Nat.mod_eq_of_lt hlt] at heq
        exact absurd heq (Nat.succ_ne_self _)
      · have hfull : r.flying.card + 1 = 2 ^ 64 := le_antisymm hbound hge
        rw [hfull, Nat.mod_self] at heq
        omega
    · rw [Finset.card_insert_of_notMem hmem, and_iff_right hmem]
      constructor
      · intro heq
        rw [← heq]
        exact Nat.mod_lt _ (by norm_num)
      · exact Nat.mod_eq_of_lt
  by_cases hrequeue : BlkTa.ofAction io.action = some .requeue
  · obtain ⟨htabled, hflying, hinflight, hgraphs⟩ := @track_requeue found r s io h hnotify hrequeue
    refine ⟨htabled, ?_⟩
    rw [Requests.Right, hinflight, hflying, hgraphs, Requests.sample, if_neg hnotify, hrequeue, Requests.Suits,
      if_neg hnotify, hrequeue, toNat_leave, hcount, card_pred_iff]
    exact and_iff_left rfl
  by_cases hcomplete : BlkTa.ofAction io.action = some .complete
  · obtain ⟨htabled, hflying, hdone⟩ := @track_completes found r s io h hnotify hcomplete
    refine ⟨htabled, ?_⟩
    rw [Requests.Right, hflying, Requests.sample, if_neg hnotify, hcomplete, Requests.Suits, if_neg hnotify,
      hcomplete]
    cases hstage : r.stage (requestOf io) with
    | none =>
      rw [hstage] at hdone
      obtain ⟨hnot, hsame⟩ := hdone
      rw [hsame, Finset.erase_eq_of_notMem hnot]
      exact iff_of_true ⟨hcount, rfl⟩ trivial
    | queued =>
      rw [hstage] at hdone
      obtain ⟨-, hdata⟩ := hdone
      refine iff_of_false (fun hright => ?_) id
      have hsame := hright.2
      rw [hdata, if_pos UInt64.zero_le] at hsame
      exact update_ne_self _ _ _ hsame
    | dispatched time =>
      rw [hstage] at hdone
      obtain ⟨hinflight, hdata⟩ := hdone
      rw [hinflight, hdata, toNat_leave, hcount, card_pred_iff]
      dsimp only
      refine and_congr_right' ?_
      by_cases hle : time ≤ io.time
      · rw [if_pos hle]
        exact iff_of_true rfl hle
      · rw [if_neg hle, Function.update_eq_self]
        exact iff_of_false (fun heq => update_ne_self _ _ _ heq.symm) hle
  · obtain ⟨htrack, hnext, hsample, hsuits⟩ :=
      @track_other found r s io hnotify hqueue hissue hrequeue hcomplete
    rw [hnext, Requests.Right, htrack, hnext, hsample]
    exact ⟨h, iff_of_true ⟨hcount, rfl⟩ hsuits⟩

end

/-! ## A trace -/

/-- The run of the handlers over the records, beside what it should keep count of. -/
def trackBoth (found : Found) (x : (Flight × Graphs) × Requests) (io : BlkIoTrace) :
    Option ((Flight × Graphs) × Requests) :=
  some (track found x.1 io, x.2.next io)

/-- **In flight**: every record of a trace with completions is taken note of as it should be just if every
record suits those before it. -/
theorem tracks_iff {found : Found} (hfound : found.completion = true) (g : Graphs) (ios : List BlkIoTrace) :
    Runs.Along (trackBoth found) (fun x io => x.2.Right found x.1 io) (({}, g), {}) ios ↔
      Runs.Along (trackBoth found) (fun x io => x.2.Suits io) (({}, g), {}) ios := by
  have hstart : Tabled ({} : Requests) ({} : Flight) := ⟨List.nodup_nil, fun _ => rfl, nofun⟩
  have hstep : ∀ (x y : (Flight × Graphs) × Requests) (io : BlkIoTrace),
      Tabled x.2 x.1.1 ∧ x.1.1.iosInFlight.toNat = x.2.flying.card → x.2.Right found x.1 io →
        trackBoth found x io = some y → Tabled y.2 y.1.1 ∧ y.1.1.iosInFlight.toNat = y.2.flying.card := by
    rintro x y io ⟨htabled, hcount⟩ hright hy
    obtain rfl := Option.some.inj hy
    exact ⟨(htabled.right_iff hfound hcount).1, hright.1⟩
  constructor
  · intro h
    refine h.of_invariant (P := fun x => Tabled x.2 x.1.1 ∧ x.1.1.iosInFlight.toNat = x.2.flying.card)
      (fun x io y => hstep x y io) (fun x io hx hright => ?_) ⟨hstart, rfl⟩
    exact (hx.1.right_iff hfound hx.2).2.mp hright
  · intro h
    refine h.of_invariant (P := fun x => Tabled x.2 x.1.1 ∧ x.1.1.iosInFlight.toNat = x.2.flying.card)
      (fun x io y hx hsuits => ?_) (fun x io hx hsuits => ?_) ⟨hstart, rfl⟩
    · exact hstep x y io hx ((hx.1.right_iff hfound hx.2).2.mpr hsuits)
    · exact (hx.1.right_iff hfound hx.2).2.mpr hsuits

/-- A read is dispatched. -/
def readIssue (time : UInt64) : BlkIoTrace where
  magic := 0x65617407
  sequence := 1
  time := time
  sector := 8
  bytes := 4096
  action := 0x00410007
  pid := 1
  device := 0x800000
  cpu := 0
  error := 0
  pduLen := 0
  pdu := []

/-- And completed. -/
def readComplete (time : UInt64) : BlkIoTrace := { readIssue time with action := 0x00810008 }

def noGraphs : Graphs :=
  let gld := allocLineData 0 1 1
  ⟨gld, gld, gld, gld, gld⟩

theorem tracks_iff_once :
    Runs.Along (trackBoth ⟨true, true, true⟩) (fun x io => x.2.Right ⟨true, true, true⟩ x.1 io)
        (({}, noGraphs), {}) [readIssue 1000, readComplete 3000] ↔
      Runs.Along (trackBoth ⟨true, true, true⟩) (fun x io => x.2.Suits io)
        (({}, noGraphs), {}) [readIssue 1000, readComplete 3000] :=
  tracks_iff rfl _ _

/-- One request, of which two dispatches were recorded: two are said to be in flight. -/
theorem not_tracks : ¬ Runs.Along (trackBoth ⟨true, true, true⟩)
    (fun x io => x.2.Right ⟨true, true, true⟩ x.1 io) (({}, noGraphs), {})
    [readIssue 1000, readIssue 2000, readComplete 3000] := by
  intro h
  have hcount := (h [readIssue 1000] (readIssue 2000) [readComplete 3000] rfl).1
  revert hcount
  decide

end Blktrace.Iowatcher
