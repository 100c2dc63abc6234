import Blktrace.Lib.Chains
import Blktrace.Lib.Runs
import Blktrace.Iowatcher.Seconds

/-!
# `iowatcher/blkparse.c`: a plot for each process

With `-P` the IOs of a process go into plots of its own, at the index that `get_pid_map` has for it. The
index is kept in a table that all traces share, and 0 is both the first index of a trace and the mark of a
process that has none. The dots themselves, and the time stamps that `handle_notify` takes, are left out.
-/

namespace Blktrace.Iowatcher

def blkTcWrite : UInt32 := 0x2

/-! ## The table of processes -/

/-- `struct pid_map`. -/
structure PidMap where
  pid : UInt32
  index : ℕ
  name : List UInt8
deriving DecidableEq, Repr

/-- `process_hash_search`. The chains of the table are one list: a process is in the chain of its hash
only. -/
def processHashSearch (table : List PidMap) (pid : UInt32) : Option PidMap :=
  table.find? fun pm => pm.pid = pid

/-- What `sprintf(buf, "[%u]", pid)` writes. -/
def pidName (pid : UInt32) : List UInt8 :=
  0x5b :: (Nat.toDigits 10 pid.toNat).map (fun c => UInt8.ofNat c.toNat) ++ [0x5d]

/-- `process_hash_insert`: what it returns, and the table after it. -/
def processHashInsert (table : List PidMap) (pid : UInt32) (name : Option (List UInt8)) :
    PidMap × List PidMap :=
  match processHashSearch table pid with
  | some pm =>
    if name.getD pm.name = pm.name then (pm, table)
    else
      let renamed : PidMap := { pid, index := pm.index, name := name.getD (pidName pid) }
      (renamed, (table.eraseP fun pm => pm.pid = pid) ++ [renamed])
  | none =>
    let pm : PidMap := { pid, index := 0, name := name.getD (pidName pid) }
    (pm, table ++ [pm])

/-- `handle_notify`, with the bytes that are mapped behind the header. -/
def handleNotify (perProcess : Bool) (io : BlkIoTrace) (payload : List UInt8) (table : List PidMap) :
    List PidMap :=
  if io.action = blkTnProcess then
    if perProcess then (processHashInsert table io.pid (some (payload.takeWhile (· ≠ 0)))).2 else table
  else table

/-! ## The plots of a trace -/

/-- The plots of a `struct trace_file`, of which the labels are kept. -/
structure Plots where
  ioPlots : ℕ := 0
  ioPlotsAllocated : ℕ
  gddReads : List (Option (List UInt8))
  gddWrites : List (Option (List UInt8))
deriving DecidableEq, Repr

/-- `setup_trace_file_graphs`. -/
def setupPlots (perProcess : Bool) : Plots :=
  let allocPtrs := if perProcess then 16 else 1
  { ioPlotsAllocated := allocPtrs
    gddReads := List.replicate allocPtrs none
    gddWrites := List.replicate allocPtrs none }

def gddPtrAllocStep : ℕ := 16

/-- More pointers for the plots; `none` where the `int` overflows. -/
def Plots.grow (tf : Plots) : Option Plots :=
  if tf.ioPlotsAllocated + gddPtrAllocStep < 2 ^ 31 then
    some { tf with
      ioPlotsAllocated := tf.ioPlotsAllocated + gddPtrAllocStep
      gddReads := tf.gddReads ++ List.replicate gddPtrAllocStep none
      gddWrites := tf.gddWrites ++ List.replicate gddPtrAllocStep none }
  else none

/-- `pm->index = index`, for the entry that was found. -/
def setIndex (table : List PidMap) (pid : UInt32) (index : ℕ) : List PidMap :=
  table.map fun pm => if pm.pid = pid then { pm with index } else pm

/-- `get_pid_map`: what it returns, and the table and the plots after it. -/
def getPidMap (perProcess : Bool) (table : List PidMap) (tf : Plots) (pid : UInt32) :
    Option (Option PidMap × List PidMap × Plots) :=
  if perProcess then
    let (pm, table) := processHashInsert table pid none
    if pm.index = 0 then
      (if tf.ioPlots = tf.ioPlotsAllocated then tf.grow else some tf).map fun tf =>
        (some { pm with index := tf.ioPlots }, setIndex table pid tf.ioPlots,
          { tf with ioPlots := tf.ioPlots + 1 })
    else some (some pm, table, tf)
  else some (none, table, if tf.ioPlots = 0 then { tf with ioPlots := 1 } else tf)

/-- `io_event`, with `plot_io_action`, where there is one. -/
def ioEvent (plotIoAction : Option BlkTa) (found : Found) : BlkTa :=
  plotIoAction.getD
    (if found.queue then .queue
    else if found.issue then .issue
    else .complete)

/-- A plot is made at the index, if there is none. -/
def label (gdd : List (Option (List UInt8))) (index : ℕ) (name : List UInt8) : List (Option (List UInt8)) :=
  gdd.modify index fun plot => some (plot.getD name)

/-- What the program was told: `-P`, and the action after `-a`. -/
structure PlotOptions where
  ioPerProcess : Bool
  plotIoAction : Option BlkTa

/-- The table, and the trace that is read. -/
structure Plotting where
  processHashTable : List PidMap := []
  found : Found := {}
  plots : Plots := setupPlots true

/-- The record is an IO that is plotted. -/
def Plotted (o : PlotOptions) (found : Found) (io : BlkIoTrace) : Prop :=
  io.hasTc blkTcNotify = false ∧ BlkTa.ofAction io.action = some (ioEvent o.plotIoAction found)

instance (o : PlotOptions) (found : Found) (io : BlkIoTrace) : Decidable (Plotted o found io) := by
  unfold Plotted
  infer_instance

/-- `add_io`. -/
def addIo (o : PlotOptions) (io : BlkIoTrace) (s : Plotting) : Option Plotting :=
  if io.hasTc blkTcNotify then some s
  else if BlkTa.ofAction io.action ≠ some (ioEvent o.plotIoAction s.found) then some s
  else
    (getPidMap o.ioPerProcess s.processHashTable s.plots io.pid).map fun (pm, table, tf) =>
      let index := (pm.map PidMap.index).getD 0
      let name := (pm.map PidMap.name).getD []
      { s with
        processHashTable := table
        plots :=
          if io.hasTc blkTcRead then { tf with gddReads := label tf.gddReads index name }
          else if io.hasTc blkTcWrite then { tf with gddWrites := label tf.gddWrites index name }
          else tf }

/-- What is read: a trace is begun, or a record of it, with what is mapped behind its header. -/
inductive PlotStep
  | file (found : Found)
  | record (io : BlkIoTrace) (payload : List UInt8)
deriving DecidableEq

/-- An iteration of `read_trace_events` for the plots, or a trace on which it starts. -/
def plotStep (o : PlotOptions) (maxSeconds : UInt32) (s : Plotting) : PlotStep → Option Plotting
  | .file found => some { s with found, plots := setupPlots o.ioPerProcess }
  | .record io payload =>
    if maxSeconds.toUInt64 < seconds io.time then some s
    else
      addIo o io
        { s with processHashTable := handleNotify o.ioPerProcess io payload s.processHashTable }

/-- The positions that a loop of `first_record` and `next_record` goes through. -/
def positionsFrom (file : List UInt8) : ℕ → ℕ → List ℕ
  | 0, _ => []
  | fuel + 1, cur =>
    cur ::
      match nextRecord file cur with
      | none => []
      | some cur => positionsFrom file fuel cur

/-- What `read_trace_events` reads of a trace. -/
def plotSteps (tf : TraceFile) : List PlotStep :=
  .file tf.found :: (positionsFrom tf.file tf.file.length 0).map fun cur =>
    .record (ioAt tf.file cur) (tf.file.drop (cur + traceSize))

theorem exposedFrom_eq (file : List UInt8) (fuel cur : ℕ) :
    exposedFrom file fuel cur = (positionsFrom file fuel cur).map (ioAt file) := by
  induction fuel generalizing cur with
  | zero => rfl
  | succ fuel ih =>
    rw [exposedFrom, positionsFrom, List.map_cons]
    cases nextRecord file cur with
    | none => rfl
    | some next => exact congrArg _ (ih next)

/-! ## The indices -/

/-- The process that a step asks the index of. -/
def asksFor (o : PlotOptions) (maxSeconds : UInt32) (found : Found) : PlotStep → Option UInt32
  | .file _ => none
  | .record io _ =>
    if maxSeconds.toUInt64 < seconds io.time then none
    else if Plotted o found io then some io.pid
    else none

/-- The indices that the processes of a trace have been given so far. -/
abbrev Given := UInt32 → Option ℕ

/-- The index that `get_pid_map` returns. -/
def indexGiven (o : PlotOptions) (s : Plotting) (pid : UInt32) : Option ℕ :=
  (getPidMap o.ioPerProcess s.processHashTable s.plots pid).map fun x => (x.1.map PidMap.index).getD 0

def Given.next (o : PlotOptions) (maxSeconds : UInt32) (s : Plotting) (given : Given) (step : PlotStep) :
    Given :=
  match step, asksFor o maxSeconds s.found step with
  | .file _, _ => fun _ => none
  | .record _ _, none => given
  | .record _ _, some pid => Function.update given pid (indexGiven o s pid)

/-- After the step the trace has no more plots than there are pointers for, and where it asked for an index
it got the one that its process had, of no other process, and below `io_plots`. -/
def Given.Right (o : PlotOptions) (maxSeconds : UInt32) (s : Plotting) (given : Given) (step : PlotStep) :
    Prop :=
  ∃ s', plotStep o maxSeconds s step = some s' ∧ s'.plots.ioPlots ≤ s'.plots.gddReads.length ∧
    s'.plots.ioPlots ≤ s'.plots.gddWrites.length ∧
    ∀ pid ∈ asksFor o maxSeconds s.found step, ∃ index ∈ indexGiven o s pid, index < s'.plots.ioPlots ∧
      ∀ other, ∀ i ∈ given other, i = index ↔ other = pid

/-- The processes that the traces have asked for: those of the current trace in order, and those that got
an index other than 0 in an earlier one. -/
structure Asked where
  asked : List UInt32 := []
  indexed : Finset UInt32 := ∅

def Asked.next (a : Asked) (o : PlotOptions) (maxSeconds : UInt32) (found : Found) (step : PlotStep) :
    Asked :=
  match step, asksFor o maxSeconds found step with
  | .file _, _ => { asked := [], indexed := a.indexed ∪ a.asked.tail.toFinset }
  | .record _ _, none => a
  | .record _ _, some pid => if pid ∈ a.asked then a else { a with asked := a.asked ++ [pid] }

/-- The first process of a trace is asked for once only, and none is asked for in two traces that was not
the first one in the earlier; the trace has fewer than `2 ^ 31 - 16` processes. -/
def Asked.Suits (a : Asked) (o : PlotOptions) (maxSeconds : UInt32) (found : Found) (step : PlotStep) :
    Prop :=
  ∀ pid ∈ asksFor o maxSeconds found step,
    if pid ∈ a.asked then a.asked.head? ≠ some pid
    else pid ∉ a.indexed ∧ a.asked.length < 2 ^ 31 - gddPtrAllocStep

/-! ## The table -/

/-- The index that the table has of a process, 0 where it has none. -/
def indexIn (table : List PidMap) (pid : UInt32) : ℕ :=
  ((processHashSearch table pid).map PidMap.index).getD 0

section

variable {table : List PidMap} {pid : UInt32}

theorem pid_of_search {pm : PidMap} (h : processHashSearch table pid = some pm) : pm.pid = pid := by
  have hpid := List.find?_some h
  exact of_decide_eq_true hpid

theorem indexIn_append (pm : PidMap) (other : UInt32) : indexIn (table ++ [pm]) other =
    if (processHashSearch table other).isSome then indexIn table other
    else if pm.pid = other then pm.index else 0 := by
  unfold indexIn processHashSearch
  rw [List.find?_append]
  cases hfind : table.find? fun pm => pm.pid = other with
  | some pm' => rfl
  | none =>
    rw [Option.none_or, List.find?_singleton]
    by_cases hpid : pm.pid = other
    · simp [hpid]
    · simp [hpid]

theorem nodup_append {pm : PidMap} (honce : (table.map PidMap.pid).Nodup)
    (hnone : processHashSearch table pm.pid = none) : ((table ++ [pm]).map PidMap.pid).Nodup := by
  rw [List.map_append, List.nodup_append]
  refine ⟨honce, List.nodup_singleton _, fun k hk k' hk' => ?_⟩
  rw [List.mem_singleton.mp hk']
  rintro rfl
  obtain ⟨pm', hmem, hkey⟩ := List.mem_map.mp hk
  exact List.find?_eq_none.mp hnone pm' hmem (decide_eq_true hkey)

/-- `process_hash_insert` leaves the indices as they were, whatever the name, and returns the entry. -/
theorem processHashInsert_spec (honce : (table.map PidMap.pid).Nodup) (pid : UInt32)
    (name : Option (List UInt8)) :
    let (pm, table') := processHashInsert table pid name
    (table'.map PidMap.pid).Nodup ∧ (∀ other, indexIn table' other = indexIn table other) ∧
      processHashSearch table' pid = some pm ∧ pm.index = indexIn table pid := by
  unfold processHashInsert
  cases hsearch : processHashSearch table pid with
  | none =>
    dsimp only
    refine ⟨nodup_append honce hsearch, fun other => ?_, ?_, ?_⟩
    · rw [indexIn_append]
      unfold indexIn
      cases hother : processHashSearch table other with
      | some pm => rfl
      | none => simp
    · unfold processHashSearch at hsearch ⊢
      rw [List.find?_append, hsearch]
      simp
    · rw [indexIn, hsearch]
      rfl
  | some pm =>
    dsimp only
    by_cases hname : name.getD pm.name = pm.name
    · rw [if_pos hname]
      refine ⟨honce, fun _ => rfl, hsearch, ?_⟩
      rw [indexIn, hsearch]
      rfl
    · rw [if_neg hname]
      have hgone : processHashSearch (table.eraseP fun pm => pm.pid = pid) pid = none :=
        Chains.find?_eraseP_self honce
      have hkept : ((table.eraseP fun pm => pm.pid = pid).map PidMap.pid).Nodup :=
        honce.sublist (List.eraseP_sublist.map _)
      refine ⟨nodup_append hkept hgone, fun other => ?_, ?_, ?_⟩
      · rw [indexIn_append]
        by_cases hother : other = pid
        · subst hother
          have hindex : indexIn table other = pm.index := by
            rw [indexIn, hsearch]
            rfl
          rw [hgone, hindex]
          simp
        · have hsame : processHashSearch (table.eraseP fun pm => pm.pid = pid) other =
              processHashSearch table other := Chains.find?_eraseP_of_ne hother table
          rw [indexIn, indexIn, hsame, if_neg (Ne.symm hother)]
          cases processHashSearch table other <;> rfl
      · unfold processHashSearch at hgone ⊢
        rw [List.find?_append, hgone]
        simp
      · rw [indexIn, hsearch]
        rfl

/-- The index of an entry is set. -/
theorem setIndex_spec (honce : (table.map PidMap.pid).Nodup) (hsome : (processHashSearch table pid).isSome)
    (index : ℕ) : ((setIndex table pid index).map PidMap.pid).Nodup ∧
      ∀ other, indexIn (setIndex table pid index) other = if other = pid then index else indexIn table other := by
  have hpid : ∀ pm : PidMap, (if pm.pid = pid then { pm with index } else pm).pid = pm.pid := by
    intro pm
    split_ifs <;> rfl
  constructor
  · rw [setIndex, List.map_map]
    exact (congrArg List.Nodup (List.map_congr_left fun pm _ => hpid pm)).mpr honce
  · intro other
    unfold indexIn setIndex processHashSearch
    rw [List.find?_map]
    have hsame : ((fun pm : PidMap => decide (pm.pid = other)) ∘ fun pm : PidMap =>
        if pm.pid = pid then { pm with index } else pm) = fun pm => decide (pm.pid = other) := by
      funext pm
      exact congrArg (fun k => decide (k = other)) (hpid pm)
    rw [hsame, Option.map_map]
    cases hsearch : table.find? fun pm => pm.pid = other with
    | none =>
      rw [if_neg]
      · rfl
      · rintro rfl
        unfold processHashSearch at hsome
        rw [hsearch] at hsome
        nomatch hsome
    | some pm =>
      obtain rfl := pid_of_search hsearch
      dsimp only [Option.map_some, Function.comp_apply, Option.getD_some]
      split_ifs <;> rfl

end

/-! ## The plots -/

/-- There are as many pointers as were allocated, and enough for the plots. -/
structure Plots.Allocated (tf : Plots) : Prop where
  reads : tf.gddReads.length = tf.ioPlotsAllocated
  writes : tf.gddWrites.length = tf.ioPlotsAllocated
  le : tf.ioPlots ≤ tf.ioPlotsAllocated
  steps : gddPtrAllocStep ∣ tf.ioPlotsAllocated
  lt : tf.ioPlotsAllocated < 2 ^ 31

theorem setupPlots_allocated : (setupPlots true).Allocated :=
  ⟨rfl, rfl, Nat.zero_le _, dvd_refl _, by decide⟩

/-- Room for one more plot is there or made, unless the `int` overflows. -/
theorem Plots.Allocated.room {tf : Plots} (h : tf.Allocated) :
    if tf.ioPlots < 2 ^ 31 - gddPtrAllocStep then
      ∃ tf', (if tf.ioPlots = tf.ioPlotsAllocated then tf.grow else some tf) = some tf' ∧
        tf'.ioPlots = tf.ioPlots ∧ ({ tf' with ioPlots := tf'.ioPlots + 1 } : Plots).Allocated
    else (if tf.ioPlots = tf.ioPlotsAllocated then tf.grow else some tf) = none := by
  obtain ⟨hreads, hwrites, hle, hsteps, hlt⟩ := h
  by_cases hfull : tf.ioPlots = tf.ioPlotsAllocated
  · rw [if_pos hfull, Plots.grow, hfull]
    by_cases hroom : tf.ioPlotsAllocated < 2 ^ 31 - gddPtrAllocStep
    · rw [if_pos hroom, if_pos (Nat.add_lt_of_lt_sub hroom)]
      refine ⟨_, rfl, rfl, ?_, ?_, ?_, (Nat.dvd_add_right hsteps).mpr (dvd_refl _),
        Nat.add_lt_of_lt_sub hroom⟩
      · rw [List.length_append, hreads, List.length_replicate]
      · rw [List.length_append, hwrites, List.length_replicate]
      · exact Nat.add_le_add_left (by decide) _
    · rw [if_neg hroom, if_neg fun h => hroom (Nat.lt_sub_of_add_lt h)]
  · have hlt' : tf.ioPlots < tf.ioPlotsAllocated := lt_of_le_of_ne hle hfull
    have hroom : tf.ioPlots < 2 ^ 31 - gddPtrAllocStep := by
      obtain ⟨n, hn⟩ := hsteps
      rw [gddPtrAllocStep] at hn ⊢
      omega
    rw [if_pos hroom, if_neg hfull]
    exact ⟨tf, rfl, rfl, hreads, hwrites, hlt', hsteps, hlt⟩

theorem Plots.Allocated.label {tf : Plots} (h : tf.Allocated) (io : BlkIoTrace) (index : ℕ)
    (name : List UInt8) :
    let tf' := if io.hasTc blkTcRead then { tf with gddReads := label tf.gddReads index name }
      else if io.hasTc blkTcWrite then { tf with gddWrites := label tf.gddWrites index name }
      else tf
    tf'.Allocated ∧ tf'.ioPlots = tf.ioPlots := by
  dsimp only
  split_ifs
  · exact ⟨{ h with reads := (List.length_modify _ _ _).trans h.reads }, rfl⟩
  · exact ⟨{ h with writes := (List.length_modify _ _ _).trans h.writes }, rfl⟩
  · exact ⟨h, rfl⟩

/-- **`get_pid_map`** returns the index that the table has, unless it is 0: then it is that of a new
plot. -/
theorem getPidMap_spec {table : List PidMap} (honce : (table.map PidMap.pid).Nodup) {tf : Plots}
    (h : tf.Allocated) (pid : UInt32) :
    if indexIn table pid = 0 then
      if tf.ioPlots < 2 ^ 31 - gddPtrAllocStep then
        ∃ pm table' tf', getPidMap true table tf pid = some (some pm, table', tf') ∧
          pm.index = tf.ioPlots ∧ tf'.Allocated ∧ tf'.ioPlots = tf.ioPlots + 1 ∧
          (table'.map PidMap.pid).Nodup ∧
          ∀ other, indexIn table' other = if other = pid then tf.ioPlots else indexIn table other
      else getPidMap true table tf pid = none
    else
      ∃ pm table', getPidMap true table tf pid = some (some pm, table', tf) ∧
        pm.index = indexIn table pid ∧ (table'.map PidMap.pid).Nodup ∧
        ∀ other, indexIn table' other = indexIn table other := by
  have hinsert := processHashInsert_spec honce pid none
  unfold getPidMap
  rw [if_pos rfl]
  generalize processHashInsert table pid none = x at *
  obtain ⟨pm, table'⟩ := x
  obtain ⟨honce', hindices, hsearch, hindex⟩ := hinsert
  dsimp only at honce' hindices hsearch hindex ⊢
  rw [hindex]
  by_cases hzero : indexIn table pid = 0
  · rw [if_pos hzero, if_pos hzero]
    have hroom := h.room
    by_cases hlt : tf.ioPlots < 2 ^ 31 - gddPtrAllocStep
    · rw [if_pos hlt] at hroom ⊢
      obtain ⟨tf', htf', hplots, halloc⟩ := hroom
      obtain ⟨honce'', hset⟩ := setIndex_spec honce' (Option.isSome_of_eq_some hsearch) tf'.ioPlots
      rw [htf']
      refine ⟨_, _, _, rfl, hplots, halloc, by rw [hplots], honce'', fun other => ?_⟩
      rw [hset, hplots, hindices]
    · rw [if_neg hlt] at hroom ⊢
      rw [hroom]
      rfl
  · rw [if_neg hzero, if_neg hzero]
    exact ⟨pm, table', rfl, hindex, honce', hindices⟩

/-! ## The steps -/

/-- What `add_io` does of an IO that is plotted. -/
theorem plotStep_asks {o : PlotOptions} {maxSeconds : UInt32} {s : Plotting} {step : PlotStep} {pid : UInt32}
    (hasks : asksFor o maxSeconds s.found step = some pid) :
    plotStep o maxSeconds s step = none ∧ getPidMap o.ioPerProcess s.processHashTable s.plots pid = none ∨
      ∃ pm table tf tf', getPidMap o.ioPerProcess s.processHashTable s.plots pid = some (pm, table, tf) ∧
        plotStep o maxSeconds s step = some { s with processHashTable := table, plots := tf' } ∧
        (tf.Allocated → tf'.Allocated ∧ tf'.ioPlots = tf.ioPlots) := by
  cases step with
  | file found => nomatch hasks
  | record io payload =>
    unfold asksFor at hasks
    dsimp only at hasks
    split_ifs at hasks with hlate hplotted
    obtain rfl := Option.some.inj hasks
    obtain ⟨hnotify, hact⟩ := hplotted
    have hprocess : io.action ≠ blkTnProcess := by
      intro h
      rw [BlkIoTrace.hasTc, h] at hnotify
      revert hnotify
      decide
    unfold plotStep addIo handleNotify
    dsimp only
    rw [if_neg hlate, if_neg hprocess, if_neg (by simp [hnotify]), if_neg (by simp [hact])]
    cases hget : getPidMap o.ioPerProcess s.processHashTable s.plots io.pid with
    | none => exact .inl ⟨rfl, rfl⟩
    | some x =>
      obtain ⟨pm, table, tf⟩ := x
      exact .inr ⟨pm, table, tf, _, rfl, rfl, fun h => h.label io _ _⟩

theorem addIo_passes {o : PlotOptions} {s : Plotting} {io : BlkIoTrace} (hnot : ¬ Plotted o s.found io) :
    addIo o io s = some s := by
  unfold addIo
  by_cases hnotify : io.hasTc blkTcNotify = true
  · exact if_pos hnotify
  · rw [if_neg hnotify, if_pos fun hact => hnot ⟨Bool.not_eq_true _ ▸ hnotify, hact⟩]

/-- What a record does that is not plotted. -/
theorem plotStep_passes {o : PlotOptions} {maxSeconds : UInt32} {s : Plotting} {io : BlkIoTrace}
    {payload : List UInt8} (hasks : asksFor o maxSeconds s.found (.record io payload) = none)
    (honce : (s.processHashTable.map PidMap.pid).Nodup) :
    ∃ table, plotStep o maxSeconds s (.record io payload) = some { s with processHashTable := table } ∧
      (table.map PidMap.pid).Nodup ∧ ∀ other, indexIn table other = indexIn s.processHashTable other := by
  unfold asksFor at hasks
  dsimp only at hasks
  unfold plotStep
  dsimp only
  by_cases hlate : maxSeconds.toUInt64 < seconds io.time
  · rw [if_pos hlate]
    exact ⟨_, rfl, honce, fun _ => rfl⟩
  rw [if_neg hlate] at hasks ⊢
  have hnot : ¬ Plotted o s.found io := by
    intro h
    rw [if_pos h] at hasks
    nomatch hasks
  rw [addIo_passes (s := { s with
    processHashTable := handleNotify o.ioPerProcess io payload s.processHashTable }) hnot]
  refine ⟨_, rfl, ?_⟩
  unfold handleNotify
  split_ifs
  · obtain ⟨honce', hindices, -, -⟩ := processHashInsert_spec honce io.pid (some (payload.takeWhile (· ≠ 0)))
    exact ⟨honce', hindices⟩
  · exact ⟨honce, fun _ => rfl⟩
  · exact ⟨honce, fun _ => rfl⟩

/-- The first process has the index 0, and no other. -/
theorem idxOf_eq_zero_iff {pids : List UInt32} (hnodup : pids.Nodup) {pid : UInt32} (hmem : pid ∈ pids) :
    pids.idxOf pid = 0 ↔ pid ∉ pids.tail := by
  cases pids with
  | nil => nomatch hmem
  | cons first rest =>
    rw [List.tail_cons]
    by_cases hfirst : first = pid
    · subst hfirst
      exact iff_of_true List.idxOf_cons_self (List.nodup_cons.mp hnodup).1
    · rw [List.idxOf_cons_ne rest hfirst]
      have hrest : pid ∈ rest := (List.mem_cons.mp hmem).resolve_left (Ne.symm hfirst)
      exact iff_of_false (Nat.succ_ne_zero _) (not_not.mpr hrest)

/-- What has been asked for is what the table, the plots and the answers show. -/
structure Kept (a : Asked) (s : Plotting) (given : Given) : Prop where
  once : (s.processHashTable.map PidMap.pid).Nodup
  allocated : s.plots.Allocated
  plots : s.plots.ioPlots = a.asked.length
  nodup : a.asked.Nodup
  given_eq : ∀ pid, given pid = if pid ∈ a.asked then some (a.asked.idxOf pid) else none
  index : ∀ pid ∈ a.asked, indexIn s.processHashTable pid = a.asked.idxOf pid
  fresh : ∀ pid ∈ a.asked, pid ∉ a.indexed
  stale : ∀ pid ∉ a.asked, indexIn s.processHashTable pid = 0 ↔ pid ∉ a.indexed

variable {o : PlotOptions} {maxSeconds : UInt32} {a : Asked} {s s' : Plotting} {given : Given}

namespace Kept

theorem start : Kept {} {} fun _ => none :=
  ⟨List.nodup_nil, setupPlots_allocated, rfl, List.nodup_nil, fun _ => rfl, nofun, nofun,
    fun _ _ => iff_of_true rfl (Finset.notMem_empty _)⟩

/-- A trace is begun: the first process of the one before has no index, as far as the table says. -/
theorem file (h : Kept a s given) (found : Found) :
    Kept { asked := [], indexed := a.indexed ∪ a.asked.tail.toFinset }
      { s with found, plots := setupPlots true } fun _ => none := by
  refine ⟨h.once, setupPlots_allocated, rfl, List.nodup_nil, fun _ => rfl, nofun, nofun, fun pid _ => ?_⟩
  dsimp only
  rw [Finset.mem_union, List.mem_toFinset, not_or]
  by_cases hmem : pid ∈ a.asked
  · rw [h.index pid hmem, and_iff_right (h.fresh pid hmem)]
    exact idxOf_eq_zero_iff h.nodup hmem
  · rw [h.stale pid hmem, and_iff_left fun htail => hmem (List.mem_of_mem_tail htail)]

/-- An index is returned that the process has already. -/
theorem again (h : Kept a s given) {table : List PidMap} (honce : (table.map PidMap.pid).Nodup)
    (hindices : ∀ other, indexIn table other = indexIn s.processHashTable other) {tf : Plots}
    (halloc : tf.Allocated) (hplots : tf.ioPlots = s.plots.ioPlots) {pid : UInt32} (hmem : pid ∈ a.asked) :
    Kept a { s with processHashTable := table, plots := tf }
      (Function.update given pid (some (a.asked.idxOf pid))) := by
  refine ⟨honce, halloc, hplots.trans h.plots, h.nodup, fun other => ?_, fun other hasked => ?_, h.fresh,
    fun other hasked => ?_⟩
  · by_cases hother : other = pid
    · subst hother
      rw [Function.update_self, if_pos hmem]
    · rw [Function.update_of_ne hother, h.given_eq]
  · exact (hindices other).trans (h.index other hasked)
  · dsimp only
    rw [hindices other]
    exact h.stale other hasked

/-- An index is given that no process has. -/
theorem new (h : Kept a s given) {table : List PidMap} (honce : (table.map PidMap.pid).Nodup) {pid : UInt32}
    (hindices : ∀ other, indexIn table other =
      if other = pid then s.plots.ioPlots else indexIn s.processHashTable other) {tf : Plots}
    (halloc : tf.Allocated) (hplots : tf.ioPlots = s.plots.ioPlots + 1) (hmem : pid ∉ a.asked)
    (hfresh : pid ∉ a.indexed) :
    Kept { a with asked := a.asked ++ [pid] } { s with processHashTable := table, plots := tf }
      (Function.update given pid (some a.asked.length)) := by
  have hlast : (a.asked ++ [pid]).idxOf pid = a.asked.length := by
    rw [List.idxOf_append_of_notMem hmem, List.idxOf_cons_self, Nat.add_zero]
  refine ⟨honce, halloc, ?_, ?_, fun other => ?_, fun other hasked => ?_, fun other hasked => ?_,
    fun other hasked => ?_⟩
  · rw [hplots, h.plots, List.length_append, List.length_singleton]
  · rw [List.nodup_append]
    refine ⟨h.nodup, List.nodup_singleton _, fun k hk k' hk' => ?_⟩
    rw [List.mem_singleton.mp hk']
    rintro rfl
    exact hmem hk
  · by_cases hother : other = pid
    · subst hother
      rw [Function.update_self, if_pos (List.mem_append_right _ (List.mem_singleton_self _)), hlast]
    · rw [Function.update_of_ne hother, h.given_eq]
      by_cases hasked : other ∈ a.asked
      · rw [if_pos hasked, if_pos (List.mem_append_left _ hasked), List.idxOf_append_of_mem hasked]
      · rw [if_neg hasked, if_neg (by simp [hasked, hother])]
  · dsimp only at hasked ⊢
    rw [hindices]
    by_cases hother : other = pid
    · subst hother
      rw [if_pos rfl, hlast, h.plots]
    · have hbefore : other ∈ a.asked := by simpa [hother] using hasked
      rw [if_neg hother, h.index other hbefore, List.idxOf_append_of_mem hbefore]
  · rcases List.mem_append.mp hasked with hbefore | hlast
    · exact h.fresh other hbefore
    · exact List.mem_singleton.mp hlast ▸ hfresh
  · dsimp only at hasked ⊢
    rw [List.mem_append, List.mem_singleton, not_or] at hasked
    rw [hindices, if_neg hasked.2]
    exact h.stale other hasked.1

end Kept

/-- The indices in the file's table after a record that asks for none. -/
theorem Kept.passes (h : Kept a s given) {table : List PidMap} (honce : (table.map PidMap.pid).Nodup)
    (hindices : ∀ other, indexIn table other = indexIn s.processHashTable other) :
    Kept a { s with processHashTable := table } given := by
  refine ⟨honce, h.allocated, h.plots, h.nodup, h.given_eq, fun other hasked => ?_, h.fresh,
    fun other hasked => ?_⟩
  · exact (hindices other).trans (h.index other hasked)
  · dsimp only
    rw [hindices other]
    exact h.stale other hasked

/-- An answer is right for a process that was asked for just if it is the same, and for another just if it
is none of those that were given. -/
theorem Kept.answer_iff (h : Kept a s given) (pid : UInt32) (index : ℕ) :
    (∀ other, ∀ i ∈ given other, i = index ↔ other = pid) ↔
      if pid ∈ a.asked then a.asked.idxOf pid = index
      else ∀ other ∈ a.asked, a.asked.idxOf other ≠ index := by
  have hgiven : ∀ other i, i ∈ given other ↔ other ∈ a.asked ∧ a.asked.idxOf other = i := by
    intro other i
    rw [h.given_eq, Option.mem_def]
    by_cases hasked : other ∈ a.asked
    · rw [if_pos hasked, Option.some_inj, and_iff_right hasked]
    · rw [if_neg hasked]
      exact iff_of_false nofun fun h => hasked h.1
  by_cases hmem : pid ∈ a.asked
  · rw [if_pos hmem]
    constructor
    · intro hright
      exact (hright pid _ ((hgiven pid _).mpr ⟨hmem, rfl⟩)).mpr rfl
    · rintro rfl other i hi
      obtain ⟨hother, rfl⟩ := (hgiven other i).mp hi
      exact List.idxOf_inj hother
  · rw [if_neg hmem]
    constructor
    · intro hright other hother hindex
      exact hmem ((hright other _ ((hgiven other _).mpr ⟨hother, rfl⟩)).mp hindex ▸ hother)
    · intro hnone other i hi
      obtain ⟨hother, rfl⟩ := (hgiven other i).mp hi
      exact iff_of_false (hnone other hother) fun hpid => hmem (hpid ▸ hother)

section

variable {step : PlotStep} {pid : UInt32} {pm : PidMap} {table : List PidMap} {tf : Plots}
  {action : Option BlkTa} (hasks : asksFor ⟨true, action⟩ maxSeconds s.found step = some pid)
include hasks

/-- Where the indices overflow there is no answer. -/
theorem not_right_of_none (hget : getPidMap true s.processHashTable s.plots pid = none) :
    ¬ given.Right ⟨true, action⟩ maxSeconds s step := by
  rintro ⟨s', -, -, -, hanswer⟩
  obtain ⟨index, hindex, -⟩ := hanswer pid hasks
  rw [indexGiven, hget] at hindex
  nomatch hindex

/-- What a step does with the answer. -/
theorem right_of_some (hget : getPidMap true s.processHashTable s.plots pid = some (some pm, table, tf))
    (halloc : tf.Allocated) : (∃ tf', plotStep ⟨true, action⟩ maxSeconds s step =
        some { s with processHashTable := table, plots := tf' } ∧ tf'.Allocated ∧ tf'.ioPlots = tf.ioPlots) ∧
      given.next ⟨true, action⟩ maxSeconds s step = Function.update given pid (some pm.index) ∧
      (given.Right ⟨true, action⟩ maxSeconds s step ↔
        pm.index < tf.ioPlots ∧ ∀ other, ∀ i ∈ given other, i = pm.index ↔ other = pid) := by
  have hindex : indexGiven ⟨true, action⟩ s pid = some pm.index := by
    rw [indexGiven, hget]
    rfl
  have hstep : ∃ tf', plotStep ⟨true, action⟩ maxSeconds s step =
      some { s with processHashTable := table, plots := tf' } ∧ tf'.Allocated ∧ tf'.ioPlots = tf.ioPlots := by
    rcases plotStep_asks hasks with ⟨-, hnone⟩ | ⟨pm', table', tf', tf'', hsome, hplot, hlabel⟩
    · rw [hget] at hnone
      nomatch hnone
    · rw [hget] at hsome
      obtain ⟨rfl, rfl, rfl⟩ : some pm = pm' ∧ table = table' ∧ tf = tf' := by simpa using hsome
      exact ⟨tf'', hplot, hlabel halloc⟩
  refine ⟨hstep, ?_, ?_⟩
  · cases step with
    | file found => nomatch hasks
    | record io payload =>
      unfold Given.next
      rw [hasks]
      dsimp only
      rw [hindex]
  · obtain ⟨tf', hplot, halloc', hplots⟩ := hstep
    constructor
    · rintro ⟨s', hs', -, -, hanswer⟩
      obtain rfl := Option.some.inj (hplot.symm.trans hs')
      obtain ⟨index, hmem, hlt, hright⟩ := hanswer pid hasks
      obtain rfl := Option.some.inj (hindex.symm.trans hmem)
      exact ⟨hplots ▸ hlt, hright⟩
    · rintro ⟨hlt, hright⟩
      refine ⟨_, hplot, halloc'.reads.symm ▸ halloc'.le, halloc'.writes.symm ▸ halloc'.le, fun pid' hpid' => ?_⟩
      obtain rfl := Option.some.inj (hasks.symm.trans hpid')
      exact ⟨pm.index, hindex, hplots.symm ▸ hlt, hright⟩

end

/-- A step that asks for a process. -/
theorem Kept.asks_iff (h : Kept a s given) {step : PlotStep} {action : Option BlkTa} {pid : UInt32}
    (hasks : asksFor ⟨true, action⟩ maxSeconds s.found step = some pid) :
    (given.Right ⟨true, action⟩ maxSeconds s step ↔
      if pid ∈ a.asked then a.asked.head? ≠ some pid
      else pid ∉ a.indexed ∧ a.asked.length < 2 ^ 31 - gddPtrAllocStep) ∧
    (given.Right ⟨true, action⟩ maxSeconds s step → ∀ s', plotStep ⟨true, action⟩ maxSeconds s step = some s' →
      Kept (if pid ∈ a.asked then a else { a with asked := a.asked ++ [pid] }) s'
        (given.next ⟨true, action⟩ maxSeconds s step)) := by
  have hspec := getPidMap_spec h.once h.allocated pid
  by_cases hmem : pid ∈ a.asked
  · rw [h.index pid hmem, h.plots] at hspec
    rw [if_pos hmem, if_pos hmem]
    by_cases hzero : a.asked.idxOf pid = 0
    · -- The first process of the trace is taken for a new one.
      have hwrong : ¬ given.Right ⟨true, action⟩ maxSeconds s step := by
        rw [if_pos hzero] at hspec
        split_ifs at hspec with hroom
        · obtain ⟨pm, table, tf, hget, hindex, halloc, -⟩ := hspec
          rw [(right_of_some hasks hget halloc).2.2, h.answer_iff, if_pos hmem, hindex]
          exact fun hright => (List.idxOf_lt_length_of_mem hmem).ne hright.2
        · exact not_right_of_none hasks hspec
      refine ⟨iff_of_false hwrong (not_not.mpr ?_), fun hright => absurd hright hwrong⟩
      rcases (List.idxOf_eq_zero_iff_eq_nil_or_head_eq pid).mp hzero with hnil | hhead
      · rw [hnil] at hmem
        nomatch hmem
      · exact hhead
    · rw [if_neg hzero] at hspec
      obtain ⟨pm, table, hget, hindex, honce, hindices⟩ := hspec
      obtain ⟨⟨tf, hplot, halloc, hplots⟩, hnext, hright⟩ := right_of_some hasks hget h.allocated
      rw [hright, h.answer_iff, if_pos hmem, hindex, hnext, h.plots, hindex]
      refine ⟨iff_of_true ⟨List.idxOf_lt_length_of_mem hmem, rfl⟩ fun hhead => hzero ?_, fun _ s' hs' => ?_⟩
      · exact (List.idxOf_eq_zero_iff_eq_nil_or_head_eq pid).mpr (.inr hhead)
      · obtain rfl := Option.some.inj (hplot.symm.trans hs')
        exact h.again honce hindices halloc hplots hmem
  · rw [if_neg hmem, if_neg hmem]
    by_cases hfresh : pid ∈ a.indexed
    · -- The index is one of an earlier trace.
      have hindex := mt (h.stale pid hmem).mp (not_not.mpr hfresh)
      rw [if_neg hindex] at hspec
      obtain ⟨pm, table, hget, -⟩ := hspec
      have hright := (@right_of_some _ _ given _ _ _ _ _ _ hasks hget h.allocated).2.2
      have hwrong : ¬ given.Right ⟨true, action⟩ maxSeconds s step := by
        rw [hright, h.answer_iff, if_neg hmem, h.plots]
        rintro ⟨hlt, hnone⟩
        exact hnone _ (List.getElem_mem hlt) (h.nodup.idxOf_getElem _ hlt)
      exact ⟨iff_of_false hwrong fun hsuits => hsuits.1 hfresh, fun hright => absurd hright hwrong⟩
    · rw [if_pos ((h.stale pid hmem).mpr hfresh), h.plots] at hspec
      rw [and_iff_right hfresh]
      by_cases hroom : a.asked.length < 2 ^ 31 - gddPtrAllocStep
      · rw [if_pos hroom] at hspec
        obtain ⟨pm, table, tf, hget, hindex, halloc, hplots, honce, hindices⟩ := hspec
        obtain ⟨⟨tf', hplot, halloc', hplots'⟩, hnext, hright⟩ := right_of_some hasks hget halloc
        rw [hright, h.answer_iff, if_neg hmem, hindex, hnext, hplots, hindex]
        refine ⟨iff_of_true ⟨Nat.lt_succ_self _, fun other hother => ?_⟩ hroom, fun _ s' hs' => ?_⟩
        · exact (List.idxOf_lt_length_of_mem hother).ne
        · obtain rfl := Option.some.inj (hplot.symm.trans hs')
          exact h.new honce (h.plots.symm ▸ hindices) halloc' (by rw [hplots', hplots, h.plots]) hmem hfresh
      · rw [if_neg hroom] at hspec
        have hwrong := @not_right_of_none _ _ given _ _ _ hasks hspec
        exact ⟨iff_of_false hwrong hroom, fun hright => absurd hright hwrong⟩

/-- **A step** of a trace asks for the index that it should just if it suits those before it. -/
theorem Kept.right_iff (h : Kept a s given) (step : PlotStep) {action : Option BlkTa} :
    (given.Right ⟨true, action⟩ maxSeconds s step ↔ a.Suits ⟨true, action⟩ maxSeconds s.found step) ∧
      (given.Right ⟨true, action⟩ maxSeconds s step →
        ∀ s', plotStep ⟨true, action⟩ maxSeconds s step = some s' →
          Kept (a.next ⟨true, action⟩ maxSeconds s.found step) s'
            (given.next ⟨true, action⟩ maxSeconds s step)) := by
  unfold Asked.Suits Asked.next
  cases hasks : asksFor ⟨true, action⟩ maxSeconds s.found step with
  | some pid =>
    have hiff := h.asks_iff hasks
    cases step with
    | file found => nomatch hasks
    | record io payload =>
      simp only [Option.mem_some_iff, forall_eq']
      exact hiff
  | none =>
    cases step with
    | file found =>
      refine ⟨iff_of_true ⟨_, rfl, Nat.zero_le _, Nat.zero_le _, nofun⟩ nofun, fun _ s' hs' => ?_⟩
      obtain rfl := Option.some.inj hs'
      exact h.file found
    | record io payload =>
      obtain ⟨table, hplot, honce, hindices⟩ := plotStep_passes hasks h.once
      have hle := h.allocated.le
      constructor
      · refine iff_of_true ⟨_, hplot, ?_, ?_, ?_⟩ nofun
        · exact h.allocated.reads.symm ▸ hle
        · exact h.allocated.writes.symm ▸ hle
        · rw [hasks]
          nofun
      · intro _ s' hs'
        obtain rfl := Option.some.inj (hplot.symm.trans hs')
        unfold Given.next
        rw [hasks]
        exact h.passes honce hindices

/-! ## The traces -/

/-- The run over the traces, beside the indices that were given and the processes that were asked for. -/
def plotBoth (o : PlotOptions) (maxSeconds : UInt32) (x : Plotting × Given × Asked) (step : PlotStep) :
    Option (Plotting × Given × Asked) :=
  (plotStep o maxSeconds x.1 step).map fun s =>
    (s, x.2.1.next o maxSeconds x.1 step, x.2.2.next o maxSeconds x.1.found step)

theorem plotBoth_kept {x y : Plotting × Given × Asked} {step : PlotStep} {action : Option BlkTa}
    (h : Kept x.2.2 x.1 x.2.1) (hright : x.2.1.Right ⟨true, action⟩ maxSeconds x.1 step)
    (hy : plotBoth ⟨true, action⟩ maxSeconds x step = some y) : Kept y.2.2 y.1 y.2.1 := by
  obtain ⟨s', hs', rfl⟩ := Option.map_eq_some_iff.mp hy
  exact (h.right_iff step).2 hright s' hs'

/-- **Per-process plots**: every index is the process's own just if every step suits those before it. -/
theorem plots_iff (action : Option BlkTa) (maxSeconds : UInt32) (traces : List TraceFile) :
    Runs.Along (plotBoth ⟨true, action⟩ maxSeconds)
        (fun x step => x.2.1.Right ⟨true, action⟩ maxSeconds x.1 step)
        ({}, fun _ => none, {}) (traces.flatMap plotSteps) ↔
      Runs.Along (plotBoth ⟨true, action⟩ maxSeconds)
        (fun x step => x.2.2.Suits ⟨true, action⟩ maxSeconds x.1.found step)
        ({}, fun _ => none, {}) (traces.flatMap plotSteps) := by
  constructor
  · intro h
    refine h.of_invariant (P := fun x : Plotting × Given × Asked => Kept x.2.2 x.1 x.2.1) (fun x step y hx hright hy => ?_)
      (fun x step hx hright => (hx.right_iff step).1.mp hright) Kept.start
    exact plotBoth_kept hx hright hy
  · intro h
    refine h.of_invariant (P := fun x : Plotting × Given × Asked => Kept x.2.2 x.1 x.2.1) (fun x step y hx hsuits hy => ?_)
      (fun x step hx hsuits => (hx.right_iff step).1.mpr hsuits) Kept.start
    exact plotBoth_kept hx ((hx.right_iff step).1.mpr hsuits) hy

/-- A read that is queued. -/
def queuedRead (time : UInt64) : BlkIoTrace := { ioRecord time 0 [] with action := 0x00110001 }

/-- Two reads of one process, at the indices 0 and 1. -/
theorem not_plots : ¬ Runs.Along (plotBoth ⟨true, none⟩ 1)
    (fun x step => x.2.1.Right ⟨true, none⟩ 1 x.1 step) ({}, fun _ => none, {})
    ([readTrace (fileOf false [queuedRead 0, queuedRead 1])].flatMap plotSteps) := by
  intro h
  have hsteps : [readTrace (fileOf false [queuedRead 0, queuedRead 1])].flatMap plotSteps =
      [.file ⟨false, false, true⟩, .record (queuedRead 0) ((queuedRead 1).image false),
        .record (queuedRead 1) []] := by decide
  obtain ⟨s', -, -, -, hanswer⟩ := h [_, _] _ [] hsteps
  obtain ⟨index, hindex, -, hright⟩ := hanswer 1 (by decide)
  have hsame := (hright 1 0 (by decide)).mpr rfl
  rw [← hsame] at hindex
  revert hindex
  decide

end Blktrace.Iowatcher
