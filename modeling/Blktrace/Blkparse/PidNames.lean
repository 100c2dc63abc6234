import Blktrace.Blkparse.ByName

/-!
# The names of pids

`find_process_name` after any run of `dump_trace`. An entry of `process_pid_map` is never replaced, so a pid
keeps the name of whatever entered it first: a `PROCESS` notify, or an IO, for which the name is
`"unknown"`.
-/

namespace Blktrace.Blkparse

namespace Procs

variable {o : Opts} {p q r : Procs} {t : BlkIoTrace}

/-- `q` is `p` with a map entered for a pid, where that had none. -/
def Enters (p q : Procs) (e : Option Ppm) : Prop :=
  ∀ pid, q.findPpm pid = (p.findPpm pid).or (e.filter (·.pid = pid))

theorem Enters.of_ppms (h : q.ppms = p.ppms) : Enters p q none := by
  intro pid
  rw [findPpm, h, Option.filter_none, Option.or_none]
  rfl

theorem enters_addPpmHash (p : Procs) (pid : UInt32) (comm : Comm) :
    Enters p (p.addPpmHash pid comm) (some ⟨pid, comm⟩) := by
  intro pid'
  rw [addPpmHash]
  cases hold : p.findPpm pid with
  | some ppm =>
    dsimp only
    by_cases hpid : pid = pid'
    · subst hpid
      rw [hold]
      rfl
    · simp [Option.filter, hpid]
  | none =>
    dsimp only
    by_cases hpid : pid = pid'
    · subst hpid
      rw [hold, findPpm, List.find?_cons_of_pos (by simp)]
      simp [Option.filter]
    · rw [findPpm, List.find?_cons_of_neg (by simp [hpid])]
      simp [Option.filter, hpid, findPpm]

theorem enters_ppmOf (p : Procs) (pid : UInt32) : Enters p (p.ppmOf pid).1 (some ⟨pid, .unknown⟩) := by
  have h := enters_addPpmHash p pid .unknown
  rw [ppmOf]
  cases hold : p.findPpm pid with
  | some ppm =>
    rw [addPpmHash, hold] at h
    exact h
  | none => exact h

theorem ppmOf_pid (p : Procs) (pid : UInt32) : (p.ppmOf pid).2.pid = pid := by
  rw [ppmOf]
  cases hppm : p.findPpm pid with
  | none => rfl
  | some ppm =>
    have hfound := List.find?_some hppm
    simp only [Bool.and_eq_true, beq_iff_eq] at hfound
    exact hfound.2

/-- The map that a pid without one is given. -/
def placeholder (pid : UInt32) (b : Bool) : Option Ppm := if b then some ⟨pid, .unknown⟩ else none

theorem Enters.trans {pid : UInt32} {b b' : Bool} (h : Enters p q (placeholder pid b))
    (h' : Enters q r (placeholder pid b')) : Enters p r (placeholder pid (b || b')) := by
  intro pid'
  rw [h', h, Option.or_assoc]
  congr 1
  cases b <;> cases b' <;> simp [placeholder]

theorem Enters.refl (p : Procs) (pid : UInt32) : Enters p p (placeholder pid false) := .of_ppms rfl

/-- The processes have maps, which are in the table. -/
def HasPpms (p : Procs) : Prop := ∀ ppi ∈ p.ppis, p.findPpm ppi.ppm.pid ≠ none

theorem Enters.keeps {e : Option Ppm} (h : Enters p q e) {pid : UInt32} (hpid : p.findPpm pid ≠ none) :
    q.findPpm pid ≠ none := by
  rw [h]
  obtain ⟨ppm, heq⟩ := Option.ne_none_iff_exists'.mp hpid
  rw [heq]
  nofun

theorem HasPpms.enters {e : Option Ppm} (h : p.HasPpms) (he : Enters p q e)
    (hcore : q.ppis.map core = p.ppis.map core) : q.HasPpms := by
  intro ppi hppi
  have hmem : core ppi ∈ p.ppis.map core := hcore ▸ List.mem_map_of_mem hppi
  obtain ⟨ppi', hppi', heq⟩ := List.mem_map.mp hmem
  have hppm : ppi'.ppm = ppi.ppm := congrArg Prod.fst heq
  exact he.keeps (hppm ▸ h ppi' hppi')

/-- A process that is found is that of a pid with a map. -/
theorem findPpm_of_findPpi (h : p.HasPpms) {pid : UInt32} (hfound : (p.findPpi o pid).2 ≠ none) :
    p.findPpm pid ≠ none := by
  cases ho : o.ppiHashByPid with
  | true =>
    rw [findPpi, if_pos ho] at hfound
    obtain ⟨i, hi⟩ := Option.ne_none_iff_exists'.mp hfound
    obtain ⟨hlt, hpid, -⟩ := List.findIdx?_eq_some_iff_getElem.mp hi
    simp only [Bool.and_eq_true, beq_iff_eq] at hpid
    have hppm := h _ (List.getElem_mem hlt)
    rwa [hpid.2] at hppm
  | false =>
    intro hnone
    rw [findPpi_byName ho, if_pos hnone] at hfound
    exact hfound rfl

/-- Nothing is entered for a pid that has a map. -/
theorem Enters.of_some {pid : UInt32} (h : Enters p q (placeholder pid false)) (hpid : p.findPpm pid ≠ none) :
    Enters p q (placeholder pid true) := by
  intro pid'
  rw [h pid']
  by_cases hsame : pid = pid'
  · subst hsame
    obtain ⟨ppm, heq⟩ := Option.ne_none_iff_exists'.mp hpid
    rw [heq]
    rfl
  · simp [placeholder, Option.filter, hsame]

/-- **A charge** leaves the pid with a map. -/
theorem enters_charge (h : p.HasPpms) (f : IoStats → IoStats) :
    Enters p (p.charge o t f) (placeholder t.pid true) ∧ (p.charge o t f).HasPpms := by
  have hfind : Enters p (p.findPpi o t.pid).1 (placeholder t.pid false) := .of_ppms (findPpi_ppms t.pid)
  have hfound : (p.findPpi o t.pid).1.HasPpms := h.enters hfind map_core_findPpi
  have hmodify : ∀ (r : Procs) i, r.HasPpms → (r.modify i fun ppi =>
      { ppi with ioStats := f ppi.ioStats, charged := ppi.charged ++ [t] }).HasPpms := by
    intro r i hr
    apply forall_modify (P := fun ppi => r.findPpm ppi.ppm.pid ≠ none)
    · exact fun _ hppi => hppi
    · exact hr
  rw [charge]
  rcases @findProcessIoStats_cases o p t.pid with ⟨i, hsome, heq⟩ | ⟨-, heq⟩
  · rw [heq]
    refine ⟨hfind.of_some (findPpm_of_findPpi h (o := o) ?_), hmodify _ i hfound⟩
    rw [hsome]
    exact Option.some_ne_none _
  · rw [heq]
    have hnew : Enters (p.findPpi o t.pid).1 ((p.findPpi o t.pid).1.ppmOf t.pid).1 (placeholder t.pid true) :=
      enters_ppmOf _ t.pid
    have hnamed := hfind.trans hnew
    refine ⟨hnamed, hmodify _ 0 ?_⟩
    intro ppi hppi
    rcases List.mem_cons.mp hppi with rfl | hppi
    · show ((p.findPpi o t.pid).1.ppmOf t.pid).1.findPpm ((p.findPpi o t.pid).1.ppmOf t.pid).2.pid ≠ none
      rw [ppmOf_pid, enters_ppmOf _ t.pid t.pid]
      cases (p.findPpi o t.pid).1.findPpm t.pid <;> simp [Option.filter]
    · rw [ppmOf_ppis] at hppi
      exact (enters_ppmOf _ t.pid).keeps (hfound ppi hppi)

/-- What a step does to the maps: it enters one for `pid` where `b` has it, if there is none. -/
def Gives (pid : UInt32) (b : Bool) (p q : Procs) : Prop :=
  p.HasPpms → Enters p q (placeholder pid b) ∧ q.HasPpms

theorem Gives.refl (pid : UInt32) (p : Procs) : Gives pid false p p := fun h => ⟨.refl p pid, h⟩

theorem Gives.trans {pid : UInt32} {b b' : Bool} (h : Gives pid b p q) (h' : Gives pid b' q r) :
    Gives pid (b || b') p r := by
  intro hp
  obtain ⟨he, hq⟩ := h hp
  obtain ⟨he', hr⟩ := h' hq
  exact ⟨he.trans he', hr⟩

theorem gives_ppmOf (p : Procs) (pid : UInt32) : Gives pid true p (p.ppmOf pid).1 := by
  intro h
  refine ⟨enters_ppmOf p pid, h.enters (enters_ppmOf p pid) ?_⟩
  rw [ppmOf_ppis]

theorem gives_wait (p : Procs) (pid ppm : UInt32) (kind : Wait) (w : Bool) (elapsed : UInt64) :
    Gives pid false p (p.wait o ppm kind w elapsed) := by
  intro h
  have hppms : Enters p (p.wait o ppm kind w elapsed) (placeholder pid false) :=
    .of_ppms (wait_ppms ppm kind w elapsed)
  exact ⟨hppms, h.enters hppms (map_core_wait kind w elapsed)⟩

end Procs

namespace Dumper

variable {o : Opts} {malloc : ℕ → IoTrack} {d : Dumper} {pdi : ℕ} {t : BlkIoTrace} {cpu dev : UInt32}

/-- The records for which `find_track` is called. -/
def seeksTrack (dev : UInt32) (t : BlkIoTrace) : Bool :=
  !t.isMessage && !t.hasTc blkTcPc &&
    match BlkTa.ofAction t.action with
    | some .getrq | some .insert => true
    | some .queue => isRemapper dev
    | _ => false

/-- The record enters its pid, if that has no map: it is charged to a process, or makes a track. -/
def entersPid (o : Opts) (d : Dumper) (pdi : ℕ) (dev : UInt32) (t : BlkIoTrace) : Bool :=
  (o.trackIos && (seeksTrack dev t && (d.findTrack' pdi t.sector).isNone)) ||
    (o.perProcessStats && (accounting t).isSome)

theorem gives_findTrack (sector : UInt64) : Procs.Gives t.pid (d.findTrack' pdi sector).isNone d.procs
    (d.findTrack malloc pdi t.pid sector).1.procs := by
  unfold findTrack
  cases d.findTrack' pdi sector with
  | some iot => exact .refl _ _
  | none => exact Procs.gives_ppmOf d.procs t.pid

theorem gives_trackWait (ppm : UInt32) (kind : Wait) (e : UInt64) :
    Procs.Gives t.pid false d.procs (d.trackWait o t ppm kind e).procs := by
  unfold trackWait
  split_ifs
  · exact Procs.gives_wait _ _ _ _ _ _
  · exact .refl _ _

theorem gives_getrq : Procs.Gives t.pid (o.trackIos && (d.findTrack' pdi t.sector).isNone) d.procs
    (d.logTrackGetrq o malloc pdi t).procs := by
  unfold logTrackGetrq
  cases o.trackIos with
  | false => exact .refl _ _
  | true => exact gives_findTrack t.sector

theorem gives_queue : Procs.Gives t.pid (o.trackIos && (isRemapper dev && (d.findTrack' pdi t.sector).isNone))
    d.procs (d.logTrackQueue o malloc pdi t dev).procs := by
  unfold logTrackQueue
  cases o.trackIos with
  | false => exact .refl _ _
  | true =>
    cases isRemapper dev with
    | false => exact .refl _ _
    | true => exact gives_findTrack t.sector

theorem gives_insert : Procs.Gives t.pid (o.trackIos && (d.findTrack' pdi t.sector).isNone) d.procs
    (d.logTrackInsert o malloc pdi t).1.procs := by
  unfold logTrackInsert
  cases o.trackIos with
  | false => exact .refl _ _
  | true =>
    simp only [Bool.not_true, Bool.false_eq_true, if_false, Bool.true_and]
    split_ifs
    · exact gives_findTrack t.sector
    · have h := (@gives_findTrack malloc d pdi t t.sector).trans
        (@gives_trackWait o ((d.findTrack malloc pdi t.pid t.sector).1.setTrack pdi t.sector
          { (d.findTrack malloc pdi t.pid t.sector).2 with queueTime := t.time }) t
          (d.findTrack malloc pdi t.pid t.sector).2.ppm .allocation
          (t.time - (d.findTrack malloc pdi t.pid t.sector).2.allocationTime))
      rwa [Bool.or_false] at h

theorem gives_issue : Procs.Gives t.pid false d.procs (d.logTrackIssue o pdi t).1.procs := by
  unfold logTrackIssue
  split_ifs
  · exact .refl _ _
  · exact .refl _ _
  · split
    · exact .refl _ _
    case h_2 iot _ =>
      exact @gives_trackWait o (d.setTrack pdi t.sector { iot with dispatchTime := t.time }) t _ _ _

theorem gives_complete : Procs.Gives t.pid false d.procs (d.logTrackComplete o pdi t).1.procs := by
  unfold logTrackComplete
  split_ifs
  · exact .refl _ _
  · split
    · exact .refl _ _
    · exact gives_trackWait _ _ _

theorem gives_charge (p : Procs) (f : IoStats → IoStats) :
    Procs.Gives t.pid o.perProcessStats p (if o.perProcessStats then p.charge o t f else p) := by
  cases o.perProcessStats with
  | false => exact .refl _ _
  | true => exact fun h => Procs.enters_charge h f

/-- **`dump_trace`** enters the pid of the record, or leaves the maps alone. -/
theorem gives_dumpTrace : Procs.Gives t.pid (d.entersPid o pdi dev t) d.procs
    (d.dumpTrace o malloc pdi dev cpu t).procs := by
  have htext : (d.dumpTrace o malloc pdi dev cpu t).procs = (d.dumpText o malloc pdi dev cpu t).procs := rfl
  rw [htext]
  unfold dumpText entersPid seeksTrack accounting
  cases hmessage : t.isMessage with
  | true =>
    simp only [if_true, Bool.not_true, Bool.false_and, Bool.and_false, Option.isSome_none, Bool.or_false]
    exact .refl _ _
  | false =>
    cases hpc : t.hasTc blkTcPc with
    | true =>
      simp only [Bool.false_eq_true, if_false, if_true, Bool.not_true, Bool.not_false, Bool.false_and,
        Bool.and_false, Bool.false_or]
      unfold dumpTracePc
      cases BlkTa.ofAction t.action with
      | none =>
        rw [Option.isSome_none, Bool.and_false]
        exact .refl _ _
      | some a =>
        cases a <;> simp only [accountPcQueue, accountPcRequeue, accountPcIssue, accountPcC, account_procs,
          depthDown_procs, depthUp_procs, processFmt_procs, Option.isSome_some, Option.isSome_none, Bool.and_true,
          Bool.and_false, Procs.Gives.refl, gives_charge]
    | false =>
      simp only [Bool.false_eq_true, if_false, Bool.not_false, Bool.true_and]
      unfold dumpTraceFs
      cases BlkTa.ofAction t.action with
      | none =>
        simp only [Option.isSome_none, Bool.and_false, Bool.false_and, Bool.or_false]
        exact .refl _ _
      | some a =>
        cases a with
        | queue =>
          simp only [Option.isSome_some, Bool.and_true, accountQueue, account_procs, processFmt_procs]
          exact gives_queue.trans (gives_charge _ _)
        | getrq =>
          simp only [Option.isSome_none, Bool.and_false, Bool.or_false, Bool.true_and, processFmt_procs]
          exact gives_getrq
        | insert =>
          simp only [Option.isSome_none, Bool.and_false, Bool.or_false, Bool.true_and, processFmt_procs]
          exact gives_insert
        | issue =>
          simp only [Option.isSome_some, Bool.and_true, Bool.false_and, Bool.and_false, Bool.false_or,
            processFmt_procs]
          have h := @gives_issue o ((d.accountIssue o pdi cpu t (t.hasTc blkTcWrite)).depthUp pdi
            (t.hasTc blkTcWrite)) pdi t
          rw [depthUp_procs, accountIssue, account_procs] at h
          have hboth := (gives_charge d.procs (·.accountIssue (t.hasTc blkTcWrite) t.bytes)).trans h
          rwa [Bool.or_false] at hboth
        | complete =>
          simp only [Option.isSome_some, Bool.and_true, Bool.false_and, Bool.and_false, Bool.false_or,
            processFmt_procs]
          have h := @gives_complete o ((d.depthDown pdi (t.hasTc blkTcWrite)).accountC o pdi cpu t
            (t.hasTc blkTcWrite) t.bytes.toInt32) pdi t
          rw [accountC, account_procs, depthDown_procs] at h
          have hboth := (gives_charge d.procs (·.accountC (t.hasTc blkTcWrite) t.bytes.toInt32)).trans h
          rwa [Bool.or_false] at hboth
        | _ =>
          simp only [accountM, accountRequeue, accountUnplug, account_procs, depthDown_procs, processFmt_procs,
            logMerge_procs, Option.isSome_some, Option.isSome_none, Bool.and_true, Bool.and_false, Bool.false_and,
            Bool.false_or, Procs.Gives.refl, gives_charge]

/-! ## Runs -/

/-- The map that an event enters, if its pid has none. -/
def entered (o : Opts) (d : Dumper) : Event → Option Ppm
  | .notify _ bit => if bit.action = blkTnProcess then some ⟨bit.pid, .ofBytes bit.pdu⟩ else none
  | .dump pdi dev _ t => Procs.placeholder t.pid (d.entersPid o pdi dev t)

/-- The maps that the events of a run enter, one after the other. -/
def enteredIn (o : Opts) (malloc : ℕ → IoTrack) (d : Dumper) : List Event → List Ppm
  | [] => []
  | e :: events => (d.entered o e).toList ++ (d.event o malloc e).enteredIn o malloc events

theorem enteredIn_concat (events : List Event) (e : Event) : d.enteredIn o malloc (events ++ [e]) =
    d.enteredIn o malloc events ++ ((d.run o malloc events).entered o e).toList := by
  induction events generalizing d with
  | nil => exact List.append_nil _
  | cons e' events ih =>
    rw [List.cons_append, enteredIn, ih, ← List.append_assoc]
    rfl

/-- **An event** enters its map, and processes keep theirs. -/
theorem enters_event (h : d.procs.HasPpms) (e : Event) :
    Procs.Enters d.procs (d.event o malloc e).procs (d.entered o e) ∧ (d.event o malloc e).procs.HasPpms := by
  cases e with
  | dump pdi dev cpu t => exact gives_dumpTrace h
  | notify native bit =>
    show Procs.Enters _ (d.procs.notify bit) (if _ then _ else _) ∧ (d.procs.notify bit).HasPpms
    rw [Procs.notify]
    split_ifs
    · have he := Procs.enters_addPpmHash d.procs bit.pid (.ofBytes bit.pdu)
      refine ⟨he, h.enters he ?_⟩
      rw [Procs.addPpmHash]
      split <;> rfl
    · exact ⟨.of_ppms rfl, h⟩

/-- **The map of a pid** is the first that was entered for it. -/
theorem run_findPpm (events : List Event) :
    (∀ pid, (run o malloc {} events).procs.findPpm pid =
      (enteredIn o malloc {} events).find? fun ppm => ppm.pid = pid) ∧
    (run o malloc {} events).procs.HasPpms := by
  induction events using List.reverseRecOn with
  | nil =>
    refine ⟨fun pid => ?_, nofun⟩
    simp [run, enteredIn, Procs.findPpm]
  | append_singleton events e ih =>
    obtain ⟨hfind, hhas⟩ := ih
    obtain ⟨he, hhas'⟩ := @enters_event o malloc _ hhas e
    rw [run_concat]
    refine ⟨fun pid => ?_, hhas'⟩
    rw [he, hfind, enteredIn_concat, List.find?_append]
    cases (run o malloc {} events).entered o e with
    | none => rfl
    | some ppm => by_cases hpid : ppm.pid = pid <;> simp [Option.filter, hpid]

/-- The names that the `PROCESS` notifies of a pid give. -/
def namesGiven (events : List Event) (pid : UInt32) : List Comm :=
  events.filterMap fun
    | .notify _ bit => if bit.action = blkTnProcess ∧ bit.pid = pid then some (.ofBytes bit.pdu) else none
    | .dump .. => none

/-- A pid has the name of its last `PROCESS` notify. Without one it has none, or the placeholder. -/
structure NamesRight (o : Opts) (malloc : ℕ → IoTrack) (events : List Event) : Prop where
  given : ∀ pid name, (namesGiven events pid).getLast? = some name →
    (run o malloc {} events).procs.findProcessName pid = some name
  unknown : ∀ pid, namesGiven events pid = [] → (run o malloc {} events).procs.findProcessName pid = none ∨
    (run o malloc {} events).procs.findProcessName pid = some .unknown

/-- **Names** are right just if what entered a pid first gave it the name of its last notify. -/
theorem namesRight_iff (o : Opts) (malloc : ℕ → IoTrack) (events : List Event) : NamesRight o malloc events ↔
    ∀ pid name, (namesGiven events pid).getLast? = some name →
      ((enteredIn o malloc {} events).find? fun ppm => ppm.pid = pid).map Ppm.comm = some name := by
  have hname : ∀ pid, (run o malloc {} events).procs.findProcessName pid =
      ((enteredIn o malloc {} events).find? fun ppm => ppm.pid = pid).map Ppm.comm := by
    intro pid
    rw [Procs.findProcessName, (run_findPpm events).1]
  constructor
  · intro h pid name hlast
    rw [← hname]
    exact h.given pid name hlast
  · intro h
    refine ⟨fun pid name hlast => (hname pid).trans (h pid name hlast), fun pid hnone => ?_⟩
    have hnot : ¬ Notified events pid := by
      rintro ⟨native, bit, hmem, hprocess, hpid⟩
      have hgiven := List.filterMap_eq_nil_iff.mp hnone _ hmem
      simp [hprocess, hpid] at hgiven
    have hunknown := (@run_namedIn o malloc events).nameOf hnot
    rw [Procs.findProcessName]
    cases hppm : (run o malloc {} events).procs.findPpm pid with
    | none => exact Or.inl rfl
    | some ppm =>
      rw [Procs.nameOf_of_some hppm] at hunknown
      exact Or.inr (congrArg some hunknown)

/-- A read of pid 1 is queued before the notify that names it. -/
theorem not_namesRight : ¬ NamesRight byNameOpts (fun _ => ⟨0, 0, 0, 0, 0⟩) [queueOf 1, processOf 1] := by
  intro h
  have hname := h.given 1 (.ofBytes [0x61]) (by decide)
  revert hname
  decide +kernel

end Dumper

end Blktrace.Blkparse
