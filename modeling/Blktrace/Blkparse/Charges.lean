import Blktrace.Blkparse.Tally
import Blktrace.Blkparse.Tracks

/-!
# Who is charged

A run of `dump_trace` leaves in the statistics of each CPU the tally of the records dumped on it, and
in those of each process the tally of the records charged to it. What the tracks do to the processes
on the way is quiet: it names pids, and keeps waits.
-/

namespace Blktrace.Blkparse

namespace Procs

variable {o : Opts} {p q : Procs} {pid : UInt32}

/-- The part of an entry that matters to the statistics. -/
def core (ppi : Ppi) : Ppm × IoStats × List BlkIoTrace := (ppi.ppm, ppi.ioStats, ppi.charged)

/-- What happens to the processes without a charge. -/
inductive Quiet (o : Opts) (pid : UInt32) : Procs → Procs → Prop
  | refl (p : Procs) : Quiet o pid p p
  | name {p q : Procs} (h : Quiet o pid p q) : Quiet o pid p (q.ppmOf pid).1
  | wait {p q : Procs} (h : Quiet o pid p q) (ppm : UInt32) (kind : Wait) (w : Bool)
    (elapsed : UInt64) : Quiet o pid p (q.wait o ppm kind w elapsed)

theorem Quiet.trans {r : Procs} (h : Quiet o pid p q) (h' : Quiet o pid q r) : Quiet o pid p r := by
  induction h' with
  | refl => exact h
  | name _ ih => exact ih.name
  | wait _ ppm kind w elapsed ih => exact ih.wait ppm kind w elapsed

theorem map_core_modify (i : Nat) {f : Ppi → Ppi} (hf : ∀ ppi, core (f ppi) = core ppi) :
    (p.modify i f).ppis.map core = p.ppis.map core := by
  apply List.ext_getElem?
  intro j
  simp only [modify, List.getElem?_map, List.getElem?_modify]
  by_cases hij : i = j
  · subst hij
    cases p.ppis[i]? <;> simp [hf]
  · simp [hij]

theorem ppmOf_ppis : (p.ppmOf pid).1.ppis = p.ppis := by
  unfold ppmOf
  split
  · rfl
  · unfold addPpmHash
    split <;> rfl

theorem map_core_findPpi : (p.findPpi o pid).1.ppis.map core = p.ppis.map core := by
  unfold findPpi
  split_ifs
  · rfl
  · split
    · rfl
    · split
      · rfl
      · refine map_core_modify _ fun ppi => ?_
        split_ifs <;> rfl

theorem map_core_wait (kind : Wait) (w : Bool) (elapsed : UInt64) :
    (p.wait o pid kind w elapsed).ppis.map core = p.ppis.map core := by
  have h := @map_core_findPpi o p pid
  unfold wait
  split
  case h_1 q heq => rw [heq] at h; exact h
  case h_2 q i heq =>
    rw [heq] at h
    refine (map_core_modify i fun ppi => ?_).trans h
    split_ifs <;> rfl

/-- Nothing quiet changes what is charged. -/
theorem Quiet.map_core (h : Quiet o pid p q) : q.ppis.map core = p.ppis.map core := by
  induction h with
  | refl => rfl
  | name _ ih => rw [ppmOf_ppis, ih]
  | wait _ ppm kind w elapsed ih => rw [map_core_wait, ih]

/-! ## A charge -/

/-- What finding the entry of a pid does to the entries: nothing, or a new one comes in front. -/
theorem findProcessIoStats_cases :
    (∃ i, p.findPpi o pid = ((p.findPpi o pid).1, some i) ∧
      p.findProcessIoStats o pid = ((p.findPpi o pid).1, i)) ∨
    ((p.findPpi o pid).2 = none ∧ p.findProcessIoStats o pid =
      ({ ((p.findPpi o pid).1.ppmOf pid).1 with
        ppis := { ppm := ((p.findPpi o pid).1.ppmOf pid).2 } :: ((p.findPpi o pid).1.ppmOf pid).1.ppis },
        0)) := by
  unfold findProcessIoStats
  generalize p.findPpi o pid = r
  obtain ⟨q, i⟩ := r
  cases i with
  | none => exact .inr ⟨rfl, rfl⟩
  | some i => exact .inl ⟨i, rfl, rfl⟩

theorem forall_modify {P : Ppi → Prop} {f : Ppi → Ppi} (hf : ∀ ppi, P ppi → P (f ppi)) (i : Nat)
    (h : ∀ ppi ∈ p.ppis, P ppi) : ∀ ppi ∈ (p.modify i f).ppis, P ppi := by
  intro ppi hppi
  obtain ⟨j, hj⟩ := List.getElem?_of_mem hppi
  simp only [modify, List.getElem?_modify] at hj
  cases hget : p.ppis[j]? with
  | none => simp [hget] at hj
  | some ppi' =>
    have hold := h ppi' (List.mem_of_getElem? hget)
    by_cases hij : i = j
    · have hnew : f ppi' = ppi := by simpa [hget, hij] using hj
      exact hnew ▸ hf ppi' hold
    · have hsame : ppi' = ppi := by simpa [hget, hij] using hj
      exact hsame ▸ hold

/-- A property of what is charged, entry by entry. -/
theorem forall_of_map_core {P : Ppi → Prop} (hP : ∀ ppi ppi', core ppi = core ppi' → P ppi → P ppi')
    (h : q.ppis.map core = p.ppis.map core) (hp : ∀ ppi ∈ p.ppis, P ppi) : ∀ ppi ∈ q.ppis, P ppi := by
  intro ppi hppi
  have hmem : core ppi ∈ p.ppis.map core := h ▸ List.mem_map_of_mem hppi
  obtain ⟨ppi', hppi', hcore⟩ := List.mem_map.mp hmem
  exact hP ppi' ppi hcore (hp ppi' hppi')

/-- The statistics of an entry are the tally of what was charged to it. -/
def Tallied (ppi : Ppi) : Prop := ppi.ioStats = tally ppi.charged

theorem Tallied.congr (ppi ppi' : Ppi) (h : core ppi = core ppi') (ht : Tallied ppi) :
    Tallied ppi' := by
  obtain ⟨-, hstats, hcharged⟩ := Prod.ext_iff.mp h |>.imp_right Prod.ext_iff.mp
  change ppi.ioStats = ppi'.ioStats at hstats
  change ppi.charged = ppi'.charged at hcharged
  rw [Tallied, ← hstats, ← hcharged]
  exact ht

theorem Quiet.tallied (h : Quiet o pid p q) (hp : ∀ ppi ∈ p.ppis, Tallied ppi) :
    ∀ ppi ∈ q.ppis, Tallied ppi := forall_of_map_core Tallied.congr h.map_core hp

theorem tallied_charge {t : BlkIoTrace} {a : Accounting} (ha : accounting t = some a)
    (hp : ∀ ppi ∈ p.ppis, Tallied ppi) : ∀ ppi ∈ (p.charge o t (a.apply t)).ppis, Tallied ppi := by
  have hfound : ∀ ppi ∈ (p.findPpi o t.pid).1.ppis, Tallied ppi :=
    forall_of_map_core Tallied.congr map_core_findPpi hp
  unfold charge
  have hcases := @findProcessIoStats_cases o p t.pid
  generalize p.findProcessIoStats o t.pid = r at hcases
  obtain ⟨q, i⟩ := r
  refine forall_modify (fun ppi hppi => ?_) i ?_
  · show a.apply t ppi.ioStats = tally (ppi.charged ++ [t])
    rw [tally_concat, IoStats.account, ha, ← hppi]
  · rcases hcases with ⟨j, -, heq⟩ | ⟨-, heq⟩
    · obtain ⟨rfl, -⟩ := Prod.mk.inj heq
      exact hfound
    · obtain ⟨rfl, -⟩ := Prod.mk.inj heq
      dsimp only
      rw [List.forall_mem_cons, ppmOf_ppis]
      exact ⟨rfl, hfound⟩

end Procs

namespace Dumper

variable {o : Opts} {malloc : Nat → IoTrack} {d : Dumper} {pdi : Nat} {t : BlkIoTrace} {cpu : UInt32}

/-! ## The CPUs -/

theorem findTrack_cpus (pid : UInt32) (sector : UInt64) :
    (d.findTrack malloc pdi pid sector).1.cpus = d.cpus := by
  unfold findTrack
  split <;> rfl

theorem trackWait_cpus (ppm : UInt32) (kind : Wait) (e : UInt64) :
    (d.trackWait o t ppm kind e).cpus = d.cpus := by
  unfold trackWait
  split_ifs <;> rfl

theorem logTrackFrontmerge_cpus : (d.logTrackFrontmerge o pdi t).cpus = d.cpus := by
  unfold logTrackFrontmerge
  split_ifs
  · rfl
  · split <;> rfl

theorem logTrackGetrq_cpus : (d.logTrackGetrq o malloc pdi t).cpus = d.cpus := by
  unfold logTrackGetrq
  split_ifs
  · rfl
  · exact findTrack_cpus _ _

theorem logTrackQueue_cpus (dev : UInt32) : (d.logTrackQueue o malloc pdi t dev).cpus = d.cpus := by
  unfold logTrackQueue
  split_ifs
  · rfl
  · rfl
  · exact findTrack_cpus _ _

theorem logTrackInsert_cpus : (d.logTrackInsert o malloc pdi t).1.cpus = d.cpus := by
  unfold logTrackInsert
  split_ifs
  · rfl
  · dsimp only
    split_ifs
    · exact findTrack_cpus _ _
    · rw [trackWait_cpus]
      exact findTrack_cpus _ _

theorem logTrackIssue_cpus : (d.logTrackIssue o pdi t).1.cpus = d.cpus := by
  unfold logTrackIssue
  split_ifs
  · rfl
  · rfl
  · split
    · rfl
    · exact trackWait_cpus _ _ _

theorem logTrackComplete_cpus : (d.logTrackComplete o pdi t).1.cpus = d.cpus := by
  unfold logTrackComplete
  split_ifs
  · rfl
  · split
    · rfl
    · exact trackWait_cpus _ _ _

theorem depthDown_cpus (w : Bool) : (d.depthDown pdi w).cpus = d.cpus := by
  unfold depthDown
  split_ifs <;> rfl

theorem processFmt_cpus (act : Act) (e : UInt64) : (d.processFmt act t e).cpus = d.cpus := rfl

theorem depthUp_cpus (w : Bool) : (d.depthUp pdi w).cpus = d.cpus := rfl

theorem logMerge_cpus (act : Act) : (d.logMerge o pdi t act).cpus = d.cpus := by
  unfold logMerge
  rw [processFmt_cpus]
  split_ifs
  · exact logTrackFrontmerge_cpus
  · rfl

/-- The statistics of a CPU, changed. -/
def charged (cpus : Nat → UInt32 → IoStats) (pdi : Nat) (cpu : UInt32) (f : IoStats → IoStats) :
    Nat → UInt32 → IoStats :=
  Function.update cpus pdi (Function.update (cpus pdi) cpu (f (cpus pdi cpu)))

theorem account_cpus (f : IoStats → IoStats) :
    (d.account o pdi cpu t f).cpus = charged d.cpus pdi cpu f := by
  unfold account
  split_ifs <;> rfl

theorem charged_id (cpus : Nat → UInt32 → IoStats) : charged cpus pdi cpu (fun ios => ios) = cpus := by
  rw [charged, Function.update_eq_self, Function.update_eq_self]

/-- **`dump_trace`** accounts the record, as what it is, in the statistics of the CPU. -/
theorem dumpTrace_cpus (dev : UInt32) :
    (d.dumpTrace o malloc pdi dev cpu t).cpus = charged d.cpus pdi cpu (·.account t) := by
  have htext : (d.dumpTrace o malloc pdi dev cpu t).cpus =
      (d.dumpText o malloc pdi dev cpu t).cpus := rfl
  rw [htext]
  unfold dumpText IoStats.account accounting
  split_ifs with hmessage hpc
  · exact (charged_id _).symm
  · unfold dumpTracePc
    cases BlkTa.ofAction t.action with
    | none => exact (charged_id _).symm
    | some a =>
      cases a <;> simp only [accountPcQueue, accountPcRequeue, accountPcIssue, accountPcC,
        account_cpus, depthDown_cpus, depthUp_cpus, processFmt_cpus, Accounting.apply, charged_id]
  · unfold dumpTraceFs
    cases BlkTa.ofAction t.action with
    | none => exact (charged_id _).symm
    | some a =>
      cases a <;> simp only [accountQueue, accountM, accountRequeue, accountIssue, accountC,
        accountUnplug, account_cpus, depthDown_cpus, depthUp_cpus, processFmt_cpus, logMerge_cpus,
        logTrackQueue_cpus, logTrackInsert_cpus, logTrackGetrq_cpus, logTrackIssue_cpus,
        logTrackComplete_cpus, Accounting.apply, charged_id]

/-! ## The processes -/

theorem findTrack_quiet (sector : UInt64) :
    Procs.Quiet o t.pid d.procs (d.findTrack malloc pdi t.pid sector).1.procs := by
  unfold findTrack
  split
  · exact .refl _
  · exact (Procs.Quiet.refl d.procs).name

theorem trackWait_quiet (ppm : UInt32) (kind : Wait) (e : UInt64) :
    Procs.Quiet o t.pid d.procs (d.trackWait o t ppm kind e).procs := by
  unfold trackWait
  split_ifs
  · exact (Procs.Quiet.refl d.procs).wait ppm kind _ e
  · exact .refl _

theorem logTrackFrontmerge_procs : (d.logTrackFrontmerge o pdi t).procs = d.procs := by
  unfold logTrackFrontmerge
  split_ifs
  · rfl
  · split <;> rfl

theorem logTrackGetrq_quiet : Procs.Quiet o t.pid d.procs (d.logTrackGetrq o malloc pdi t).procs := by
  unfold logTrackGetrq
  split_ifs
  · exact .refl _
  · exact findTrack_quiet _

theorem logTrackQueue_quiet (dev : UInt32) :
    Procs.Quiet o t.pid d.procs (d.logTrackQueue o malloc pdi t dev).procs := by
  unfold logTrackQueue
  split_ifs
  · exact .refl _
  · exact .refl _
  · exact findTrack_quiet _

theorem logTrackInsert_quiet :
    Procs.Quiet o t.pid d.procs (d.logTrackInsert o malloc pdi t).1.procs := by
  unfold logTrackInsert
  split_ifs
  · exact .refl _
  · dsimp only
    split_ifs
    · exact findTrack_quiet _
    · refine (@findTrack_quiet o malloc d pdi t t.sector).trans ?_
      exact @trackWait_quiet o ((d.findTrack malloc pdi t.pid t.sector).1.setTrack pdi t.sector
        { (d.findTrack malloc pdi t.pid t.sector).2 with queueTime := t.time }) t _ _ _

theorem logTrackIssue_quiet : Procs.Quiet o t.pid d.procs (d.logTrackIssue o pdi t).1.procs := by
  unfold logTrackIssue
  split_ifs
  · exact .refl _
  · exact .refl _
  · split
    · exact .refl _
    case h_2 iot _ =>
      exact @trackWait_quiet o (d.setTrack pdi t.sector { iot with dispatchTime := t.time }) t _ _ _

theorem logTrackComplete_quiet :
    Procs.Quiet o t.pid d.procs (d.logTrackComplete o pdi t).1.procs := by
  unfold logTrackComplete
  split_ifs
  · exact .refl _
  · split
    · exact .refl _
    · exact trackWait_quiet _ _ _

theorem depthDown_procs (w : Bool) : (d.depthDown pdi w).procs = d.procs := by
  unfold depthDown
  split_ifs <;> rfl

theorem depthUp_procs (w : Bool) : (d.depthUp pdi w).procs = d.procs := rfl

theorem processFmt_procs (act : Act) (e : UInt64) : (d.processFmt act t e).procs = d.procs := rfl

theorem logMerge_procs (act : Act) : (d.logMerge o pdi t act).procs = d.procs := by
  unfold logMerge
  rw [processFmt_procs]
  split_ifs
  · exact logTrackFrontmerge_procs
  · rfl

theorem account_procs (f : IoStats → IoStats) :
    (d.account o pdi cpu t f).procs = if o.perProcessStats then d.procs.charge o t f else d.procs := by
  unfold account
  split_ifs <;> rfl

/-- The processes when a record is charged: a `Q` has been given to the tracks before. -/
def atCharge (o : Opts) (malloc : Nat → IoTrack) (d : Dumper) (pdi : Nat) (dev : UInt32)
    (t : BlkIoTrace) : Procs :=
  if accounting t = some .queue then (d.logTrackQueue o malloc pdi t dev).procs else d.procs

theorem atCharge_quiet (dev : UInt32) :
    Procs.Quiet o t.pid d.procs (d.atCharge o malloc pdi dev t) := by
  unfold atCharge
  split_ifs
  · exact logTrackQueue_quiet dev
  · exact .refl _

/-- **`dump_trace`** charges an accounted record to its process, and is quiet otherwise. -/
theorem dumpTrace_procs (dev : UInt32) :
    match accounting t with
    | some a => Procs.Quiet o t.pid (if o.perProcessStats then
        (d.atCharge o malloc pdi dev t).charge o t (a.apply t) else d.atCharge o malloc pdi dev t)
        (d.dumpTrace o malloc pdi dev cpu t).procs
    | none => Procs.Quiet o t.pid d.procs (d.dumpTrace o malloc pdi dev cpu t).procs := by
  have htext : (d.dumpTrace o malloc pdi dev cpu t).procs =
      (d.dumpText o malloc pdi dev cpu t).procs := rfl
  rw [htext]
  unfold dumpText atCharge
  by_cases hmessage : t.isMessage = true
  · have hacc : accounting t = none := by rw [accounting, if_pos hmessage]
    rw [hacc, if_pos hmessage]
    exact .refl _
  rw [if_neg hmessage]
  by_cases hpc : t.hasTc blkTcPc = true
  · rw [if_pos hpc]
    unfold dumpTracePc accounting
    rw [if_neg hmessage, if_pos hpc]
    cases BlkTa.ofAction t.action with
    | none => exact .refl _
    | some a =>
      cases a <;> simp only [accountPcQueue, accountPcRequeue, accountPcIssue, accountPcC,
        account_procs, depthDown_procs, depthUp_procs, processFmt_procs, reduceCtorEq, if_false,
        Option.some.injEq] <;> exact .refl _
  · rw [if_neg hpc]
    unfold dumpTraceFs accounting
    rw [if_neg hmessage, if_neg hpc]
    cases BlkTa.ofAction t.action with
    | none => exact .refl _
    | some a =>
      cases a with
      | getrq => exact logTrackGetrq_quiet
      | insert => exact logTrackInsert_quiet
      | issue =>
        have h := @logTrackIssue_quiet o ((d.accountIssue o pdi cpu t (t.hasTc blkTcWrite)).depthUp pdi
          (t.hasTc blkTcWrite)) pdi t
        rw [depthUp_procs, accountIssue, account_procs] at h
        exact h
      | complete =>
        have h := @logTrackComplete_quiet o ((d.depthDown pdi (t.hasTc blkTcWrite)).accountC o pdi cpu t
          (t.hasTc blkTcWrite) t.bytes.toInt32) pdi t
        rw [accountC, account_procs, depthDown_procs] at h
        exact h
      | _ =>
        simp only [accountQueue, accountM, accountRequeue, accountUnplug, account_procs,
          depthDown_procs, processFmt_procs, logMerge_procs, reduceCtorEq, if_false, if_true,
          Option.some.injEq]
        exact .refl _

theorem dumpTrace_tallied (dev : UInt32) (h : ∀ ppi ∈ d.procs.ppis, Procs.Tallied ppi) :
    ∀ ppi ∈ (d.dumpTrace o malloc pdi dev cpu t).procs.ppis, Procs.Tallied ppi := by
  have hprocs := @dumpTrace_procs o malloc d pdi t cpu dev
  have hcharge := (@atCharge_quiet o malloc d pdi t dev).tallied h
  cases hacc : accounting t with
  | none =>
    rw [hacc] at hprocs
    exact hprocs.tallied h
  | some a =>
    rw [hacc] at hprocs
    refine hprocs.tallied ?_
    split_ifs
    · exact Procs.tallied_charge hacc hcharge
    · exact hcharge

/-! ## Runs -/

/-- The records dumped on a CPU. -/
def dumpedOn (pdi : Nat) (cpu : UInt32) (events : List Event) : List BlkIoTrace :=
  events.filterMap fun
    | .dump pdi' _ cpu' t => if pdi' = pdi ∧ cpu' = cpu then some t else none
    | .notify _ _ => none

theorem run_concat (events : List Event) (e : Event) :
    run o malloc d (events ++ [e]) = (run o malloc d events).event o malloc e := List.foldl_concat ..

/-- **The statistics of a CPU** are the tally of its records. -/
theorem run_cpus (events : List Event) :
    (run o malloc {} events).cpus pdi cpu = tally (dumpedOn pdi cpu events) := by
  induction events using List.reverseRecOn with
  | nil => rfl
  | append_singleton events e ih =>
    rw [run_concat, dumpedOn, List.filterMap_append]
    cases e with
    | notify native bit =>
      simp only [List.filterMap_cons_none, List.filterMap_nil, List.append_nil]
      exact ih
    | dump pdi' dev cpu' t =>
      show (dumpTrace o malloc _ pdi' dev cpu' t).cpus pdi cpu = _
      rw [dumpTrace_cpus, charged]
      by_cases hpdi : pdi' = pdi
      · subst hpdi
        by_cases hcpu : cpu' = cpu
        · subst hcpu
          rw [Function.update_self, Function.update_self, ih, ← tally_concat]
          simp [dumpedOn]
        · rw [Function.update_self, Function.update_of_ne (Ne.symm hcpu), ih]
          simp [dumpedOn, hcpu]
      · rw [Function.update_of_ne (Ne.symm hpdi), ih]
        simp [dumpedOn, hpdi]

/-- **The statistics of a process** are the tally of what was charged to it. -/
theorem run_tallied (events : List Event) :
    ∀ ppi ∈ (run o malloc {} events).procs.ppis, Procs.Tallied ppi := by
  induction events using List.reverseRecOn with
  | nil => exact fun ppi hppi => nomatch hppi
  | append_singleton events e ih =>
    rw [run_concat]
    cases e with
    | notify native bit =>
      refine Procs.forall_of_map_core Procs.Tallied.congr ?_ ih
      show (Procs.notify _ bit).ppis.map _ = _
      unfold Procs.notify Procs.addPpmHash
      split_ifs
      · split <;> rfl
      · rfl
    | dump pdi dev cpu t => exact dumpTrace_tallied dev ih

end Dumper

end Blktrace.Blkparse
