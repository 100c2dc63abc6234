import Blktrace.Lib.Runs
import Blktrace.Lib.Tallies
import Blktrace.Blkparse.Charges

/-!
# Processes by name

With `-h` a record is charged to the entry of the name that its pid has. A pid without a name gets
the name `"unknown"`, but `find_process_io_stats` does not look for the entry of that name then: it
adds one.
-/

namespace Blktrace.Blkparse

open Tallies

namespace Procs

variable {o : Opts} {p q : Procs} {t : BlkIoTrace} {l : List (Comm × BlkIoTrace)}

/-- An entry's name, and what was charged to it. -/
def group (ppi : Ppi) : Comm × List BlkIoTrace := (ppi.ppm.comm, ppi.charged)

def groups (p : Procs) : List (Comm × List BlkIoTrace) := p.ppis.map group

def names (p : Procs) : List Comm := p.ppis.map fun ppi => ppi.ppm.comm

/-- The name a pid has, or gets. -/
def nameOf (p : Procs) (pid : UInt32) : Comm := (p.ppmOf pid).2.comm

theorem map_fst_groups (p : Procs) : p.groups.map Prod.fst = p.names := by
  rw [groups, List.map_map]
  rfl

theorem groups_eq (h : q.ppis.map core = p.ppis.map core) : q.groups = p.groups := by
  have hcore : ∀ r : Procs, r.groups = (r.ppis.map core).map fun c => (c.1.comm, c.2.2) := by
    intro r
    rw [List.map_map]
    rfl
  rw [hcore, hcore, h]

theorem names_eq (h : q.groups = p.groups) : q.names = p.names := by
  rw [← map_fst_groups, ← map_fst_groups, h]

theorem groups_modify (i : Nat) {f : Ppi → Ppi} {g : Comm × List BlkIoTrace → Comm × List BlkIoTrace}
    (hf : ∀ ppi, group (f ppi) = g (group ppi)) : (p.modify i f).groups = p.groups.modify i g := by
  apply List.ext_getElem?
  intro j
  simp only [groups, modify, List.getElem?_map, List.getElem?_modify]
  by_cases hij : i = j
  · cases p.ppis[j]? <;> simp [hij, hf]
  · simp [hij]

theorem nameOf_of_some {pid : UInt32} {ppm : Ppm} (h : p.findPpm pid = some ppm) :
    p.nameOf pid = ppm.comm := by
  rw [nameOf, ppmOf, h]

theorem nameOf_of_none {pid : UInt32} (h : p.findPpm pid = none) : p.nameOf pid = .unknown := by
  rw [nameOf, ppmOf, h]

/-- **A search by name** is for the name the pid has, if it has one. -/
theorem findPpi_byName (ho : o.ppiHashByPid = false) (pid : UInt32) :
    (p.findPpi o pid).2 = if p.findPpm pid = none then none
      else p.names.findIdx? fun comm => comm == p.nameOf pid := by
  have hby : ∀ comm : Comm, p.findPpiByName o comm = p.names.findIdx? fun c => c == comm := by
    intro comm
    rw [findPpiByName, names, List.findIdx?_map]
    congr 1
    funext ppi
    by_cases hname : ppi.ppm.comm = comm
    · simp [ppiHash, ho, hname]
    · simp [hname]
  rw [findPpi, ho, findProcessName]
  cases hppm : p.findPpm pid with
  | none => rfl
  | some ppm =>
    rw [nameOf_of_some hppm]
    simp only [Bool.false_eq_true, if_false, Option.map_some, hby, reduceCtorEq]
    cases p.names.findIdx? fun c => c == ppm.comm <;> rfl

theorem findPpi_ppms (pid : UInt32) : (p.findPpi o pid).1.ppms = p.ppms := by
  unfold findPpi
  split_ifs
  · rfl
  · split
    · rfl
    · split <;> rfl

theorem wait_ppms (pid : UInt32) (kind : Wait) (w : Bool) (elapsed : UInt64) :
    (p.wait o pid kind w elapsed).ppms = p.ppms := by
  have hfind := @findPpi_ppms o p pid
  unfold wait
  generalize p.findPpi o pid = r at hfind
  obtain ⟨q, i⟩ := r
  cases i <;> exact hfind

/-- **A charge**: the entry of the name has one more record, or there is a new entry; and that is for a
name without one, unless the pid has no name. -/
theorem charge_cases (ho : o.ppiHashByPid = false) (f : IoStats → IoStats) :
    (∃ i, p.findPpm t.pid ≠ none ∧ p.names[i]? = some (p.nameOf t.pid) ∧
      (p.charge o t f).groups = p.groups.modify i fun g => (g.1, g.2 ++ [t])) ∨
    ((p.findPpm t.pid ≠ none → p.nameOf t.pid ∉ p.names) ∧
      (p.charge o t f).groups = (p.nameOf t.pid, [t]) :: p.groups) := by
  have hfound := @findPpi_byName o p ho t.pid
  have hcore := groups_eq (@map_core_findPpi o p t.pid)
  have hppms : ((p.findPpi o t.pid).1.ppmOf t.pid).2 = (p.ppmOf t.pid).2 := by
    rw [ppmOf, ppmOf, findPpm, findPpm, findPpi_ppms]
    split <;> rfl
  have hcharge : ∀ (r : Procs) i, (r.modify i fun ppi =>
      { ppi with ioStats := f ppi.ioStats, charged := ppi.charged ++ [t] }).groups =
        r.groups.modify i fun g => (g.1, g.2 ++ [t]) := fun r i => groups_modify i fun _ => rfl
  rw [charge]
  rcases @findProcessIoStats_cases o p t.pid with ⟨i, hfind, hstats⟩ | ⟨hfind, hstats⟩
  · rw [hstats]
    have hi : (p.findPpi o t.pid).2 = some i := congrArg Prod.snd hfind
    rw [hfound, Option.ite_none_left_eq_some] at hi
    obtain ⟨hnamed, hi⟩ := hi
    obtain ⟨hlt, hname, -⟩ := List.findIdx?_eq_some_iff_getElem.mp hi
    refine Or.inl ⟨i, hnamed, ?_, ?_⟩
    · rw [List.getElem?_eq_getElem hlt, beq_iff_eq.mp hname]
    · dsimp only
      rw [hcharge, hcore]
  · rw [hstats]
    rw [hfind] at hfound
    refine Or.inr ⟨fun hnamed => ?_, ?_⟩
    · rw [if_neg hnamed] at hfound
      intro hmem
      exact absurd (List.findIdx?_eq_none_iff.mp hfound.symm _ hmem) (by simp)
    · dsimp only
      rw [hcharge, hppms]
      show List.modify (_ :: List.map group _) 0 _ = _
      rw [ppmOf_ppis, List.modify_zero_cons]
      exact congrArg (_ :: ·) hcore

/-- One charge more, where it does not make a second entry. -/
theorem charge_grouped (ho : o.ppiHashByPid = false) (h : Grouped p.groups l)
    (hok : p.findPpm t.pid = none → .unknown ∉ p.names) (f : IoStats → IoStats) :
    Grouped (p.charge o t f).groups (l ++ [(p.nameOf t.pid, t)]) := by
  rcases @charge_cases o p t ho f with ⟨i, -, hi, heq⟩ | ⟨hnew, heq⟩
  · rw [heq]
    exact h.found (by rw [map_fst_groups, hi]) t
  · rw [heq]
    refine h.new ?_ t
    rw [map_fst_groups]
    by_cases hppm : p.findPpm t.pid = none
    · rw [nameOf_of_none hppm]
      exact hok hppm
    · exact hnew hppm

/-- Where it does, there are two from then on. -/
theorem charge_nodup (ho : o.ppiHashByPid = false) {f : IoStats → IoStats}
    (h : (p.charge o t f).names.Nodup) :
    p.names.Nodup ∧ (p.findPpm t.pid = none → .unknown ∉ p.names) := by
  rw [← map_fst_groups] at h
  rcases @charge_cases o p t ho f with ⟨i, hnamed, -, heq⟩ | ⟨-, heq⟩
  · rw [heq] at h
    rw [map_fst_modify, map_fst_groups] at h
    exact ⟨h, fun hnone => absurd hnone hnamed⟩
  · rw [heq, List.map_cons, map_fst_groups, List.nodup_cons] at h
    exact ⟨h.2, fun hnone => nameOf_of_none hnone ▸ h.1⟩

/-! ## Where the names are from -/

/-- Only the pids in `S` were given a name. -/
def NamedIn (S : UInt32 → Prop) (p : Procs) : Prop := ∀ ppm ∈ p.ppms, ppm.comm = .unknown ∨ S ppm.pid

variable {S : UInt32 → Prop}

theorem NamedIn.ppmOf (h : p.NamedIn S) (pid : UInt32) : (p.ppmOf pid).1.NamedIn S := by
  unfold Procs.ppmOf addPpmHash
  cases p.findPpm pid with
  | some ppm => exact h
  | none => exact List.forall_mem_cons.mpr ⟨Or.inl rfl, h⟩

theorem NamedIn.quiet {pid : UInt32} (h : p.NamedIn S) (hq : Quiet o pid p q) : q.NamedIn S := by
  induction hq with
  | refl => exact h
  | name _ ih => exact ih.ppmOf _
  | @wait q _ ppm kind w elapsed ih =>
    rw [NamedIn, wait_ppms]
    exact ih

theorem NamedIn.charge (h : p.NamedIn S) (f : IoStats → IoStats) : (p.charge o t f).NamedIn S := by
  have hfind : (p.findPpi o t.pid).1.NamedIn S := by
    rw [NamedIn, findPpi_ppms]
    exact h
  unfold Procs.charge
  rcases @findProcessIoStats_cases o p t.pid with ⟨i, -, heq⟩ | ⟨-, heq⟩
  · rw [heq]
    exact hfind
  · rw [heq]
    exact hfind.ppmOf t.pid

theorem NamedIn.nameOf (h : p.NamedIn S) {pid : UInt32} (hpid : ¬ S pid) : p.nameOf pid = .unknown := by
  cases hppm : p.findPpm pid with
  | none => exact nameOf_of_none hppm
  | some ppm =>
    have hsame : ppm.pid = pid := by
      have hfound := List.find?_some hppm
      simp only [Bool.and_eq_true, beq_iff_eq] at hfound
      exact hfound.2
    rw [nameOf_of_some hppm]
    exact (h ppm (List.mem_of_find?_eq_some hppm)).resolve_right (hsame ▸ hpid)

end Procs

namespace Dumper

variable {o : Opts} {malloc : Nat → IoTrack} {d : Dumper} {e : Event} {events : List Event}

/-! ## Runs -/

/-- The record that an event charges, with the name that its pid has then. -/
def chargedBy (o : Opts) (malloc : Nat → IoTrack) (d : Dumper) : Event → List (Comm × BlkIoTrace)
  | .notify _ _ => []
  | .dump pdi dev _ t =>
    if (accounting t).isSome then [((d.atCharge o malloc pdi dev t).nameOf t.pid, t)] else []

/-- The records charged in a run, each with the name that its pid had. -/
def chargedAs (o : Opts) (malloc : Nat → IoTrack) (d : Dumper) : List Event → List (Comm × BlkIoTrace)
  | [] => []
  | e :: events => d.chargedBy o malloc e ++ (d.event o malloc e).chargedAs o malloc events

theorem chargedAs_concat (events : List Event) (e : Event) : d.chargedAs o malloc (events ++ [e]) =
    d.chargedAs o malloc events ++ (d.run o malloc events).chargedBy o malloc e := by
  induction events generalizing d with
  | nil => exact List.append_nil _
  | cons e' events ih =>
    rw [List.cons_append, chargedAs, ih, ← List.append_assoc]
    rfl

/-- Of two entries named `"unknown"` none is made: a pid without a name is charged only where there is no such
entry. -/
def NameOk (o : Opts) (malloc : Nat → IoTrack) (d : Dumper) : Event → Prop
  | .notify _ _ => True
  | .dump pdi dev _ t => (accounting t).isSome → (d.atCharge o malloc pdi dev t).findPpm t.pid = none →
    .unknown ∉ d.procs.names

instance : DecidablePred (NameOk o malloc d)
  | .notify _ _ => .isTrue trivial
  | .dump pdi dev _ t => inferInstanceAs (Decidable ((accounting t).isSome →
      (d.atCharge o malloc pdi dev t).findPpm t.pid = none → .unknown ∉ d.procs.names))

theorem notify_groups (native : Bool) (bit : BlkIoTrace) :
    (d.event o malloc (.notify native bit)).procs.groups = d.procs.groups := by
  show (d.procs.notify bit).groups = _
  unfold Procs.notify Procs.addPpmHash
  split_ifs
  · split <;> rfl
  · rfl

/-- What is left of an event is its charge. -/
theorem dump_groups (hs : o.perProcessStats = true) (pdi : Nat) (dev cpu : UInt32) (t : BlkIoTrace) :
    (d.event o malloc (.dump pdi dev cpu t)).procs.groups = match accounting t with
      | some a => ((d.atCharge o malloc pdi dev t).charge o t (a.apply t)).groups
      | none => d.procs.groups := by
  have hprocs := @dumpTrace_procs o malloc d pdi t cpu dev
  show (d.dumpTrace o malloc pdi dev cpu t).procs.groups = _
  cases hacc : accounting t with
  | none =>
    rw [hacc] at hprocs
    exact Procs.groups_eq hprocs.map_core
  | some a =>
    rw [hacc] at hprocs
    dsimp only at hprocs
    rw [if_pos hs] at hprocs
    exact Procs.groups_eq hprocs.map_core

theorem atCharge_groups (pdi : Nat) (dev : UInt32) (t : BlkIoTrace) :
    (d.atCharge o malloc pdi dev t).groups = d.procs.groups :=
  Procs.groups_eq (atCharge_quiet dev).map_core

theorem event_grouped (ho : o.ppiHashByPid = false) (hs : o.perProcessStats = true)
    {l : List (Comm × BlkIoTrace)} (h : Grouped d.procs.groups l) (hok : d.NameOk o malloc e) :
    Grouped (d.event o malloc e).procs.groups (l ++ d.chargedBy o malloc e) := by
  cases e with
  | notify native bit =>
    rw [notify_groups, chargedBy, List.append_nil]
    exact h
  | dump pdi dev cpu t =>
    have hgroups := @atCharge_groups o malloc d pdi dev t
    rw [dump_groups hs, chargedBy]
    rw [NameOk] at hok
    cases hacc : accounting t with
    | none => simpa using h
    | some a =>
      rw [hacc, ← Procs.names_eq hgroups] at hok
      exact Procs.charge_grouped ho (hgroups ▸ h) (hok rfl) _

theorem event_nodup (ho : o.ppiHashByPid = false) (hs : o.perProcessStats = true)
    (h : (d.event o malloc e).procs.names.Nodup) : d.procs.names.Nodup ∧ d.NameOk o malloc e := by
  rw [← Procs.map_fst_groups] at h
  cases e with
  | notify native bit =>
    rw [notify_groups, Procs.map_fst_groups] at h
    exact ⟨h, trivial⟩
  | dump pdi dev cpu t =>
    have hnames := Procs.names_eq (@atCharge_groups o malloc d pdi dev t)
    rw [dump_groups hs] at h
    rw [NameOk]
    cases hacc : accounting t with
    | none =>
      rw [hacc, Procs.map_fst_groups] at h
      exact ⟨h, nofun⟩
    | some a =>
      rw [hacc, Procs.map_fst_groups] at h
      obtain ⟨hnodup, hok⟩ := Procs.charge_nodup ho h
      exact ⟨hnames ▸ hnodup, fun _ => hnames ▸ hok⟩

/-- The pid is given a name by a `PROCESS` notify. -/
def Notified (events : List Event) (pid : UInt32) : Prop :=
  ∃ native bit, .notify native bit ∈ events ∧ bit.action = blkTnProcess ∧ bit.pid = pid

theorem event_namedIn {S : UInt32 → Prop} (h : d.procs.NamedIn S)
    (he : ∀ native bit, e = .notify native bit → bit.action = blkTnProcess → S bit.pid) :
    (d.event o malloc e).procs.NamedIn S := by
  cases e with
  | notify native bit =>
    show (d.procs.notify bit).NamedIn S
    unfold Procs.notify Procs.addPpmHash
    split_ifs with hprocess
    · split
      · exact h
      · exact List.forall_mem_cons.mpr ⟨Or.inr (he native bit rfl hprocess), h⟩
    · exact h
  | dump pdi dev cpu t =>
    have hprocs := @dumpTrace_procs o malloc d pdi t cpu dev
    have hcharge := h.quiet (@atCharge_quiet o malloc d pdi t dev)
    cases hacc : accounting t with
    | none =>
      rw [hacc] at hprocs
      exact h.quiet hprocs
    | some a =>
      rw [hacc] at hprocs
      refine Procs.NamedIn.quiet ?_ hprocs
      split_ifs
      · exact hcharge.charge _
      · exact hcharge

theorem run_namedIn (events : List Event) : (run o malloc {} events).procs.NamedIn (Notified events) := by
  induction events using List.reverseRecOn with
  | nil => exact nofun
  | append_singleton events e ih =>
    rw [run_concat]
    apply event_namedIn
    · intro ppm hppm
      refine (ih ppm hppm).imp_right ?_
      rintro ⟨native, bit, hmem, hbit⟩
      exact ⟨native, bit, List.mem_append_left _ hmem, hbit⟩
    · rintro native bit rfl hprocess
      exact ⟨native, bit, by simp, hprocess, rfl⟩

/-- A pid without a `PROCESS` notify is charged as `"unknown"`. -/
theorem chargedAs_unknown (events : List Event) :
    ∀ c ∈ chargedAs o malloc {} events, ¬ Notified events c.2.pid → c.1 = .unknown := by
  induction events using List.reverseRecOn with
  | nil => exact nofun
  | append_singleton events e ih =>
    intro c hc hnot
    have hbefore : ¬ Notified events c.2.pid := by
      rintro ⟨native, bit, hmem, hbit⟩
      exact hnot ⟨native, bit, List.mem_append_left _ hmem, hbit⟩
    rw [chargedAs_concat, List.mem_append] at hc
    rcases hc with hc | hc
    · exact ih c hc hbefore
    · cases e with
      | notify native bit => exact absurd hc List.not_mem_nil
      | dump pdi dev cpu t =>
        rw [chargedBy, List.mem_ite_nil_right, List.mem_singleton] at hc
        obtain ⟨-, rfl⟩ := hc
        exact ((run_namedIn events).quiet (atCharge_quiet dev)).nameOf hbefore

/-- **Statistics by name**: an entry for each name, with the sums over the records whose pid had it, and no
record is left out. A pid without a `PROCESS` notify has the name `"unknown"`. -/
structure ByName (o : Opts) (malloc : Nat → IoTrack) (events : List Event) : Prop where
  once : (run o malloc {} events).procs.names.Nodup
  sums : ∀ ppi ∈ (run o malloc {} events).procs.ppis,
    ppi.ioStats = tally (ofLabel (chargedAs o malloc {} events) ppi.ppm.comm)
  covers : ∀ c ∈ chargedAs o malloc {} events, c.1 ∈ (run o malloc {} events).procs.names
  unnamed : ∀ c ∈ chargedAs o malloc {} events, ¬ Notified events c.2.pid → c.1 = .unknown

/-- A queue record of a pid, and the `PROCESS` notify that names it `"a"`. -/
def queueOf (pid : UInt32) : Event := .dump 0 5 0 { queueRecord 5 0 1 3 with pid := pid }

def processOf (pid : UInt32) : Event :=
  .notify true { queueRecord 5 0 1 3 with action := blkTnProcess, pid := pid, pduLen := 1, pdu := [0x61] }

def byNameOpts : Opts := { perProcessStats := true, ppiHashByPid := false }

end Dumper

end Blktrace.Blkparse
