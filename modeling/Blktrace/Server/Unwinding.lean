import Blktrace.Lib.Handles

/-!
# `blktrace.c`: a device that cannot be added

`nc_add_dpp` links a device to its host and counts it before it opens the files. When one of them cannot
be opened, what was done is to be unravelled: the files are closed from the one that failed downwards, and
the device is freed. It is not taken out of the list, it stays counted, and the caller goes on with a null
pointer.
-/

namespace Blktrace.Server

open Handles

/-! ## The functions -/

/-- What comes of `iop_open`: `fill_ofname`, `my_fopen` and `set_vbuf` may fail, the last with the file
closed again. -/
inductive Opening
  | opened | noName | noFile | noBuffer
deriving DecidableEq

/-- What the program dies of: a null stream or devpath, or a stream that was closed. -/
inductive Fault
  | nullStream | staleStream | nullDevpath
deriving DecidableEq

/-- A host of the server, with the streams and the devpaths of the program. `ofp` is of the new
devpath, null where it is `none`; a stream goes with its buffer. -/
structure Adding (ν : Type*) where
  streams : Table := {}
  /-- The list, by name and address. -/
  devpaths : List (ν × ℕ) := []
  ndevs : ℤ := 0
  dpps : Table := {}
  ofp : ℕ → Option ℕ := fun _ => none
  fault : Option Fault := none

variable {ν : Type*} [DecidableEq ν]

namespace Adding

/-- `iop_open`: `true` for the 1 it returns. -/
def iopOpen (A : Allocator) (opening : Opening) (cpu : ℕ) (s : Adding ν) : Adding ν × Bool :=
  let fp := A.next s.streams.live
  match opening with
  | .noName | .noFile => ({ s with ofp := Function.update s.ofp cpu none }, true)
  | .noBuffer =>
    ({ s with
      streams := (s.streams.enter fp).close fp
      ofp := Function.update s.ofp cpu (some fp) }, true)
  | .opened =>
    ({ s with
      streams := s.streams.enter fp
      ofp := Function.update s.ofp cpu (some fp) }, false)

/-- A call with a stream, which has to be open. -/
def withStream (s : Adding ν) (fp : ℕ) (call : Adding ν → Adding ν) : Adding ν :=
  if fp ∈ s.streams.live then call s else { s with fault := some .staleStream }

/-- `close_iop`, before a window is set up. Only with `piped_output` there is no `ftruncate`. -/
def closeIop (piped : Bool) (cpu : ℕ) (s : Adding ν) : Adding ν :=
  match s.ofp cpu with
  | none => if piped then s else { s with fault := some .nullStream }
  | some fp => s.withStream fp fun s => { s with streams := s.streams.close fp }

/-- The loop over the CPUs, with so many to go: the one that it fails at. -/
def openIops (A : Allocator) (opening : ℕ → Opening) : ℕ → ℕ → Adding ν → Adding ν × Option ℕ
  | 0, _, s => (s, none)
  | left + 1, cpu, s =>
    match s.iopOpen A (opening cpu) cpu with
    | (s, true) => (s, some cpu)
    | (s, false) => openIops A opening left (cpu + 1) s

/-- `while (cpu >= 0) close_iop(&dpp->ios[cpu--])`, from below `n`. -/
def closeIops (piped : Bool) : ℕ → Adding ν → Adding ν
  | 0, s => s
  | n + 1, s =>
    let s := s.closeIop piped n
    if s.fault.isSome then s else closeIops piped n s

/-- `nc_add_dpp` up to the loop. -/
def link (A : Allocator) (name : ν) (s : Adding ν) : Adding ν :=
  let dpp := A.next s.dpps.live
  { s with
    dpps := s.dpps.enter dpp
    devpaths := s.devpaths ++ [(name, dpp)]
    ndevs := s.ndevs + 1
    ofp := fun _ => none }

/-- `nc_add_dpp`: the devpath, if it does not return null. -/
def ncAddDpp (A : Allocator) (piped : Bool) (opening : ℕ → Opening) (ncpus : ℕ) (name : ν)
    (s : Adding ν) : Adding ν × Option ℕ :=
  let dpp := A.next s.dpps.live
  match openIops A opening ncpus 0 (s.link A name) with
  | (s, none) => (s, some dpp)
  | (s, some cpu) =>
    let s := closeIops piped (cpu + 1) s
    if s.fault.isSome then (s, none) else ({ s with dpps := s.dpps.close dpp }, none)

/-- `nc_find_dpp`. -/
def ncFindDpp (A : Allocator) (piped : Bool) (opening : ℕ → Opening) (ncpus : ℕ) (name : ν)
    (s : Adding ν) : Adding ν × Option ℕ :=
  match s.devpaths.find? fun dpp => dpp.1 = name with
  | some dpp => (s, some dpp.2)
  | none => s.ncAddDpp A piped opening ncpus name

/-- What `net_client_data` does with the devpath first: `dpp->buts_name` for an open, `dpp->drops` for a
close, `dpp->ios` for data. -/
inductive MsgKind
  | opens | closes | data
deriving DecidableEq

/-- `net_client_data` from `nc_find_dpp` to the first use of what it returns, which none of the three
branches looks at before. -/
def netClientData (A : Allocator) (piped : Bool) (opening : ℕ → Opening) (ncpus : ℕ) (name : ν)
    (kind : MsgKind) (s : Adding ν) : Adding ν :=
  match s.ncFindDpp A piped opening ncpus name with
  | (s, dpp) =>
    if s.fault.isSome then s
    else
      match kind, dpp with
      | .opens, some _ | .closes, some _ | .data, some _ => s
      | .opens, none | .closes, none | .data, none => { s with fault := some .nullDevpath }

/-- The first CPU whose file cannot be opened. -/
structure FailsAt (opening : ℕ → Opening) (ncpus k : ℕ) : Prop where
  lt : k < ncpus
  fails : opening k ≠ .opened
  before : ∀ cpu < k, opening cpu = .opened

/-- **The server is as it was**, behind a device that could not be added: its host has the devpaths it had,
exactly the files opened so far are closed, and the caller does not use the devpath that is missing. -/
structure Undone (A : Allocator) (piped : Bool) (opening : ℕ → Opening) (ncpus k : ℕ) (name : ν)
    (kind : MsgKind) (s : Adding ν) : Prop where
  devpaths : (s.ncAddDpp A piped opening ncpus name).1.devpaths = s.devpaths
  ndevs : (s.ncAddDpp A piped opening ncpus name).1.ndevs = s.ndevs
  closed : Closed (openIops A opening ncpus 0 (s.link A name)).1.streams
    (s.ncAddDpp A piped opening ncpus name).1.streams (A.enters k s.streams).2
  unused : (s.netClientData A piped opening ncpus name kind).fault = none

/-! ## The loop that opens -/

variable {A : Allocator} {piped : Bool} {opening : ℕ → Opening} {ncpus k : ℕ} {name : ν}

/-- One file. -/
def enterFile (A : Allocator) (cpu : ℕ) (s : Adding ν) : Adding ν :=
  { s with
    streams := s.streams.enter (A.next s.streams.live)
    ofp := Function.update s.ofp cpu (some (A.next s.streams.live)) }

omit [DecidableEq ν] in
theorem openIops_succ {left cpu : ℕ} (s : Adding ν) (h : opening cpu = .opened) :
    openIops A opening (left + 1) cpu s = openIops A opening left (cpu + 1) (s.enterFile A cpu) := by
  rw [openIops, h]
  rfl

/-- What the loop leaves alone. -/
structure SameHost (s s' : Adding ν) : Prop where
  devpaths : s'.devpaths = s.devpaths
  ndevs : s'.ndevs = s.ndevs
  fault : s'.fault = s.fault

/-- What the loop has done for some CPUs from `cpu` on, when all files could be opened. -/
structure Opened (A : Allocator) (s s' : Adding ν) (cpu n : ℕ) : Prop extends SameHost s s' where
  streams : s'.streams = (A.enters n s.streams).1
  ofp : ∀ i (hi : i < (A.enters n s.streams).2.length),
    s'.ofp (cpu + i) = some (A.enters n s.streams).2[i]
  below : ∀ i < cpu, s'.ofp i = s.ofp i

omit [DecidableEq ν] in
theorem openIops_opened {n : ℕ} (left : ℕ) {cpu : ℕ} (s : Adding ν)
    (h : ∀ i < n, opening (cpu + i) = .opened) :
    ∃ s', openIops A opening (n + left) cpu s = openIops A opening left (cpu + n) s' ∧
      Opened A s s' cpu n := by
  refine ⟨{ s with
    streams := (A.fill some n cpu (s.streams, s.ofp)).1
    ofp := (A.fill some n cpu (s.streams, s.ofp)).2 }, ?_, ?_⟩
  · induction n generalizing cpu s with
    | zero =>
      rw [Nat.zero_add, Nat.add_zero]
      rfl
    | succ n ih =>
      have hfirst : opening cpu = .opened := h 0 (Nat.succ_pos n)
      have hrest : ∀ i < n, opening (cpu + 1 + i) = .opened := by
        intro i hi
        rw [Nat.add_assoc, Nat.add_comm 1]
        exact h (i + 1) (Nat.succ_lt_succ hi)
      rw [Nat.succ_add, openIops_succ s hfirst, ih (s.enterFile A cpu) hrest, Nat.add_assoc, Nat.add_comm 1]
      rfl
  · exact {
      devpaths := rfl
      ndevs := rfl
      fault := rfl
      streams := A.fill_table some n cpu _
      ofp := fun _ hi => A.fill_entry some n cpu _ hi
      below := fun _ hi => A.fill_below some n hi _ }

/-- Where the loop stops: the files before the one that failed are open, and its own stream is null or
was closed. -/
structure Stopped (A : Allocator) (o : Opening) (k : ℕ) (s s' : Adding ν) : Prop extends SameHost s s' where
  live : s'.streams.live = (A.enters k s.streams).1.live
  ofp : ∀ i (hi : i < (A.enters k s.streams).2.length), s'.ofp i = some (A.enters k s.streams).2[i]
  failed : if o = .noBuffer then ∃ fp, s'.ofp k = some fp ∧ fp ∉ s'.streams.live else s'.ofp k = none

omit [DecidableEq ν] in
theorem openIops_fails (h : FailsAt opening ncpus k) (s : Adding ν) :
    ∃ s', openIops A opening ncpus 0 s = (s', some k) ∧ Stopped A (opening k) k s s' := by
  obtain ⟨left, rfl⟩ := Nat.exists_eq_add_of_lt h.lt
  have hbefore : ∀ i < k, opening (0 + i) = .opened := by
    intro i hi
    rw [Nat.zero_add]
    exact h.before i hi
  obtain ⟨s', hloop, hs'⟩ := openIops_opened (A := A) (left + 1) s hbefore
  have hlength := A.length_enters k s.streams
  have hofp : ∀ (fp : Option ℕ) i (hi : i < (A.enters k s.streams).2.length),
      Function.update s'.ofp k fp i = some (A.enters k s.streams).2[i] := by
    intro fp i hi
    rw [Function.update_of_ne (hlength ▸ hi).ne, ← hs'.ofp i hi, Nat.zero_add]
  have hlive : s'.streams.live = (A.enters k s.streams).1.live := congrArg Table.live hs'.streams
  rw [Nat.add_assoc, hloop, Nat.zero_add, openIops]
  cases hk : opening k with
  | opened => exact absurd hk h.fails
  | noName | noFile =>
    exact ⟨_, rfl, ⟨hs'.devpaths, hs'.ndevs, hs'.fault⟩, hlive, hofp _, Function.update_self ..⟩
  | noBuffer =>
    refine ⟨_, rfl, ⟨hs'.devpaths, hs'.ndevs, hs'.fault⟩, ?_, hofp _, _, Function.update_self .., ?_⟩
    · exact (Finset.erase_insert (A.fresh _)).trans hlive
    · exact Finset.notMem_erase _ _

/-! ## The loop that closes -/

omit [DecidableEq ν] in
/-- Streams that are open are closed. -/
theorem closeIops_open {hs : List ℕ} {s : Adding ν} (hnodup : hs.Nodup)
    (hlive : ∀ fp ∈ hs, fp ∈ s.streams.live) (hofp : ∀ i (hi : i < hs.length), s.ofp i = some hs[i])
    (hfault : s.fault = none) :
    closeIops piped hs.length s = { s with streams := s.streams.closeAll hs.reverse } := by
  induction hs using List.reverseRecOn generalizing s with
  | nil => rfl
  | append_singleton hs fp ih =>
    have hlast : s.ofp hs.length = some fp := by
      rw [hofp hs.length (by simp), List.getElem_concat_length rfl]
    have hclose : s.closeIop piped hs.length = { s with streams := s.streams.close fp } := by
      rw [closeIop, hlast]
      exact if_pos (hlive fp (by simp))
    rw [List.nodup_append] at hnodup
    rw [List.length_append, List.length_singleton, closeIops, hclose]
    dsimp only
    rw [hfault, Option.isSome_none, if_neg Bool.false_ne_true, ih hnodup.1]
    · rw [List.reverse_append]
      rfl
    · intro fp' hmem
      refine Finset.mem_erase.mpr ⟨?_, hlive fp' (List.mem_append_left _ hmem)⟩
      exact hnodup.2.2 fp' hmem fp List.mem_cons_self
    · intro i hi
      rw [← List.getElem_append_left hi]
      exact hofp i (by simp; omega)
    · rfl

/-- What the program dies of when it closes the file that could not be opened. -/
def unwindFault (piped : Bool) : Opening → Option Fault
  | .noBuffer => some .staleStream
  | .opened | .noName | .noFile => if piped then none else some .nullStream

omit [DecidableEq ν] in
/-- The loop from the file that failed downwards. -/
theorem closeIops_stopped (piped : Bool) {s s' : Adding ν} (h : Stopped A (opening k) k s s')
    (hfault : s.fault = none) (hopening : opening k ≠ .opened) :
    SameHost { s with fault := unwindFault piped (opening k) } (closeIops piped (k + 1) s') ∧
      (closeIops piped (k + 1) s').streams =
        if unwindFault piped (opening k) = none then s'.streams.closeAll (A.enters k s.streams).2.reverse
        else s'.streams := by
  have hrunning : s'.fault = none := h.fault.trans hfault
  have hfailed := h.failed
  by_cases hbuffer : opening k = .noBuffer
  · rw [if_pos hbuffer] at hfailed
    obtain ⟨fp, hfp, hstale⟩ := hfailed
    have hclose : s'.closeIop piped k = { s' with fault := some .staleStream } := by
      rw [closeIop, hfp]
      exact if_neg hstale
    rw [closeIops, hclose, hbuffer]
    exact ⟨⟨h.devpaths, h.ndevs, rfl⟩, rfl⟩
  · rw [if_neg hbuffer] at hfailed
    have hunwind : unwindFault piped (opening k) = if piped then none else some .nullStream := by
      cases ho : opening k with
      | opened => exact absurd ho hopening
      | noBuffer => exact absurd ho hbuffer
      | noName | noFile => rfl
    cases piped with
    | false =>
      rw [hunwind, closeIops, closeIop, hfailed]
      exact ⟨⟨h.devpaths, h.ndevs, rfl⟩, rfl⟩
    | true =>
      -- nothing to close there, and the files below are open
      obtain ⟨hnodup, -, hlive⟩ := A.enters_fresh k s.streams
      have hopen : ∀ fp ∈ (A.enters k s.streams).2, fp ∈ s'.streams.live := by
        intro fp hmem
        rw [h.live, hlive]
        exact Finset.mem_union_right _ (List.mem_toFinset.mpr hmem)
      have hloop : closeIops true (A.enters k s.streams).2.length s' =
          { s' with streams := s'.streams.closeAll (A.enters k s.streams).2.reverse } :=
        closeIops_open hnodup hopen h.ofp hrunning
      have hnothing : s'.closeIop true k = s' := by
        rw [closeIop, hfailed]
        exact if_pos rfl
      rw [A.length_enters] at hloop
      rw [hunwind, closeIops, hnothing]
      rw [hrunning, Option.isSome_none, if_neg Bool.false_ne_true, hloop]
      exact ⟨⟨h.devpaths, h.ndevs, hrunning⟩, rfl⟩

/-! ## A device that cannot be added -/

omit [DecidableEq ν] in
/-- What `nc_add_dpp` leaves behind: the device is linked and counted, and the files are closed unless the
program has died of the first of them. -/
theorem ncAddDpp_fails (piped : Bool) (name : ν) (h : FailsAt opening ncpus k) {s : Adding ν}
    (hfault : s.fault = none) :
    (s.ncAddDpp A piped opening ncpus name).2 = none ∧
      SameHost { s.link A name with fault := unwindFault piped (opening k) }
        (s.ncAddDpp A piped opening ncpus name).1 ∧
      (s.ncAddDpp A piped opening ncpus name).1.streams =
        if unwindFault piped (opening k) = none then
          (openIops A opening ncpus 0 (s.link A name)).1.streams.closeAll (A.enters k s.streams).2.reverse
        else (openIops A opening ncpus 0 (s.link A name)).1.streams := by
  obtain ⟨s', hloop, hs'⟩ := openIops_fails (A := A) h (s.link A name)
  obtain ⟨hhost, hstreams⟩ := closeIops_stopped piped hs' hfault h.fails
  rw [ncAddDpp, hloop]
  dsimp only
  by_cases hdies : (closeIops piped (k + 1) s').fault.isSome
  · rw [if_pos hdies]
    exact ⟨rfl, hhost, hstreams⟩
  · rw [if_neg hdies]
    exact ⟨rfl, ⟨hhost.devpaths, hhost.ndevs, hhost.fault⟩, hstreams⟩

omit [DecidableEq ν] in
/-- **The files opened so far** are closed just if there are none, or if the program writes to a pipe and
it is no buffer that is missing. -/
theorem closed_iff (h : FailsAt opening ncpus k) {s : Adding ν} (hfault : s.fault = none) :
    Closed (openIops A opening ncpus 0 (s.link A name)).1.streams
        (s.ncAddDpp A piped opening ncpus name).1.streams (A.enters k s.streams).2 ↔
      k = 0 ∨ piped ∧ opening k ≠ .noBuffer := by
  obtain ⟨-, -, hstreams⟩ := ncAddDpp_fails (A := A) piped name h hfault
  have hunwind : unwindFault piped (opening k) = none ↔ piped ∧ opening k ≠ .noBuffer := by
    cases opening k <;> cases piped <;> simp [unwindFault]
  rw [hstreams, ← hunwind]
  by_cases hnone : unwindFault piped (opening k) = none
  · rw [if_pos hnone, closed_closeAll]
    simp [hnone, List.reverse_perm]
  · rw [if_neg hnone, or_iff_left hnone, closed_refl, ← List.length_eq_zero_iff, A.length_enters]

/-- **The caller uses the devpath** unless all files could be opened. -/
theorem netClientData_fails (h : FailsAt opening ncpus k) {s : Adding ν} (hfault : s.fault = none)
    (hnew : ∀ dpp ∈ s.devpaths, dpp.1 ≠ name) (kind : MsgKind) :
    (s.netClientData A piped opening ncpus name kind).fault =
      some ((unwindFault piped (opening k)).getD .nullDevpath) := by
  have hfind : s.devpaths.find? (fun dpp => dpp.1 = name) = none := by
    simpa using hnew
  obtain ⟨hnull, hhost, -⟩ := ncAddDpp_fails (A := A) piped name h hfault
  have hdied := hhost.fault
  dsimp only at hdied
  rw [netClientData, ncFindDpp, hfind]
  dsimp only
  rw [hnull, hdied]
  cases hunwind : unwindFault piped (opening k) with
  | none => cases kind <;> rfl
  | some fault =>
    rw [Option.isSome_some, if_pos rfl, hdied, hunwind]
    rfl

/-- **Nothing is undone.** -/
theorem never_undone (h : FailsAt opening ncpus k) {s : Adding ν} (hfault : s.fault = none)
    (hnew : ∀ dpp ∈ s.devpaths, dpp.1 ≠ name) (kind : MsgKind) :
    ¬ Undone A piped opening ncpus k name kind s := by
  intro hundone
  have hunused := hundone.unused
  rw [netClientData_fails h hfault hnew kind] at hunused
  nomatch hunused

/-- So many files can be opened, and the next is not created. -/
def creates (k : ℕ) (cpu : ℕ) : Opening := if cpu < k then .opened else .noFile

theorem failsAt_creates (h : k < ncpus) : FailsAt (creates k) ncpus k where
  lt := h
  fails := by simp [creates]
  before cpu hcpu := by simp [creates, hcpu]

theorem never_undone_creates : FailsAt (creates 1) 2 1 ∧
    ¬ Undone lowest true (creates 1) 2 1 () .opens {} :=
  ⟨failsAt_creates (by decide), never_undone (failsAt_creates (by decide)) rfl (by simp) .opens⟩

/-- Of two files the second cannot be opened. -/
theorem not_undone : FailsAt (creates 1) 2 1 ∧ ¬ Undone lowest false (creates 1) 2 1 () .opens {} := by
  have hfails : FailsAt (creates 1) 2 1 := failsAt_creates (by decide)
  refine ⟨hfails, fun hundone => ?_⟩
  have hunused := hundone.unused
  rw [netClientData_fails hfails rfl (by simp) .opens] at hunused
  nomatch hunused

/-- **A device is added without a fault** just if all its files can be opened. -/
theorem netClientData_runs {s : Adding ν} (hfault : s.fault = none)
    (hnew : ∀ dpp ∈ s.devpaths, dpp.1 ≠ name) (kind : MsgKind) :
    (s.netClientData A piped opening ncpus name kind).fault = none ↔
      ∀ cpu < ncpus, opening cpu = .opened := by
  constructor
  · intro hruns cpu hcpu
    by_contra hfails
    have hsome : ∃ cpu, opening cpu ≠ .opened := ⟨cpu, hfails⟩
    have hfirst : FailsAt opening ncpus (Nat.find hsome) := by
      refine ⟨(Nat.find_min' hsome hfails).trans_lt hcpu, Nat.find_spec hsome, fun cpu hlt => ?_⟩
      exact not_not.mp (Nat.find_min hsome hlt)
    rw [netClientData_fails hfirst hfault hnew kind] at hruns
    nomatch hruns
  · intro hall
    have hfind : s.devpaths.find? (fun dpp => dpp.1 = name) = none := by
      simpa using hnew
    have hopen : ∀ i < ncpus, opening (0 + i) = .opened := by
      intro i hi
      rw [Nat.zero_add]
      exact hall i hi
    obtain ⟨s', hloop, hs'⟩ := openIops_opened (A := A) 0 (s.link A name) hopen
    have hrunning : s'.fault = none := hs'.fault.trans hfault
    have hadd : s.ncAddDpp A piped opening ncpus name = (s', some (A.next s.dpps.live)) := by
      rw [ncAddDpp, ← Nat.add_zero ncpus, hloop]
      rfl
    rw [netClientData, ncFindDpp, hfind]
    dsimp only
    rw [hadd]
    dsimp only
    rw [hrunning, Option.isSome_none, if_neg Bool.false_ne_true]
    cases kind <;> exact hrunning

end Adding

end Blktrace.Server
