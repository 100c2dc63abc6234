import Blktrace.Lib.Runs

/-!
# `blktrace.c`: starting and stopping the tracers

A tracer that has opened its files waits on `mt_cond`, until it is done or `tracers_run` is set.
`unblock_tracers` holds `mt_mutex` while it broadcasts. `stop_tracers` sets `is_done` and broadcasts
without it, and may do so while a tracer that has seen neither flag is about to wait. The waits of
`main` on the same condition are timed, so that it tests again without a signal; a tracer's are not.
-/

namespace Blktrace.Tracer.Handshake

/-- Where a tracer is. -/
inductive Pc
  /-- `pthread_create` has not been called for it, or has failed. -/
  | unborn
  /-- In `lock_on_cpu` and `open_ios`. -/
  | opening
  /-- At the test of `tracer_wait_unblock`, without the mutex yet. -/
  | entering
  /-- Behind the test, which has told it to wait. It holds the mutex. -/
  | tested
  /-- In `pthread_cond_wait`. -/
  | asleep
  /-- In its loop over `poll`. -/
  | running
  | gone
  deriving DecidableEq

structure Thread where
  pc : Pc := .unborn
  isDone : Bool := false

/-- Where `main` is in `run_tracers`. -/
inductive Main
  /-- In `start_tracer`, at `pthread_create`. -/
  | create (cpu : ℕ)
  /-- In `start_tracer`, at `list_add_tail`. -/
  | list (cpu : ℕ)
  /-- In `wait_tracers_ready`. -/
  | ready (started : ℕ)
  /-- In `unblock_tracers`. -/
  | unblock
  /-- In `stop_tracers`, at this tracer. -/
  | stop (cpu : ℕ)
  /-- In `process_trace_bufs`, where there are buffers. -/
  | process
  /-- In `wait_tracers_leaving`. -/
  | leaving
  | finished
  deriving DecidableEq

/-- In a timed wait on `mt_cond`. -/
def Main.waits : Main → Bool
  | .ready _ | .leaving => true
  | _ => false

structure State where
  tracers : ℕ → Thread := fun _ => {}
  /-- How many are on the list `tracers`. -/
  listed : ℕ := 0
  /-- The tracer that holds `mt_mutex`. -/
  mtMutex : Option ℕ := none
  tracersRun : Bool := false
  nthreadsRunning : ℕ := 0
  nthreadsError : ℕ := 0
  nthreadsLeaving : ℕ := 0
  done : Bool := false
  /-- The calls of `handle_sigint` that are under way, and where each is in `stop_tracers`. -/
  handlers : List ℕ := []
  main : Main := .create 0

inductive Act
  /-- `ok` says whether `pthread_create` succeeds. -/
  | main (ok : Bool)
  /-- `ok` says whether the files open, and `woken` whom a `pthread_cond_signal` wakes: a tracer, or
  `main`. -/
  | tracer (cpu : ℕ) (ok : Bool) (woken : Option ℕ)
  | sigint
  | handler (call : ℕ)
  deriving DecidableEq

namespace State

def setPc (s : State) (cpu : ℕ) (pc : Pc) : State :=
  { s with tracers := Function.update s.tracers cpu { s.tracers cpu with pc := pc } }

def setDone (s : State) (cpu : ℕ) : State :=
  { s with tracers := Function.update s.tracers cpu { s.tracers cpu with isDone := true } }

/-- `pthread_cond_broadcast`. -/
def broadcast (s : State) : State :=
  { s with
    tracers := fun cpu =>
      if (s.tracers cpu).pc = .asleep then { s.tracers cpu with pc := .entering } else s.tracers cpu }

/-- `pthread_cond_signal` wakes someone, where someone waits. -/
def signal (ncpus : ℕ) (s : State) : Option ℕ → Option State
  | some cpu => if (s.tracers cpu).pc = .asleep then some (s.setPc cpu .entering) else none
  | none =>
    if s.main.waits ∨ ∀ cpu < ncpus, (s.tracers cpu).pc ≠ .asleep then some s else none

/-- A step of `thread_main`. What is done under the mutex in one go is one step. -/
def tracerStep (ncpus : ℕ) (s : State) (cpu : ℕ) (ok : Bool) (woken : Option ℕ) : Option State :=
  match (s.tracers cpu).pc with
  | .opening =>
    if s.mtMutex ≠ none then none
    else if ok then
      { s.setPc cpu .entering with nthreadsRunning := s.nthreadsRunning + 1 }.signal ncpus woken
    else { s.setPc cpu .gone with nthreadsError := s.nthreadsError + 1 }.signal ncpus woken
  | .entering =>
    if s.mtMutex ≠ none then none
    else if (s.tracers cpu).isDone || s.tracersRun then some (s.setPc cpu .running)
    else some { s.setPc cpu .tested with mtMutex := some cpu }
  | .tested => some { s.setPc cpu .asleep with mtMutex := none }
  | .running =>
    if s.mtMutex ≠ none ∨ (s.tracers cpu).isDone = false then none
    else { s.setPc cpu .gone with nthreadsLeaving := s.nthreadsLeaving + 1 }.signal ncpus woken
  | .unborn | .asleep | .gone => none

/-- A step of `run_tracers`. -/
def mainStep (ncpus : ℕ) (useTracerDevpaths : Bool) (s : State) (ok : Bool) : Option State :=
  match s.main with
  | .create cpu =>
    if cpu < ncpus ∧ ok then some { s.setPc cpu .opening with main := .list cpu }
    else some { s with main := .ready cpu }
  | .list cpu => some { s with listed := cpu + 1, main := .create (cpu + 1) }
  | .ready started =>
    if s.mtMutex = none ∧ started ≤ s.nthreadsRunning + s.nthreadsError then
      some { s with main := if s.nthreadsRunning = ncpus then .unblock else .stop 0 }
    else none
  | .unblock =>
    if s.mtMutex = none then some { s.broadcast with tracersRun := true, main := .process } else none
  | .stop cpu =>
    if cpu < s.listed then some { s.setDone cpu with main := .stop (cpu + 1) }
    else some { s.broadcast with main := .process }
  | .process =>
    if useTracerDevpaths && !s.done then none else some { s with main := .leaving }
  | .leaving =>
    if s.mtMutex = none ∧ s.nthreadsRunning ≤ s.nthreadsLeaving then
      some { s with main := .finished }
    else none
  | .finished => none

/-- A step of `stop_tracers`, called from a handler. -/
def handlerStep (s : State) (call : ℕ) : Option State :=
  match s.handlers[call]? with
  | some cpu =>
    if cpu < s.listed then
      some { s.setDone cpu with handlers := s.handlers.set call (cpu + 1) }
    else some { s.broadcast with handlers := s.handlers.eraseIdx call }
  | none => none

def step (ncpus : ℕ) (useTracerDevpaths : Bool) (s : State) : Act → Option State
  | .main ok => s.mainStep ncpus useTracerDevpaths ok
  | .tracer cpu ok woken => s.tracerStep ncpus cpu ok woken
  | .sigint => some { s with done := true, handlers := s.handlers ++ [0] }
  | .handler call => s.handlerStep call

/-- The step is the broadcast of `stop_tracers`. -/
def broadcasts (s : State) : Act → Bool
  | .main _ =>
    match s.main with
    | .stop cpu => s.listed ≤ cpu
    | _ => false
  | .handler call =>
    match s.handlers[call]? with
    | some cpu => s.listed ≤ cpu
    | none => false
  | .tracer .. | .sigint => false

/-- `stop_tracers` is under way. -/
def Stopping (s : State) : Prop := (∃ cpu, s.main = .stop cpu) ∨ s.handlers ≠ []

end State

/-- No tracer that is done is between its test and its wait when `stop_tracers` broadcasts. -/
def Heard (ncpus : ℕ) (s : State) (a : Act) : Prop :=
  s.broadcasts a →
    ∀ cpu < ncpus, (s.tracers cpu).pc = .tested → (s.tracers cpu).isDone = false

instance (ncpus : ℕ) (s : State) (a : Act) : Decidable (Heard ncpus s a) :=
  inferInstanceAs (Decidable (_ → _))

/-! ## A broadcast that nobody hears -/

/-- Two CPUs. The second tracer fails; the first one tests its flags, and `main` stops the tracers
before it waits. -/
def unheard : List Act :=
  [.main true, .main true, .main true, .main true, .main true, .tracer 1 false none,
    .tracer 0 true none, .main true, .tracer 0 true none, .main true, .main true, .main true,
    .tracer 0 true none, .main true]

/-- The tracers that `main` has given birth to. -/
def State.born (s : State) : ℕ :=
  match s.main with
  | .list cpu => cpu + 1
  | _ => s.listed

/-- Between `Th_running` and `Th_leaving`. -/
def Pc.active : Pc → ℕ
  | .entering | .tested | .asleep | .running => 1
  | .unborn | .opening | .gone => 0

/-- A tracer that waits, or is about to, and is done: the broadcast is still to come. -/
structure Shaken (ncpus : ℕ) (s : State) : Prop where
  listed : ∀ cpu, s.main = .create cpu ∨ s.main = .list cpu → s.listed = cpu
  born_le : s.born ≤ ncpus
  unborn : ∀ cpu, s.born ≤ cpu → (s.tracers cpu).pc = .unborn
  mutex : ∀ cpu, s.mtMutex = some cpu ↔ (s.tracers cpu).pc = .tested
  heard : ∀ cpu, (s.tracers cpu).pc = .tested ∨ (s.tracers cpu).pc = .asleep →
    (s.tracers cpu).isDone → s.Stopping
  count : s.nthreadsRunning =
    s.nthreadsLeaving + ∑ cpu ∈ Finset.range ncpus, (s.tracers cpu).pc.active

theorem shaken_init (ncpus : ℕ) : Shaken ncpus {} where
  listed cpu h := by
    rcases h with h | h <;> cases h
    rfl
  born_le := Nat.zero_le _
  unborn _ _ := rfl
  mutex cpu := by simp
  heard cpu h := by rcases h with h | h <;> cases h
  count := by simp [Pc.active]

namespace State

@[simp] theorem setPc_pc_self (s : State) (cpu : ℕ) (pc : Pc) :
    ((s.setPc cpu pc).tracers cpu).pc = pc := by simp [setPc]

theorem setPc_pc_of_ne (s : State) {cpu c : ℕ} (h : c ≠ cpu) (pc : Pc) :
    ((s.setPc cpu pc).tracers c).pc = (s.tracers c).pc := by simp [setPc, h]

@[simp] theorem setPc_isDone (s : State) (cpu c : ℕ) (pc : Pc) :
    ((s.setPc cpu pc).tracers c).isDone = (s.tracers c).isDone := by
  by_cases h : c = cpu
  · subst h
    simp [setPc]
  · simp [setPc, h]

@[simp] theorem setDone_pc (s : State) (cpu c : ℕ) :
    ((s.setDone cpu).tracers c).pc = (s.tracers c).pc := by
  by_cases h : c = cpu
  · subst h
    simp [setDone]
  · simp [setDone, h]

theorem broadcast_pc (s : State) (c : ℕ) :
    (s.broadcast.tracers c).pc =
      if (s.tracers c).pc = .asleep then .entering else (s.tracers c).pc := by
  simp only [broadcast]
  split_ifs <;> rfl

@[simp] theorem broadcast_isDone (s : State) (c : ℕ) :
    (s.broadcast.tracers c).isDone = (s.tracers c).isDone := by
  simp only [broadcast]
  split_ifs <;> rfl

theorem sum_setPc (s : State) (f : Pc → ℕ) {ncpus cpu : ℕ} (hcpu : cpu < ncpus) (pc : Pc) :
    ∑ c ∈ Finset.range ncpus, f ((s.setPc cpu pc).tracers c).pc + f (s.tracers cpu).pc =
      ∑ c ∈ Finset.range ncpus, f (s.tracers c).pc + f pc := by
  rw [← Runs.sum_update (Finset.mem_range.mpr hcpu) (fun c => f (s.tracers c).pc) (f pc)]
  congr 1
  apply Finset.sum_congr rfl
  intro c _
  by_cases h : c = cpu
  · subst h
    simp
  · rw [setPc_pc_of_ne s h, Function.update_of_ne h]

end State

namespace Shaken

variable {ncpus : ℕ} {s : State}

theorem lt_of_born (hs : Shaken ncpus s) {cpu : ℕ} (h : (s.tracers cpu).pc ≠ .unborn) :
    cpu < s.born := by
  by_contra hge
  exact h (hs.unborn cpu (not_lt.mp hge))

theorem lt_of_pc (hs : Shaken ncpus s) {cpu : ℕ} (h : (s.tracers cpu).pc ≠ .unborn) :
    cpu < ncpus :=
  lt_of_lt_of_le (hs.lt_of_born h) hs.born_le

/-! ### A tracer -/

/-- A tracer that was born goes on. -/
theorem move (hs : Shaken ncpus s) (cpu : ℕ) (pc : Pc) (hborn : (s.tracers cpu).pc ≠ .unborn)
    {s' : State} (htracers : s'.tracers = (s.setPc cpu pc).tracers) (hmain : s'.main = s.main)
    (hlisted : s'.listed = s.listed) (hhandlers : s'.handlers = s.handlers)
    (hmutex : ∀ c, s'.mtMutex = some c ↔ ((s.setPc cpu pc).tracers c).pc = .tested)
    (hheard : pc = .tested ∨ pc = .asleep → (s.tracers cpu).isDone → s.Stopping)
    (hcount : s'.nthreadsRunning + s.nthreadsLeaving + (s.tracers cpu).pc.active =
      s.nthreadsRunning + s'.nthreadsLeaving + pc.active) : Shaken ncpus s' where
  listed c h := by
    rw [hmain] at h
    rw [hlisted]
    exact hs.listed c h
  born_le := by
    rw [State.born, hmain, hlisted]
    exact hs.born_le
  unborn c hc := by
    rw [State.born, hmain, hlisted] at hc
    have hne : c ≠ cpu := fun h => absurd (hs.lt_of_born hborn) (not_lt.mpr (h ▸ hc))
    rw [htracers, State.setPc_pc_of_ne s hne]
    exact hs.unborn c hc
  mutex c := by
    rw [htracers]
    exact hmutex c
  heard c hpc hdone := by
    rw [htracers] at hpc hdone
    rw [State.setPc_isDone] at hdone
    rw [State.Stopping, hmain, hhandlers]
    by_cases h : c = cpu
    · subst h
      rw [State.setPc_pc_self] at hpc
      exact hheard hpc hdone
    · rw [State.setPc_pc_of_ne s h] at hpc
      exact hs.heard c hpc hdone
  count := by
    have hsum := s.sum_setPc Pc.active (hs.lt_of_pc hborn) pc
    have hold := hs.count
    rw [htracers]
    omega

/-- The mutex is with nobody else when a tracer neither takes it nor gives it back. -/
theorem mutex_setPc (hs : Shaken ncpus s) {cpu : ℕ} {pc : Pc} (hold : (s.tracers cpu).pc ≠ .tested)
    (hnew : pc ≠ .tested) (c : ℕ) :
    s.mtMutex = some c ↔ ((s.setPc cpu pc).tracers c).pc = .tested := by
  rw [hs.mutex c]
  by_cases h : c = cpu
  · subst h
    simp [hold, hnew]
  · rw [State.setPc_pc_of_ne s h]

theorem signal (hs : Shaken ncpus s) {woken : Option ℕ} {s' : State}
    (h : s.signal ncpus woken = some s') : Shaken ncpus s' := by
  unfold State.signal at h
  split at h
  · split_ifs at h with hasleep
    cases h
    refine hs.move _ .entering (by simp [hasleep]) rfl rfl rfl rfl
      (hs.mutex_setPc (by simp [hasleep]) (by simp)) (by simp) ?_
    rw [hasleep]
    rfl
  · split_ifs at h
    cases h
    exact hs

theorem tracerStep (hs : Shaken ncpus s) {cpu : ℕ} {ok : Bool} {woken : Option ℕ} {s' : State}
    (h : s.tracerStep ncpus cpu ok woken = some s') : Shaken ncpus s' := by
  unfold State.tracerStep at h
  split at h
  next hpc =>
    split_ifs at h with hmutex hok
    · refine Shaken.signal ?_ h
      refine hs.move cpu .entering (by simp [hpc]) rfl rfl rfl rfl
        (hs.mutex_setPc (by simp [hpc]) (by simp)) (by simp) ?_
      simp only [hpc, Pc.active]
      show s.nthreadsRunning + 1 + s.nthreadsLeaving + 0 = s.nthreadsRunning + s.nthreadsLeaving + 1
      omega
    · refine Shaken.signal ?_ h
      refine hs.move cpu .gone (by simp [hpc]) rfl rfl rfl rfl
        (hs.mutex_setPc (by simp [hpc]) (by simp)) (by simp) ?_
      rw [hpc]
      rfl
  next hpc =>
    split_ifs at h with hmutex hflag
    · cases h
      refine hs.move cpu .running (by simp [hpc]) rfl rfl rfl rfl
        (hs.mutex_setPc (by simp [hpc]) (by simp)) (by simp) ?_
      rw [hpc]
      rfl
    · cases h
      refine hs.move cpu .tested (by simp [hpc]) rfl rfl rfl rfl (fun c => ?_) (fun _ hdone => ?_) ?_
      · by_cases hc : c = cpu
        · subst hc
          simp
        · rw [State.setPc_pc_of_ne s hc, ← hs.mutex c, not_not.mp hmutex]
          simp [Ne.symm hc]
      · simp [hdone] at hflag
      · rw [hpc]
        rfl
  next hpc =>
    cases h
    refine hs.move cpu .asleep (by simp [hpc]) rfl rfl rfl rfl (fun c => ?_) (fun _ hdone => ?_) ?_
    · by_cases hc : c = cpu
      · subst hc
        simp
      · have hheld := (hs.mutex cpu).mpr hpc
        rw [State.setPc_pc_of_ne s hc, ← hs.mutex c, hheld]
        simp [Ne.symm hc]
    · exact hs.heard cpu (.inl hpc) hdone
    · rw [hpc]
      rfl
  next hpc =>
    split_ifs at h with hmutex
    refine Shaken.signal ?_ h
    refine hs.move cpu .gone (by simp [hpc]) rfl rfl rfl rfl
      (hs.mutex_setPc (by simp [hpc]) (by simp)) (by simp) ?_
    simp only [hpc, Pc.active]
    show s.nthreadsRunning + s.nthreadsLeaving + 1 = s.nthreadsRunning + (s.nthreadsLeaving + 1) + 0
    omega
  all_goals cases h

/-! ### Main and the handlers -/

/-- A step that leaves every tracer where it is, or wakes it. -/
theorem keep (hs : Shaken ncpus s) {s' : State}
    (hpc : ∀ c, (s'.tracers c).pc = (s.tracers c).pc ∨
      ((s.tracers c).pc = .asleep ∧ (s'.tracers c).pc = .entering))
    (hlisted : ∀ cpu, s'.main = .create cpu ∨ s'.main = .list cpu → s'.listed = cpu)
    (hborn : s'.born = s.born) (hmutex : s'.mtMutex = s.mtMutex)
    (hrunning : s'.nthreadsRunning = s.nthreadsRunning)
    (hleaving : s'.nthreadsLeaving = s.nthreadsLeaving)
    (hheard : ∀ cpu < ncpus, (s'.tracers cpu).pc = .tested ∨ (s'.tracers cpu).pc = .asleep →
      (s'.tracers cpu).isDone → s'.Stopping) : Shaken ncpus s' where
  listed := hlisted
  born_le := hborn ▸ hs.born_le
  unborn c hc := by
    have hunborn := hs.unborn c (hborn ▸ hc)
    rcases hpc c with h | ⟨h, -⟩
    · rw [h, hunborn]
    · rw [hunborn] at h
      cases h
  mutex c := by
    rw [hmutex, hs.mutex c]
    rcases hpc c with h | ⟨h, h'⟩
    · rw [h]
    · simp [h, h']
  heard c hc hdone := by
    by_cases hcpu : c < ncpus
    · exact hheard c hcpu hc hdone
    · have hunborn := hs.unborn c (le_trans hs.born_le (not_lt.mp hcpu))
      rcases hpc c with h | ⟨h, h'⟩
      · rw [h, hunborn] at hc
        simp at hc
      · rw [hunborn] at h
        cases h
  count := by
    rw [hrunning, hleaving, hs.count]
    congr 1
    apply Finset.sum_congr rfl
    intro c _
    rcases hpc c with h | ⟨h, h'⟩
    · rw [h]
    · rw [h, h']
      rfl

theorem pc_broadcast (s : State) (c : ℕ) :
    (s.broadcast.tracers c).pc = (s.tracers c).pc ∨
      ((s.tracers c).pc = .asleep ∧ (s.broadcast.tracers c).pc = .entering) := by
  rw [s.broadcast_pc]
  split_ifs with h
  · exact .inr ⟨h, rfl⟩
  · exact .inl rfl

/-- After a broadcast nobody is asleep. -/
theorem tested_of_broadcast {c : ℕ}
    (h : (s.broadcast.tracers c).pc = .tested ∨ (s.broadcast.tracers c).pc = .asleep) :
    (s.tracers c).pc = .tested := by
  rw [s.broadcast_pc] at h
  split_ifs at h with hasleep
  · simp at h
  · exact h.resolve_right hasleep

theorem create (hs : Shaken ncpus s) {cpu : ℕ} (hmain : s.main = .create cpu) (hcpu : cpu < ncpus) :
    Shaken ncpus { s.setPc cpu .opening with main := .list cpu } := by
  have hlisted := hs.listed cpu (.inl hmain)
  have hborn : s.born = cpu := by rw [State.born, hmain]; exact hlisted
  have hunborn := hs.unborn cpu (le_of_eq hborn)
  have hpc : ∀ c, c ≠ cpu → ((s.setPc cpu .opening).tracers c).pc = (s.tracers c).pc :=
    fun c hc => s.setPc_pc_of_ne hc _
  refine ⟨?_, ?_, ?_, ?_, ?_, ?_⟩
  · intro c hc
    rcases hc with hc | hc
    · cases hc
    · cases hc
      exact hlisted
  · exact hcpu
  · intro c hc
    have hlt : cpu < c := hc
    show ((s.setPc cpu .opening).tracers c).pc = .unborn
    rw [hpc c (Nat.ne_of_gt hlt)]
    exact hs.unborn c (hborn ▸ le_of_lt hlt)
  · exact hs.mutex_setPc (by simp [hunborn]) (by simp)
  · intro c hc hdone
    change ((s.setPc cpu .opening).tracers c).pc = .tested ∨
      ((s.setPc cpu .opening).tracers c).pc = .asleep at hc
    change ((s.setPc cpu .opening).tracers c).isDone = true at hdone
    by_cases h : c = cpu
    · subst h
      simp at hc
    · rw [hpc c h] at hc
      rw [State.setPc_isDone] at hdone
      obtain ⟨c', hstop⟩ | hstop := hs.heard c hc hdone
      · rw [hmain] at hstop
        cases hstop
      · exact .inr hstop
  · have hsum := s.sum_setPc Pc.active hcpu .opening
    rw [hunborn] at hsum
    show s.nthreadsRunning = s.nthreadsLeaving + ∑ c ∈ _, ((s.setPc cpu .opening).tracers c).pc.active
    rw [hs.count]
    exact congrArg _ hsum.symm

theorem handlers_of_stopping (h : s.Stopping) (hmain : ∀ cpu, s.main ≠ .stop cpu) :
    s.handlers ≠ [] := by
  rcases h with ⟨cpu, h⟩ | h
  · exact absurd h (hmain cpu)
  · exact h

/-- A step of `main` alone. -/
theorem moveMain (hs : Shaken ncpus s) {main : Main} (hstop : ∀ cpu, s.main ≠ .stop cpu)
    (hlist : ∀ cpu, s.main ≠ .list cpu) (hmain : ∀ cpu, main ≠ .create cpu ∧ main ≠ .list cpu) :
    Shaken ncpus { s with main := main } := by
  refine hs.keep (fun _ => .inl rfl) ?_ ?_ rfl rfl rfl ?_
  · intro cpu h
    exact absurd h (not_or.mpr (hmain cpu))
  · have hborn : s.born = s.listed := by
      unfold State.born
      split
      next cpu h => exact absurd h (hlist cpu)
      next => rfl
    rw [hborn]
    unfold State.born
    split
    next cpu h => exact absurd h (hmain cpu).2
    next => rfl
  · intro cpu _ hpc hdone
    have hhandlers : s.handlers ≠ [] := handlers_of_stopping (hs.heard cpu hpc hdone) hstop
    exact .inr hhandlers

theorem mainStep (hs : Shaken ncpus s) {useTracerDevpaths ok : Bool} {s' : State}
    (hheard : Heard ncpus s (.main ok)) (h : s.mainStep ncpus useTracerDevpaths ok = some s') :
    Shaken ncpus s' := by
  unfold State.mainStep at h
  split at h
  next cpu hmain =>
    split_ifs at h with hcpu
    · cases h
      exact hs.create hmain hcpu.1
    · cases h
      exact hs.moveMain (by simp [hmain]) (by simp [hmain]) (by simp)
  next cpu hmain =>
    cases h
    refine hs.keep (fun _ => .inl rfl) ?_ ?_ rfl rfl rfl ?_
    · intro c hc
      rcases hc with hc | hc <;> cases hc
      rfl
    · simp [State.born, hmain]
    · intro c _ hpc hdone
      have hhandlers : s.handlers ≠ [] :=
        handlers_of_stopping (hs.heard c hpc hdone) (by simp [hmain])
      exact .inr hhandlers
  next started hmain =>
    split_ifs at h
    · cases h
      exact hs.moveMain (by simp [hmain]) (by simp [hmain]) (by simp)
    · cases h
      exact hs.moveMain (by simp [hmain]) (by simp [hmain]) (by simp)
  next hmain =>
    split_ifs at h with hmutex
    cases h
    refine hs.keep (pc_broadcast s) (by simp) ?_ rfl rfl rfl ?_
    · simp [State.born, hmain, State.broadcast]
    · intro c _ hpc _
      have hheld := (hs.mutex c).mpr (tested_of_broadcast hpc)
      rw [hmutex] at hheld
      cases hheld
  next cpu hmain =>
    split_ifs at h with hcpu
    · cases h
      refine hs.keep (fun c => .inl (s.setDone_pc cpu c)) (by simp) ?_ rfl rfl rfl ?_
      · simp [State.born, hmain, State.setDone]
      · intro c _ _ _
        exact .inl ⟨_, rfl⟩
    · cases h
      refine hs.keep (pc_broadcast s) (by simp) ?_ rfl rfl rfl ?_
      · simp [State.born, hmain, State.broadcast]
      · intro c hc hpc hdone
        have htested := tested_of_broadcast hpc
        rw [s.broadcast_isDone] at hdone
        have hnot := hheard (by simp [State.broadcasts, hmain, not_lt.mp hcpu]) c hc htested
        rw [hdone] at hnot
        cases hnot
  next hmain =>
    split_ifs at h
    cases h
    exact hs.moveMain (by simp [hmain]) (by simp [hmain]) (by simp)
  next hmain =>
    split_ifs at h
    cases h
    exact hs.moveMain (by simp [hmain]) (by simp [hmain]) (by simp)
  next => cases h

theorem handlerStep (hs : Shaken ncpus s) {call : ℕ} {s' : State}
    (hheard : Heard ncpus s (.handler call)) (h : s.handlerStep call = some s') :
    Shaken ncpus s' := by
  unfold State.handlerStep at h
  split at h
  next cpu hcall =>
    split_ifs at h with hcpu
    · cases h
      refine hs.keep (fun c => .inl (s.setDone_pc cpu c)) hs.listed rfl rfl rfl rfl ?_
      intro c _ _ _
      refine .inr fun hnil => ?_
      have hlen := congrArg List.length hnil
      rw [List.length_set, List.length_nil, List.length_eq_zero_iff] at hlen
      rw [hlen] at hcall
      cases hcall
    · cases h
      refine hs.keep (pc_broadcast s) hs.listed rfl rfl rfl rfl ?_
      intro c hc hpc hdone
      have htested := tested_of_broadcast hpc
      rw [s.broadcast_isDone] at hdone
      have hnot := hheard (by simp [State.broadcasts, hcall, not_lt.mp hcpu]) c hc htested
      rw [hdone] at hnot
      cases hnot
  next => cases h

theorem step (hs : Shaken ncpus s) {useTracerDevpaths : Bool} {a : Act} {s' : State}
    (hheard : Heard ncpus s a) (h : s.step ncpus useTracerDevpaths a = some s') :
    Shaken ncpus s' := by
  cases a with
  | main ok => exact hs.mainStep hheard h
  | tracer cpu ok woken => exact hs.tracerStep h
  | sigint =>
    cases h
    refine hs.keep (fun _ => .inl rfl) hs.listed rfl rfl rfl rfl fun _ _ _ _ => ?_
    exact .inr (by simp)
  | handler call => exact hs.handlerStep hheard h

end Shaken

theorem shaken {ncpus : ℕ} {useTracerDevpaths : Bool} {acts : List Act}
    (h : Runs.Along (State.step ncpus useTracerDevpaths) (Heard ncpus) {} acts) :
    Shaken ncpus (Runs.run (State.step ncpus useTracerDevpaths) {} acts) :=
  Runs.run_invariant_of (fun _ _ _ hs hheard => hs.step hheard) h (shaken_init ncpus)

/-! ## The end -/

/-- The steps that a tracer has still to take once it is done. -/
def Pc.ahead : Pc → ℕ
  | .opening => 3
  | .entering => 2
  | .running => 1
  | .unborn | .tested | .asleep | .gone => 0

/-- `stop_tracers` has returned, and has told every tracer. -/
structure Stopped (ncpus : ℕ) (s : State) : Prop where
  shaken : Shaken ncpus s
  main : s.main = .leaving ∨ s.main = .finished
  handlers : s.handlers = []
  told : ∀ cpu < s.listed, (s.tracers cpu).isDone

def State.work (ncpus : ℕ) (s : State) : ℕ :=
  ∑ cpu ∈ Finset.range ncpus, (s.tracers cpu).pc.ahead + if s.main = .leaving then 1 else 0

namespace Stopped

variable {ncpus : ℕ} {s : State}

theorem not_stopping (hs : Stopped ncpus s) : ¬ s.Stopping := by
  rintro (⟨cpu, hmain⟩ | hhandlers)
  · rcases hs.main with h | h <;> rw [h] at hmain <;> cases hmain
  · exact hhandlers hs.handlers

theorem isDone (hs : Stopped ncpus s) (cpu : ℕ) (h : (s.tracers cpu).pc ≠ .unborn) :
    (s.tracers cpu).isDone := by
  have hborn : s.born = s.listed := by rcases hs.main with h | h <;> simp [State.born, h]
  exact hs.told cpu (hborn ▸ hs.shaken.lt_of_born h)

/-- Nobody waits. -/
theorem awake (hs : Stopped ncpus s) (cpu : ℕ) :
    (s.tracers cpu).pc ≠ .tested ∧ (s.tracers cpu).pc ≠ .asleep := by
  rw [← not_or]
  intro hpc
  have hborn : (s.tracers cpu).pc ≠ .unborn := by
    rcases hpc with h | h <;> simp [h]
  exact hs.not_stopping (hs.shaken.heard cpu hpc (hs.isDone cpu hborn))

theorem mtMutex_eq (hs : Stopped ncpus s) : s.mtMutex = none := by
  cases h : s.mtMutex with
  | none => rfl
  | some cpu => exact absurd ((hs.shaken.mutex cpu).mp h) (hs.awake cpu).1

/-- Until `main` is through, somebody can take a step. -/
theorem enabled (hs : Stopped ncpus s) (useTracerDevpaths : Bool) (hfin : s.main ≠ .finished) :
    ∃ a, a ≠ .sigint ∧ (s.step ncpus useTracerDevpaths a).isSome := by
  have hmain : s.main = .leaving := hs.main.resolve_right hfin
  by_cases hle : s.nthreadsRunning ≤ s.nthreadsLeaving
  · exact ⟨.main true, by simp, by simp [State.step, State.mainStep, hmain, hs.mtMutex_eq, hle]⟩
  have hsum : ∑ cpu ∈ Finset.range ncpus, (s.tracers cpu).pc.active ≠ 0 := by
    have hcount := hs.shaken.count
    omega
  obtain ⟨cpu, -, hactive⟩ := Finset.exists_ne_zero_of_sum_ne_zero hsum
  have hawake := hs.awake cpu
  cases hpc : (s.tracers cpu).pc with
  | entering =>
    have hdone := hs.isDone cpu (by simp [hpc])
    exact ⟨.tracer cpu true none, by simp,
      by simp [State.step, State.tracerStep, hpc, hs.mtMutex_eq, hdone]⟩
  | running =>
    have hdone := hs.isDone cpu (by simp [hpc])
    refine ⟨.tracer cpu true none, by simp, ?_⟩
    simp [State.step, State.tracerStep, hpc, hs.mtMutex_eq, hdone, State.signal, State.setPc, hmain,
      Main.waits]
  | tested => exact absurd hpc hawake.1
  | asleep => exact absurd hpc hawake.2
  | unborn | opening | gone =>
    rw [hpc] at hactive
    exact absurd rfl hactive

/-- A tracer that goes on comes nearer to the end. -/
theorem move (hs : Stopped ncpus s) {cpu : ℕ} (pc : Pc) (hcpu : cpu < ncpus) {s' : State}
    (hshaken : Shaken ncpus s') (htracers : s'.tracers = (s.setPc cpu pc).tracers)
    (hmain : s'.main = s.main) (hlisted : s'.listed = s.listed) (hhandlers : s'.handlers = s.handlers)
    (hlt : pc.ahead < (s.tracers cpu).pc.ahead) :
    Stopped ncpus s' ∧ s'.work ncpus < s.work ncpus := by
  refine ⟨⟨hshaken, ?_, ?_, fun c hc => ?_⟩, ?_⟩
  · rw [hmain]
    exact hs.main
  · rw [hhandlers]
    exact hs.handlers
  · rw [htracers, State.setPc_isDone]
    exact hs.told c (hlisted ▸ hc)
  · have hsum := s.sum_setPc Pc.ahead hcpu pc
    rw [State.work, State.work, hmain, htracers]
    omega

/-- A signal has nobody to wake. -/
theorem signal_eq (hs : Stopped ncpus s) {t : State} {woken : Option ℕ} {s' : State}
    (h : t.signal ncpus woken = some s') {cpu : ℕ} {pc : Pc}
    (htracers : t.tracers = (s.setPc cpu pc).tracers) (hpc : pc ≠ .asleep) : s' = t := by
  unfold State.signal at h
  split at h
  next c =>
    split_ifs at h with hasleep
    rw [htracers] at hasleep
    by_cases hc : c = cpu
    · subst hc
      rw [State.setPc_pc_self] at hasleep
      exact absurd hasleep hpc
    · rw [s.setPc_pc_of_ne hc] at hasleep
      exact absurd hasleep (hs.awake c).2
  next =>
    split_ifs at h
    cases h
    rfl

theorem step (hs : Stopped ncpus s) {useTracerDevpaths : Bool} {a : Act} {s' : State}
    (ha : a ≠ .sigint) (h : s.step ncpus useTracerDevpaths a = some s') :
    Stopped ncpus s' ∧ s'.work ncpus < s.work ncpus := by
  have hheard : Heard ncpus s a := fun _ cpu _ hpc => absurd hpc (hs.awake cpu).1
  have hshaken := hs.shaken.step hheard h
  cases a with
  | sigint => exact absurd rfl ha
  | handler call => simp [State.step, State.handlerStep, hs.handlers] at h
  | main ok =>
    rcases hs.main with hmain | hmain
    · simp only [State.step, State.mainStep, hmain] at h
      split_ifs at h
      cases h
      refine ⟨⟨hshaken, .inr rfl, hs.handlers, hs.told⟩, ?_⟩
      simp only [State.work, hmain, if_true, reduceCtorEq, if_false]
      exact Nat.lt_succ_self _
    · simp [State.step, State.mainStep, hmain] at h
  | tracer cpu ok woken =>
    have hstep : s.tracerStep ncpus cpu ok woken = some s' := h
    unfold State.tracerStep at hstep
    split at hstep
    next hpc =>
      have hcpu := hs.shaken.lt_of_pc (show (s.tracers cpu).pc ≠ .unborn by simp [hpc])
      split_ifs at hstep
      · have heq := hs.signal_eq hstep (show _ = (s.setPc cpu .entering).tracers from rfl) (by simp)
        subst heq
        exact hs.move .entering hcpu hshaken rfl rfl rfl rfl (by simp [hpc, Pc.ahead])
      · have heq := hs.signal_eq hstep (show _ = (s.setPc cpu .gone).tracers from rfl) (by simp)
        subst heq
        exact hs.move .gone hcpu hshaken rfl rfl rfl rfl (by simp [hpc, Pc.ahead])
    next hpc =>
      have hdone := hs.isDone cpu (by simp [hpc])
      have hcpu := hs.shaken.lt_of_pc (show (s.tracers cpu).pc ≠ .unborn by simp [hpc])
      simp only [hdone, Bool.true_or, if_true] at hstep
      split_ifs at hstep
      cases hstep
      exact hs.move .running hcpu hshaken rfl rfl rfl rfl (by simp [hpc, Pc.ahead])
    next hpc => exact absurd hpc (hs.awake cpu).1
    next hpc =>
      have hcpu := hs.shaken.lt_of_pc (show (s.tracers cpu).pc ≠ .unborn by simp [hpc])
      split_ifs at hstep
      have heq := hs.signal_eq hstep (show _ = (s.setPc cpu .gone).tracers from rfl) (by simp)
      subst heq
      exact hs.move .gone hcpu hshaken rfl rfl rfl rfl (by simp [hpc, Pc.ahead])
    all_goals cases hstep

/-- `wait_tracers_leaving` returns. -/
theorem returns (hs : Stopped ncpus s) (useTracerDevpaths : Bool) :
    Runs.Inevitable (State.step ncpus useTracerDevpaths) (· ≠ .sigint) (fun s => s.main = .finished)
      s := by
  refine .of_measure (State.work ncpus) (fun s hs hfin => ?_) (fun s a s' hs _ ha h => hs.step ha h) hs
  obtain ⟨a, ha, hsome⟩ := hs.enabled useTracerDevpaths hfin
  exact ⟨a, _, ha, (Option.some_get hsome).symm⟩

end Stopped

/-- The first tracer of `unheard` waits in time. -/
def heard : List Act :=
  [.main true, .main true, .main true, .main true, .main true, .tracer 1 false none,
    .tracer 0 true none, .main true, .tracer 0 true none, .tracer 0 true none, .main true,
    .main true, .main true, .main true]

end Blktrace.Tracer.Handshake
