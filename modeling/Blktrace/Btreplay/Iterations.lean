import Blktrace.Btreplay.Shutdown

/-!
# `btreplay.c`: `main` and the files, iteration after iteration

Every file has the two threads of `Pool`; `replay_sub` goes over its file once for each iteration,
between `wait_iter_start` and `set_iter_done`, and `main` starts the next iteration when
`n_iters_done` is `nfiles`. A permission to start is one of `nfiles` tokens of `iter_start`, and no
token has a name on it.

What stands under a mutex of its own is one step. A thread asleep in `pthread_cond_wait` may wake
up at any time; the signal only says that it need not stay. `signal_done` is set at any time too. An
assertion that fails ends the program (`aborted`, or the failed places of `Pool`).
-/

namespace Blktrace.Btreplay.Program

open Pool (SubPc ReapPc orFailed)

/-! ## The state -/

/-- The counters of `__set_cv` and `__wait_cv`. -/
inductive Cv
  | replaysReady | itersDone | replaysDone | reclaimsDone
deriving DecidableEq

/-- Where a thread is in `replay_sub`. -/
inductive SubAt
  /-- Before `set_replay_ready`. -/
  | ready
  /-- At the `while` with `iterations`. -/
  | test
  | start (asleep : Bool)
  /-- At the `while` with `next_bunch`. -/
  | inner
  /-- In `process_bunch`; where there, the pool says. -/
  | bunch
  | iterDone
  | reset
  /-- Before `send_done` is set. -/
  | leave
  | replayDone
  | returned
deriving DecidableEq

/-- Where `main` is. -/
inductive MainAt
  | wait (cv : Cv) (asleep : Bool)
  /-- At the `for`. -/
  | test
  | start
  /-- In `rem_input_files`. -/
  | release
  | returned
deriving DecidableEq

/-- What a file has: `struct thr_info`, the place of its submitter, and whether its reclaimer has
called `set_reclaim_done`. -/
structure Tip (α : Type*) where
  file : List (Bunch α)
  pool : Pool.State α
  sub : SubAt := .ready
  iterations : ℤ
  reclaimSet : Bool := false
  /-- History: the number of `start_iter`s before each pass began, and before it was done. -/
  begun : List ℕ := []
  ended : List ℕ := []

structure State (n : ℕ) (α : Type*) where
  tips : Fin n → Tip α
  main : MainAt := .wait .replaysReady false
  i : ℕ := 0
  defIterations : ℕ
  signalDone : Bool := false
  count : Cv → ℕ := fun _ => 0
  iterStart : ℕ := 0
  /-- The iteration that `rgenesis` is the start time of. -/
  rgenesis : ℕ := 0
  aborted : Bool := false
  /-- History: the number of `start_iter`s. -/
  starts : ℕ := 0

variable {n : ℕ} {α : Type*}

/-- Before the threads run: the files are open at their first bunch. -/
def init (defIterations : ℕ) (files : Fin n → List (Bunch α)) : State n α where
  tips j := { file := files j, pool := { bunches := files j }, iterations := defIterations }
  defIterations := defIterations

namespace State

def setTip (s : State n α) (j : Fin n) (tip : Tip α) : State n α :=
  { s with tips := Function.update s.tips j tip }

/-- `assert`. -/
def assert (cond : Bool) (s : State n α) : State n α := { s with aborted := s.aborted || !cond }

/-! ## The condition variables -/

def wake (cv : Cv) : MainAt → MainAt
  | .wait cv' true => .wait cv' (cv' ≠ cv)
  | m => m

/-- `__set_cv`. -/
def setCv (cv : Cv) (s : State n α) : State n α :=
  assert (s.count cv < n)
    { s with count := Function.update s.count cv (s.count cv + 1), main := wake cv s.main }

def setReclaimDone : State n α → State n α := setCv .reclaimsDone
def setReplayReady : State n α → State n α := setCv .replaysReady
def setReplayDone : State n α → State n α := setCv .replaysDone
def setIterDone : State n α → State n α := setCv .itersDone

/-- `__wait_cv`, once it has the mutex: `next` is what `main` does after it. -/
def waitCv (cv : Cv) (next : State n α → State n α) (s : State n α) : State n α :=
  if s.count cv < n then { s with main := .wait cv true }
  else next { s with count := Function.update s.count cv 0 }

/-- `start_iter`. -/
def startIter (s : State n α) : State n α :=
  assert (s.iterStart = 0)
    { s with
      iterStart := n
      starts := s.starts + 1
      tips := fun j =>
        if (s.tips j).sub = .start true then { s.tips j with sub := .start false } else s.tips j }

/-- `wait_iter_start`, with the mutex. -/
def waitIterStart (s : State n α) (j : Fin n) : State n α :=
  let tip := s.tips j
  if s.iterStart = 0 then s.setTip j { tip with sub := .start true }
  else
    assert (1 ≤ s.iterStart && s.iterStart ≤ n)
      { s.setTip j { tip with sub := .inner, begun := tip.begun ++ [s.starts] } with
        iterStart := s.iterStart - 1 }

/-! ## The threads -/

def isSendDone (s : State n α) (tip : Tip α) : Bool := s.signalDone || tip.pool.sendDone

/-- `process_bunch`, with `nfree_current` in it: where `is_send_done` is tested it is tested here, and
the rest is the pool's. -/
def bunchStep (s : State n α) (tip : Tip α) : Option (Tip α) :=
  match tip.pool.sub with
  | .loop =>
    some (if s.isSendDone tip || tip.pool.pkts.isEmpty then
      { tip with sub := .inner, pool := { tip.pool with pkts := [], sub := .next } }
    else { tip with pool := { tip.pool with sub := .nfree } })
  | .nfreeHeld =>
    if s.isSendDone tip then
      -- `nfree` is 0
      let ntodo := min 0 tip.pool.pkts.length
      some { tip with
        pool := { tip.pool with
          mutex := none
          sub := orFailed (0 < ntodo && ntodo ≤ naios) (.map ntodo) .failed } }
    else (Pool.subStep tip.pool).map fun pool => { tip with pool := pool }
  | _ => (Pool.subStep tip.pool).map fun pool => { tip with pool := pool }

/-- The next step of a submitter. -/
def subStep (s : State n α) (j : Fin n) : Option (State n α) :=
  let tip := s.tips j
  match tip.sub with
  | .ready => some (setReplayReady (s.setTip j { tip with sub := .test }))
  | .test =>
    some (s.setTip j (if s.isSendDone tip then { tip with sub := .leave }
      else
        { tip with
          iterations := tip.iterations - 1
          sub := if tip.iterations ≠ 0 then .start false else .leave }))
  | .start true => some (s.setTip j { tip with sub := .start false })
  | .start false => some (s.waitIterStart j)
  | .inner =>
    if s.isSendDone tip || tip.pool.bunches.isEmpty then
      some (s.setTip j { tip with sub := .iterDone })
    else
      (Pool.subStep tip.pool).map fun pool => s.setTip j { tip with sub := .bunch, pool := pool }
  | .bunch => (s.bunchStep tip).map (s.setTip j)
  | .iterDone =>
    some (setIterDone (s.setTip j { tip with sub := .reset, ended := tip.ended ++ [s.starts] }))
  | .reset =>
    some (s.setTip j { tip with sub := .test, pool := { tip.pool with bunches := tip.file } })
  | .leave =>
    -- there is nothing more that `next_bunch` will read
    let pool := { tip.pool with bunches := [], sendDone := true, sub := .finished }
    some (s.setTip j { tip with sub := .replayDone, pool := pool })
  | .replayDone => some (setReplayDone (s.setTip j { tip with sub := .returned }))
  | .returned => none

/-- The next step of a reclaimer; at the end of `replay_rec`, `set_reclaim_done`. -/
def reapStep (s : State n α) (j : Fin n) (events : List ℕ) : Option (State n α) :=
  let tip := s.tips j
  match tip.pool.reap with
  | .done =>
    if tip.reclaimSet then none
    else some (setReclaimDone (s.setTip j { tip with reclaimSet := true }))
  | _ => (Pool.reapStep events tip.pool).map fun pool => s.setTip j { tip with pool := pool }

/-- `tip_release`, its assertions. -/
def releasable (tip : Tip α) : Bool :=
  tip.pool.sendDone && tip.pool.reapDone && tip.pool.usedIocbs.length = 0 &&
    tip.pool.naiosFree = naios

/-- The next step of `main`. -/
def mainStep (s : State n α) : Option (State n α) :=
  match s.main with
  | .wait cv true => some { s with main := .wait cv false }
  | .wait .replaysReady false => some (s.waitCv .replaysReady fun s => { s with main := .test })
  | .wait .itersDone false =>
    some (s.waitCv .itersDone fun s => { s with i := s.i + 1, main := .test })
  | .wait .replaysDone false =>
    some (s.waitCv .replaysDone fun s => { s with main := .wait .reclaimsDone false })
  | .wait .reclaimsDone false => some (s.waitCv .reclaimsDone fun s => { s with main := .release })
  | .test =>
    some (if s.i < s.defIterations then { s with rgenesis := s.i, main := .start }
      else { s with main := .wait .replaysDone false })
  | .start => some { s.startIter with main := .wait .itersDone false }
  | .release => some (assert (decide (∀ j, releasable (s.tips j))) { s with main := .returned })
  | .returned => none

end State

/-! ## Runs -/

/-- Whose step it is. -/
inductive Act (n : ℕ)
  | main
  | sub (j : Fin n)
  | reap (j : Fin n) (events : List ℕ)
  | signal
deriving DecidableEq

namespace State

def step (s : State n α) : Act n → Option (State n α)
  | .main => s.mainStep
  | .sub j => s.subStep j
  | .reap j events => s.reapStep j events
  | .signal => some { s with signalDone := true }

/-- A run of chosen steps. -/
def run : List (Act n) → State n α → Option (State n α)
  | [], s => some s
  | a :: rest, s => (s.step a).bind (run rest)

end State

/-- The states that runs lead to, all of whose steps meet a condition. -/
inductive Reached (ok : State n α → Act n → Prop) (s₀ : State n α) : State n α → Prop
  | init : Reached ok s₀ s₀
  | step {s s' : State n α} (a : Act n) (h : Reached ok s₀ s) (hok : ok s a)
      (hstep : s.step a = some s') : Reached ok s₀ s'

theorem Reached.mono {ok ok' : State n α → Act n → Prop} {s₀ s : State n α}
    (h : Reached ok s₀ s) (himp : ∀ s a, ok s a → ok' s a) : Reached ok' s₀ s := by
  induction h with
  | init => exact .init
  | step a _ hok hstep ih => exact ih.step a (himp _ _ hok) hstep

theorem Reached.trans {ok : State n α → Act n → Prop} {s₀ s t : State n α}
    (h : Reached ok s₀ s) (ht : Reached ok s t) : Reached ok s₀ t := by
  induction ht with
  | init => exact h
  | step a _ hok hstep ih => exact ih.step a hok hstep

theorem Reached.run {ok : State n α → Act n → Prop} {s₀ s t : State n α} {acts : List (Act n)}
    (h : Reached ok s₀ s) (hok : ∀ s, ∀ a ∈ acts, ok s a) (hrun : s.run acts = some t) :
    Reached ok s₀ t := by
  induction acts generalizing s with
  | nil =>
    cases hrun
    exact h
  | cons a rest ih =>
    obtain ⟨s₁, hstep, hrest⟩ := Option.bind_eq_some_iff.mp hrun
    have hnext := h.step a (hok s a List.mem_cons_self) hstep
    exact ih hnext (fun s b hb => hok s b (List.mem_cons_of_mem a hb)) hrest

end Blktrace.Btreplay.Program
