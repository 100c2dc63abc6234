import Blktrace.Btreplay.Replay

/-!
# `btreplay.c`: the two threads of a file and their iocbs

One thread submits what the bunches hold (`process_bunch`, `nfree_current`, `iocbs_map`), the
other collects what is complete (`reap_wait_aios`, `reclaim_ios`). They share the free list and
the counters under a mutex; the kernel has the iocbs in between. A step is one thread's, up to
the next place where the other one or the kernel can tell the difference: inside a critical
section every move of an iocb is a step, and so is every iocb `io_submit` passes on.

A thread in `pthread_cond_wait` may wake up at any time, signalled or not. Without signals
`is_send_done` is `send_done`, which its thread sets last. What `iocb_setup` asserts of a packet is
no matter of the pool (`Ready` has it). Left out: the stalls, and the failures of a system call or
an IO, which end the run.
-/

namespace Blktrace.Btreplay

/-- A bunch as `btrecord` writes it, with packets of any kind. -/
structure Bunch (α : Type*) where
  pkts : List α
  pos : 0 < pkts.length
  le : pkts.length ≤ btMaxPkts

/-- A bunch of one packet. -/
def Bunch.single {α : Type*} (pkt : α) : Bunch α := ⟨[pkt], Nat.one_pos, show 1 ≤ btMaxPkts by decide⟩

namespace Pool

inductive Thread
  | sub
  | reap
deriving DecidableEq

/-! ## Where the threads are -/

/-- The submitter. An iocb is its number. -/
inductive SubPc
  /-- In `replay_sub`, before `next_bunch`. -/
  | next
  /-- At the `while` of `process_bunch`. -/
  | loop
  /-- `nfree_current`: before the mutex, in the loop with it, in `pthread_cond_wait`. -/
  | nfree
  | nfreeHeld
  | nfreeWait
  /-- `iocbs_map` of `ntodo` packets: before the mutex, and in the loop with the iocbs set up. -/
  | map (ntodo : ℕ)
  | mapping (ntodo : ℕ) (list : List ℕ)
  /-- `io_submit`, with what the kernel has not taken yet. -/
  | submitting (ntodo : ℕ) (left : List ℕ)
  /-- `io_submit` returned: before the mutex, and with `naios_out` raised. -/
  | count (ndone : ℕ)
  | counted (ndone : ℕ)
  /-- `send_done` is set. -/
  | finished
  /-- An assertion failed, or the free list had nothing to take. -/
  | failed

/-- The reclaimer. `naiosOut` is the count it carries with it. -/
inductive ReapPc
  /-- `reap_wait_aios`: `is_reap_done` reads `send_done`, then `naios_out`. -/
  | check
  | checkOut
  /-- Before the mutex, in the loop with it, in `pthread_cond_wait`. -/
  | lock
  | held
  | wait
  /-- The assertion, with the two reads of `is_reap_done`. -/
  | asserting (naiosOut : ℤ)
  | assertingOut (naiosOut : ℤ)
  /-- The `return`, with the two reads again, and back in `replay_rec`. -/
  | returning (naiosOut : ℤ)
  | returningOut (naiosOut : ℤ)
  | back (naiosOut : ℤ)
  /-- `reclaim_ios`: before `io_getevents`; before the mutex; in the loop with it, with the events
  that are left and those that are done. -/
  | getting (naiosOut : ℤ)
  | got (naiosOut : ℤ) (events : List ℕ)
  | moving (naiosOut : ℤ) (left moved : List ℕ)
  /-- `reap_done` is set. -/
  | done
  | failed

/-! ## The state -/

/-- `struct thr_info`, the kernel and the threads. -/
structure State (α : Type*) where
  freeIocbs : List ℕ := List.range naios
  usedIocbs : List ℕ := []
  mutex : Option Thread := none
  naiosOut : ℤ := 0
  naiosFree : ℤ := naios
  sendWait : Bool := false
  reapWait : Bool := false
  sendDone : Bool := false
  reapDone : Bool := false
  /-- What `iocb_setup` put into an iocb. -/
  iocb : ℕ → Option α := fun _ => none
  /-- The iocbs submitted and not yet returned by `io_getevents`. -/
  kernel : List ℕ := []
  /-- History: the packets submitted, in order. -/
  log : List α := []
  /-- The bunches `next_bunch` has still to read. -/
  bunches : List (Bunch α)
  /-- The packets of the bunch in hand, from `i` on. -/
  pkts : List α := []
  sub : SubPc := .next
  reap : ReapPc := .check

variable {α : Type*}

/-- `assert`, as the place a thread goes to. -/
def orFailed {β : Type} (cond : Bool) (ok failed : β) : β := if cond then ok else failed

/-! ## The submitter -/

/-- The submitter's next step; `none` where it waits for the mutex, or is done. -/
def subStep (s : State α) : Option (State α) :=
  match s.sub with
  | .next =>
    match s.bunches with
    | [] => some { s with sendDone := true, sub := .finished }
    | b :: rest =>
      some { s with
        bunches := rest
        pkts := b.pkts
        sub := orFailed (0 < b.pkts.length && b.pkts.length ≤ btMaxPkts) .loop .failed }
  | .loop => some { s with sub := if s.pkts.isEmpty then .next else .nfree }
  | .nfree | .nfreeWait =>
    if s.mutex = none then some { s with mutex := some .sub, sub := .nfreeHeld } else none
  | .nfreeHeld =>
    if s.naiosFree = 0 then some { s with sendWait := true, mutex := none, sub := .nfreeWait }
    else
      let ntodo := min s.naiosFree s.pkts.length
      some { s with
        mutex := none
        sub := orFailed (0 < ntodo && ntodo ≤ naios) (.map ntodo.toNat) .failed }
  | .map ntodo =>
    if s.mutex = none then
      some { s with
        mutex := some .sub
        sub := orFailed (ntodo ≤ s.freeIocbs.length) (.mapping ntodo []) .failed }
    else none
  | .mapping ntodo list =>
    if list.length < ntodo then
      match s.freeIocbs, s.pkts[list.length]? with
      | x :: free, some pkt =>
        some { s with
          freeIocbs := free
          usedIocbs := s.usedIocbs ++ [x]
          iocb := Function.update s.iocb x (some pkt)
          sub := .mapping ntodo (list ++ [x]) }
      | _, _ => some { s with sub := .failed }
    else
      some { s with
        naiosFree := s.naiosFree - ntodo
        mutex := none
        sub := orFailed (0 ≤ s.naiosFree - ntodo) (.submitting ntodo list) .failed }
  | .submitting ntodo [] => some { s with sub := .count ntodo }
  | .submitting ntodo (x :: left) =>
    some { s with
      kernel := s.kernel ++ [x]
      log := s.log ++ (s.iocb x).toList
      sub := .submitting ntodo left }
  | .count ndone =>
    if s.mutex = none then
      some { s with
        mutex := some .sub
        naiosOut := s.naiosOut + ndone
        sub := orFailed (s.naiosOut + ndone ≤ naios) (.counted ndone) .failed }
    else none
  | .counted ndone =>
    -- the signal, if `reap_wait` is set; `i += ndone`
    some { s with
      mutex := none
      reapWait := false
      pkts := s.pkts.drop ndone
      sub := orFailed (ndone ≤ s.pkts.length) .loop .failed }
  | .finished | .failed => none

/-! ## The reclaimer -/

/-- The reclaimer's next step. `events` is what `io_getevents` returns, if it is called: completed
iocbs in any order, at least one and at most as many as it was asked for. -/
def reapStep (events : List ℕ) (s : State α) : Option (State α) :=
  match s.reap with
  | .check => some { s with reap := if s.sendDone then .checkOut else .lock }
  | .checkOut => some { s with reap := if s.naiosOut = 0 then .asserting 0 else .lock }
  | .lock | .wait =>
    if s.mutex = none then some { s with mutex := some .reap, reap := .held } else none
  | .held =>
    if s.naiosOut = 0 then some { s with reapWait := true, mutex := none, reap := .wait }
    else some { s with mutex := none, reap := .asserting s.naiosOut }
  | .asserting n =>
    some { s with
      reap := if s.sendDone then .assertingOut n else orFailed (0 < n) (.returning n) .failed }
  | .assertingOut n =>
    some { s with reap := orFailed (s.naiosOut = 0 || 0 < n) (.returning n) .failed }
  | .returning n => some { s with reap := if s.sendDone then .returningOut n else .back n }
  | .returningOut n => some { s with reap := if s.naiosOut = 0 then .back 0 else .back n }
  | .back n =>
    if 0 < n then some { s with reap := orFailed (0 < naios) (.getting n) .failed }
    else some { s with reapDone := true, reap := orFailed s.sendDone .done .failed }
  | .getting n =>
    if events ≠ [] ∧ (events.length : ℤ) ≤ n ∧ events.Nodup ∧ events ⊆ s.kernel then
      some { s with kernel := s.kernel.diff events, reap := .got n events }
    else none
  | .got n events =>
    if s.mutex = none then some { s with mutex := some .reap, reap := .moving n events [] }
    else none
  | .moving n (x :: left) moved =>
    some { s with
      usedIocbs := s.usedIocbs.erase x
      freeIocbs := s.freeIocbs ++ [x]
      reap := .moving n left (moved ++ [x]) }
  | .moving n [] moved =>
    -- the counters, and the signal, if `send_wait` is set
    let naiosOut := s.naiosOut - moved.length
    some { s with
      naiosFree := s.naiosFree + moved.length
      naiosOut := naiosOut
      sendWait := false
      mutex := none
      reap :=
        if min n naiosOut = 0 then .check
        else orFailed (0 < naios) (.getting (min n naiosOut)) .failed }
  | .done | .failed => none

/-! ## Runs -/

/-- One step of either thread. -/
inductive Step (s : State α) : State α → Prop
  | sub {s' : State α} (h : subStep s = some s') : Step s s'
  | reap (events : List ℕ) {s' : State α} (h : reapStep events s = some s') : Step s s'

/-- The states that the threads come to, whatever the order of their steps, on a file of these
bunches. -/
def Reachable (bunches : List (Bunch α)) (s : State α) : Prop :=
  Relation.ReflTransGen Step { bunches := bunches } s

end Pool

end Blktrace.Btreplay
