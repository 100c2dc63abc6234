import Blktrace.Btreplay.IterInv

/-!
# What a signal interrupts

`signal_done` is tested in four loops of a submitter, and `main` does not test it. A submitter that
finds it set in `nfree_current` has no AIO to map; one that finds it set at the `while` with
`iterations` leaves passes out that `main` waits for. A signal that meets neither does no harm.
-/

namespace Blktrace.Btreplay

variable {n : ℕ} {α : Type*}

/-! ## The pool, from outside -/

namespace Pool

/-- In `nfree_current`. -/
def SubPc.seeks : SubPc → Bool
  | .nfree | .nfreeHeld | .nfreeWait => true
  | _ => false

/-- Between two bunches the file can be another. -/
theorem Inv.reload {all : List α} {s : State α} (hi : Inv all s) (hsub : s.sub = .next)
    (bunches : List (Bunch α)) : ∃ all', Inv all' { s with bunches := bunches } := by
  have hok := hi.subOk
  rw [hsub] at hok
  refine ⟨s.log ++ (s.pkts.drop s.sub.sent ++ bunches.flatMap Bunch.pkts),
    { hi with log := rfl, subOk := ?_, reapOk := ?_ }⟩
  · show SubOk { s with bunches := bunches } s.sub
    rw [hsub]
    exact hok
  · have hreap := hi.reapOk
    revert hreap
    cases s.reap <;> exact id

/-- And the rest of a bunch can be left out. -/
theorem Inv.drop {all : List α} {s : State α} (hi : Inv all s) (hsub : s.sub = .loop) :
    ∃ all', Inv all' { s with pkts := [], sub := .next } := by
  obtain ⟨hplaces, hused, hfree, hout, hnonneg, hmutex, hreapMutex, hdone, -, -, hreapOk⟩ := hi
  rw [hsub] at hplaces hused hfree hout hmutex hdone
  refine ⟨s.log ++ s.bunches.flatMap Bunch.pkts,
    ⟨hplaces, hused, hfree, hout, hnonneg, hmutex, hreapMutex, hdone, ?_, rfl, ?_⟩⟩
  · simp [SubPc.sent]
  · revert hreapOk
    cases s.reap <;> exact id

theorem subStep_reap {s s' : State α} (h : subStep s = some s') :
    s'.reap = s.reap ∧ s'.reapDone = s.reapDone := by
  unfold subStep at h
  split at h
  all_goals (repeat' split at h)
  all_goals cases h
  all_goals exact ⟨rfl, rfl⟩

theorem reapStep_sub {events : List ℕ} {s s' : State α} (h : reapStep events s = some s') :
    s'.sub = s.sub := by
  unfold reapStep at h
  split at h
  all_goals (repeat' split at h)
  all_goals cases h
  all_goals rfl

theorem orFailed_ne {β : Type} {ok failed p : β} (hok : ok ≠ p) (hfailed : failed ≠ p)
    (cond : Bool) : orFailed cond ok failed ≠ p := by
  cases cond
  · exact hfailed
  · exact hok

/-- The reclaimer is done where it has said so. -/
theorem reapStep_done {events : List ℕ} {s s' : State α} (h : reapStep events s = some s')
    (hdone : s'.reap = .done) : s'.reapDone = true := by
  unfold reapStep at h
  split at h
  all_goals (repeat' split at h)
  all_goals cases h
  all_goals dsimp only at hdone ⊢
  all_goals (try split at hdone)
  all_goals first
    | cases hdone
    | exact absurd hdone (orFailed_ne (by simp) (by simp) _)

/-- From the `while` of `replay_sub` into `process_bunch`. -/
theorem subStep_next {s s' : State α} (hsub : s.sub = .next) (hne : s.bunches ≠ [])
    (h : subStep s = some s') : s'.sub = .loop := by
  unfold subStep at h
  rw [hsub] at h
  dsimp only at h
  split at h
  case h_1 hnil => exact absurd hnil hne
  case h_2 b rest _ =>
    cases h
    exact orFailed_of (by simp [b.pos, b.le]) _ _

/-- `process_bunch` ends at its `while`, and `nfree_current` is called from there. -/
theorem subStep_inside {s s' : State α} (hloop : s.sub ≠ .loop) (hnext : s.sub ≠ .next)
    (h : subStep s = some s') :
    s'.sub ≠ .next ∧ s'.sub ≠ .finished ∧ (s.sub.seeks = false → s'.sub.seeks = false) := by
  have hseeks : ∀ {cond : Bool} {p : SubPc}, p.seeks = false →
      (orFailed cond p .failed).seeks = false := by
    intro cond p hp
    cases cond
    · rfl
    · exact hp
  unfold subStep at h
  split at h
  case h_1 hsub => exact absurd hsub hnext
  case h_2 hsub => exact absurd hsub hloop
  all_goals (repeat' split at h)
  all_goals cases h
  all_goals refine ⟨?_, ?_, fun hs => ?_⟩
  all_goals first
    | exact orFailed_ne (by simp) (by simp) _
    | rfl
    | exact hseeks rfl
    | (rw [‹s.sub = _›] at hs; cases hs)
    | simp

end Pool

/-! ## A file in a run -/

namespace Program

open Pool (SubPc ReapPc)

/-- How the place in `replay_sub` and the pool's place go together. -/
def SubAt.Agrees (p : SubPc) : SubAt → Prop
  | .bunch => p ≠ .next ∧ p ≠ .finished
  | .replayDone | .returned => p = .finished
  | _ => p = .next

/-- What holds of a file as long as no signal comes amiss. -/
structure Sound (N : ℕ) (signal : Bool) (tip : Tip α) : Prop where
  pool : ∃ all, Pool.Inv all tip.pool
  agrees : tip.sub.Agrees tip.pool.sub
  /-- No pass is left out. -/
  full : tip.sub.left = true ∨ signal = true → tip.begun.length + tip.sub.waiting = N
  seeks : signal = true → tip.pool.sub.seeks = false
  reapDone : tip.pool.reap = .done → tip.pool.reapDone = true
  reclaimSet : tip.reclaimSet = true → tip.pool.reap = .done

/-- `send_done` is set by the submitter that leaves. -/
theorem Sound.sendDone {N : ℕ} {signal : Bool} {tip : Tip α} (hs : Sound N signal tip)
    (hsub : tip.pool.sub ≠ .finished) : tip.pool.sendDone = false := by
  obtain ⟨all, hi⟩ := hs.pool
  rw [hi.sendDone]
  cases hp : tip.pool.sub <;> first | rfl | exact absurd hp hsub

/-- **A quiet step.** -/
theorem Sound.quiet {N : ℕ} {signal : Bool} {tip tip' : Tip α} (hs : Sound N signal tip)
    (hp : Passes N tip) (h : Quiet signal tip tip') : Sound N signal tip' := by
  obtain ⟨all, hi⟩ := hs.pool
  have hagrees := hs.agrees
  have hfull := hs.full
  cases h with
  | quit hsub hdone =>
    rw [hsub] at hagrees hfull
    have hunset := hs.sendDone (by rw [show tip.pool.sub = .next from hagrees]; simp)
    rw [hunset, Bool.or_false] at hdone
    exact { hs with agrees := hagrees, full := fun _ => hfull (.inr hdone) }
  | enter hsub hdone hleft =>
    rw [hsub] at hagrees
    rw [Bool.or_eq_false_iff] at hdone
    refine { hs with agrees := hagrees, full := ?_ }
    rintro (h | h)
    · cases h
    · rw [hdone.1] at h
      cases h
  | last hsub hdone hleft =>
    rw [hsub] at hagrees
    have hiter := hp.iterations (by rw [hsub]; rfl)
    have hle := hp.le
    rw [hsub] at hiter hle
    refine { hs with agrees := hagrees, full := fun _ => ?_ }
    simp only [SubAt.waiting] at hiter hle ⊢
    omega
  | sleep asleep asleep' hsub =>
    rw [hsub] at hagrees hfull
    exact { hs with agrees := hagrees, full := hfull }
  | passed hsub hdone =>
    rw [hsub] at hagrees hfull
    exact { hs with agrees := hagrees, full := hfull }
  | @bunch pool hsub hdone hpool =>
    rw [hsub] at hagrees hfull
    simp only [Bool.or_eq_false_iff, List.isEmpty_eq_false_iff] at hdone
    have hloop := Pool.subStep_next hagrees hdone.2 hpool
    have hreap := Pool.subStep_reap hpool
    refine ⟨⟨all, hi.subStep hpool⟩, ?_, hfull, fun _ => ?_, ?_, ?_⟩
    · show pool.sub ≠ .next ∧ pool.sub ≠ .finished
      rw [hloop]
      exact ⟨by simp, by simp⟩
    · show pool.sub.seeks = false
      rw [hloop]
      rfl
    · show pool.reap = .done → pool.reapDone = true
      rw [hreap.1, hreap.2]
      exact hs.reapDone
    · show tip.reclaimSet = true → pool.reap = .done
      rw [hreap.1]
      exact hs.reclaimSet
  | seek hsub hloop hdone =>
    rw [hsub] at hagrees hfull
    simp only [Bool.or_eq_false_iff] at hdone
    have hstep : Pool.subStep tip.pool = some { tip.pool with sub := .nfree } := by
      simp only [Pool.subStep, hloop, hdone.2, Bool.false_eq_true, if_false]
    refine { hs with
      pool := ⟨all, hi.subStep hstep⟩
      agrees := ?_
      full := hs.full
      seeks := fun h => ?_ }
    · rw [hsub]
      exact ⟨by simp, by simp⟩
    · rw [hdone.1.1] at h
      cases h
  | endBunch hsub hloop hdone =>
    rw [hsub] at hfull
    exact { hs with
      pool := hi.drop hloop
      agrees := rfl
      full := hfull
      seeks := fun _ => rfl }
  | failed hsub hheld hdone =>
    have hunset := hs.sendDone (by rw [hheld]; simp)
    rw [hunset, Bool.or_false] at hdone
    have hseeks := hs.seeks hdone
    rw [hheld] at hseeks
    cases hseeks
  | @pool pool hsub hloop hheld hpool =>
    rw [hsub] at hagrees
    obtain ⟨hnext, hfin, hseeks⟩ := Pool.subStep_inside hloop hagrees.1 hpool
    have hreap := Pool.subStep_reap hpool
    refine ⟨⟨all, hi.subStep hpool⟩, ?_, hs.full, fun h => hseeks (hs.seeks h), ?_, ?_⟩
    · rw [hsub]
      exact ⟨hnext, hfin⟩
    · show pool.reap = .done → pool.reapDone = true
      rw [hreap.1, hreap.2]
      exact hs.reapDone
    · show tip.reclaimSet = true → pool.reap = .done
      rw [hreap.1]
      exact hs.reclaimSet
  | rewind hsub =>
    rw [hsub] at hagrees hfull
    exact { hs with pool := hi.reload hagrees _, agrees := hagrees, full := hfull }
  | finish hsub =>
    rw [hsub] at hagrees hfull
    obtain ⟨all', hi'⟩ := hi.reload hagrees []
    have hstep : Pool.subStep { tip.pool with bunches := [] } =
        some { tip.pool with bunches := [], sendDone := true, sub := .finished } := by
      simp only [Pool.subStep, show tip.pool.sub = .next from hagrees]
    exact { hs with
      pool := ⟨all', hi'.subStep hstep⟩
      agrees := rfl
      full := hfull
      seeks := fun _ => rfl }

theorem Sound.setSub {N : ℕ} {signal : Bool} {tip : Tip α} (hs : Sound N signal tip) {sub : SubAt}
    (hagrees : sub.Agrees tip.pool.sub)
    (hfull : sub.left = true ∨ signal = true → tip.begun.length + sub.waiting = N) :
    Sound N signal { tip with sub := sub } :=
  { hs with agrees := hagrees, full := hfull }

theorem Sound.reap {N : ℕ} {signal : Bool} {tip : Tip α} {events : List ℕ} {pool : Pool.State α}
    (hs : Sound N signal tip) (h : Pool.reapStep events tip.pool = some pool) :
    Sound N signal { tip with pool := pool } := by
  obtain ⟨all, hi⟩ := hs.pool
  have hsub := Pool.reapStep_sub h
  refine ⟨⟨all, hi.reapStep h⟩, ?_, hs.full, ?_, Pool.reapStep_done h, fun hset => ?_⟩
  · show tip.sub.Agrees pool.sub
    rw [hsub]
    exact hs.agrees
  · show signal = true → pool.sub.seeks = false
    rw [hsub]
    exact hs.seeks
  · have hdone := hs.reclaimSet hset
    simp [Pool.reapStep, hdone] at h

theorem Sound.awake {N : ℕ} {signal : Bool} {tip : Tip α} (hs : Sound N signal tip) :
    Sound N signal tip.awake := by
  have hagrees := hs.agrees
  have hfull := hs.full
  rcases tip.awake_eq with h | ⟨hsub, h⟩ <;> rw [h]
  · exact hs
  · rw [hsub] at hagrees hfull
    exact hs.setSub hagrees hfull

/-- `tip_release` finds what it asserts. -/
theorem Sound.releasable {N : ℕ} {signal : Bool} {tip : Tip α} (hs : Sound N signal tip)
    (hset : tip.reclaimSet = true) : State.releasable tip = true := by
  obtain ⟨all, hi⟩ := hs.pool
  have hdone := hs.reclaimSet hset
  have hreap := hi.reapOk
  have hout := hi.naiosOut
  have hfree := hi.naiosFree
  have hplaces := hi.length_places
  have hused := hi.used.length_eq
  rw [hdone] at hreap hout hfree hplaces hused
  have hsub : tip.pool.sub = .finished := by
    have hfin := hi.sendDone
    rw [hreap.1] at hfin
    cases hp : tip.pool.sub <;> rw [hp] at hfin <;> first | rfl | cases hfin
  rw [hsub] at hout hfree hplaces hused
  simp only [SubPc.uncounted, SubPc.taken, SubPc.mapped, ReapPc.collected, ReapPc.moved, hreap.2,
    List.length_nil, List.append_nil, List.nil_append] at hout hfree hplaces hused
  simp only [State.releasable, hreap.1, hs.reapDone hdone, Bool.and_self, Bool.true_and,
    Bool.and_eq_true, decide_eq_true_iff]
  omega

/-! ## Gentle runs -/

/-- A signal comes when every submitter is in its last pass, or out of the loop, and none of them in
`nfree_current`. -/
def Gentle (s : State n α) (a : Act n) : Prop :=
  a = .signal → ∀ j, ((s.tips j).sub.left = true ∨ (s.tips j).iterations ≤ 0) ∧
    (s.tips j).pool.sub.seeks = false

structure Sane (s : State n α) : Prop where
  counts : Counts s
  sound : ∀ j, Sound s.defIterations s.signalDone (s.tips j)
  aborted : s.aborted = false

theorem sane_init (defIterations : ℕ) (files : Fin n → List (Bunch α)) :
    Sane (init defIterations files) where
  counts := counts_init defIterations files
  sound j :=
    { pool := ⟨_, Pool.inv_init (files j)⟩
      agrees := rfl
      full := by rintro (h | h) <;> cases h
      seeks := nofun
      reapDone := nofun
      reclaimSet := nofun }
  aborted := rfl

theorem Sane.subStep {s s' : State n α} {j : Fin n} (hs : Sane s) (h : s.subStep j = some s') :
    Sane s' := by
  obtain ⟨hc, hsame⟩ := hs.counts.subStep h
  have haborted : s'.aborted = false := hsame.trans hs.aborted
  have hp := hs.counts.passes j
  have hsound := hs.sound j
  have hagrees := hsound.agrees
  have hfull := hsound.full
  refine ⟨hc, ?_, haborted⟩
  rcases State.subStep_cases h with ⟨tip, rfl, hquiet⟩ | ⟨hsub, rfl⟩ | ⟨hsub, hne, rfl⟩ | ⟨hsub, rfl⟩ |
    ⟨hsub, rfl⟩
  · exact State.forall_setTip hs.sound j (hsound.quiet hp hquiet)
  all_goals rw [hsub] at hagrees hfull
  · exact State.forall_setTip hs.sound j (hsound.setSub hagrees hfull)
  · refine State.forall_setTip hs.sound j { hsound with agrees := hagrees, full := fun h => ?_ }
    have heq := hfull h
    simp only [SubAt.waiting, List.length_append, List.length_singleton] at heq ⊢
    omega
  · exact State.forall_setTip hs.sound j { hsound with agrees := hagrees, full := hfull }
  · exact State.forall_setTip hs.sound j (hsound.setSub hagrees hfull)

theorem Sane.reapStep {s s' : State n α} {j : Fin n} {events : List ℕ} (hs : Sane s)
    (h : s.reapStep j events = some s') : Sane s' := by
  obtain ⟨hc, hsame⟩ := hs.counts.reapStep h
  refine ⟨hc, ?_, hsame.trans hs.aborted⟩
  rcases State.reapStep_cases h with ⟨pool, hpool, rfl⟩ | ⟨hdone, hset, rfl⟩
  · exact State.forall_setTip hs.sound j ((hs.sound j).reap hpool)
  · exact State.forall_setTip hs.sound j { hs.sound j with reclaimSet := fun _ => hdone }

/-- What `main` does at the counters is none of the files' business. -/
theorem Sane.frame {s s' : State n α} (hs : Sane s) (hc : Counts s') (htips : s'.tips = s.tips)
    (hN : s'.defIterations = s.defIterations) (hsignal : s'.signalDone = s.signalDone)
    (haborted : s'.aborted = s.aborted) : Sane s' where
  counts := hc
  sound j := by
    rw [htips, hN, hsignal]
    exact hs.sound j
  aborted := haborted.trans hs.aborted

theorem Sane.mainStep {s s' : State n α} (hs : Sane s) (h : s.mainStep = some s') : Sane s' := by
  have hc := hs.counts.mainStep h
  unfold State.mainStep at h
  split at h
  case h_9 => cases h
  all_goals
    rw [Option.some.injEq] at h
    subst h
  case h_1 => exact hs.frame hc rfl rfl rfl rfl
  case h_7 hmain =>
    have hzero : decide (s.iterStart = 0) = true := decide_eq_true (hs.counts.iterStart_eq_zero hmain)
    refine ⟨hc, fun j => (hs.sound j).awake, ?_⟩
    exact (State.aborted_assert _ hzero).trans hs.aborted
  case h_8 hmain =>
    refine hs.frame hc rfl rfl rfl (State.aborted_assert _ (decide_eq_true fun j => ?_))
    refine (hs.sound j).releasable ?_
    have hraised := hs.counts.raised_all (show Cv.reclaimsDone ≠ .itersDone by simp)
      (by rw [hmain]; rfl) j
    by_contra hset
    simp [Tip.raised, hset] at hraised
  all_goals
    first
      | unfold State.waitCv at hc ⊢
      | skip
    split at hc
    case isTrue hcond =>
      rw [if_pos hcond]
      exact hs.frame hc rfl rfl rfl rfl
    case isFalse hcond =>
      rw [if_neg hcond]
      exact hs.frame hc rfl rfl rfl rfl

/-- **A step that is gentle.** -/
theorem Sane.step {s s' : State n α} {a : Act n} (hs : Sane s) (hok : Gentle s a)
    (h : s.step a = some s') : Sane s' := by
  cases a with
  | main => exact hs.mainStep h
  | sub j => exact hs.subStep h
  | reap j events => exact hs.reapStep h
  | signal =>
    cases h
    refine ⟨{ hs.counts with }, fun j => ?_, hs.aborted⟩
    obtain ⟨hlast, hseeks⟩ := hok rfl j
    refine { hs.sound j with full := fun _ => ?_, seeks := fun _ => hseeks }
    cases hleft : (s.tips j).sub.left with
    | true => exact (hs.sound j).full (.inl hleft)
    | false =>
      have hiter := (hs.counts.passes j).iterations hleft
      have hle := (hs.counts.passes j).le
      rw [hleft] at hlast
      have hnone := hlast.resolve_left (by simp)
      show (s.tips j).begun.length + (s.tips j).sub.waiting = s.defIterations
      omega

theorem Reached.sane {ok : State n α → Act n → Prop} (himp : ∀ s a, ok s a → Gentle s a)
    {s₀ s : State n α} (h : Reached ok s₀ s) (hs : Sane s₀) : Sane s := by
  induction h with
  | init => exact hs
  | step a _ hok hstep ih => exact ih.step (himp _ _ hok) hstep

/-! ## The end of a run -/

/-- `main` is asleep in `wait_iters_done`, and there is nobody to wake it. -/
def State.Stuck (s : State n α) : Prop :=
  s.main = .wait .itersDone true ∧ ∀ j, (s.tips j).sub = .returned

/-- No assertion has failed, and `main` does not wait for nobody. -/
structure Clean (s : State n α) : Prop where
  aborted : s.aborted = false
  pools : ∀ j, (s.tips j).pool.sub ≠ .failed ∧ (s.tips j).pool.reap ≠ .failed
  main : ¬s.Stuck

theorem Sane.clean {s : State n α} (hs : Sane s) : Clean s where
  aborted := hs.aborted
  pools j := by
    obtain ⟨all, hi⟩ := (hs.sound j).pool
    exact ⟨hi.poolOk.sub_ok, hi.poolOk.reap_ok⟩
  main := by
    rintro ⟨hmain, hreturned⟩
    have hall : ∀ j, (s.tips j).ended.length = s.defIterations := by
      intro j
      have hfull := (hs.sound j).full (.inl (by rw [hreturned j]; rfl))
      have hbegun := (hs.counts.passes j).begun
      rw [hreturned j] at hfull hbegun
      simp only [SubAt.waiting, SubAt.inPass] at hfull hbegun
      omega
    have hended := hs.counts.ended
    have hasleep := hs.counts.asleep _ hmain
    have hlt := hs.counts.lt (.inr (by rw [hmain]; rfl))
    simp only [hall, Finset.sum_const, Finset.card_univ, Fintype.card_fin, smul_eq_mul] at hended
    have hround : n * s.i + n ≤ n * s.defIterations := by
      rw [← Nat.mul_succ]
      exact Nat.mul_le_mul_left n hlt
    omega

/-! ## A signal that is not gentle -/

/-- Whatever happens. -/
def Any (_ : State n α) (_ : Act n) : Prop := True

/-- A submitter in `nfree_current` has no AIO to map. -/
theorem fails_of_held {s : State n α} {j : Fin n} (hsignal : s.signalDone = true)
    (hsub : (s.tips j).sub = .bunch) (hheld : (s.tips j).pool.sub = .nfreeHeld) :
    ∃ t, Reached Any s t ∧ (t.tips j).pool.sub = .failed := by
  have hstep : s.step (.sub j) = some (s.setTip j
      { s.tips j with pool := { (s.tips j).pool with mutex := none, sub := .failed } }) := by
    simp only [State.step, State.subStep, hsub, State.bunchStep, hheld, State.isSendDone, hsignal,
      Bool.true_or, if_true, Option.map_some]
    rfl
  refine ⟨_, .step _ .init trivial hstep, ?_⟩
  rw [State.setTip_tips_self]

theorem fails_of_free {s : State n α} {j : Fin n} (hsignal : s.signalDone = true)
    (hsub : (s.tips j).sub = .bunch)
    (hseeks : (s.tips j).pool.sub = .nfree ∨ (s.tips j).pool.sub = .nfreeWait)
    (hmutex : (s.tips j).pool.mutex = none) :
    ∃ t, Reached Any s t ∧ (t.tips j).pool.sub = .failed := by
  have hstep : s.step (.sub j) = some (s.setTip j
      { s.tips j with pool := { (s.tips j).pool with mutex := some .sub, sub := .nfreeHeld } }) := by
    rcases hseeks with hfree | hwait
    · simp only [State.step, State.subStep, hsub, State.bunchStep, hfree, Pool.subStep, hmutex,
        if_true, Option.map_some]
    · simp only [State.step, State.subStep, hsub, State.bunchStep, hwait, Pool.subStep, hmutex,
        if_true, Option.map_some]
  obtain ⟨t, hrun, ht⟩ := fails_of_held (j := j) (s := s.setTip j
    { s.tips j with pool := { (s.tips j).pool with mutex := some .sub, sub := .nfreeHeld } })
    hsignal (by rw [State.setTip_tips_self]; exact hsub) (by rw [State.setTip_tips_self])
  exact ⟨t, Reached.trans (.step _ .init trivial hstep) hrun, ht⟩

theorem step_reap {s : State n α} {j : Fin n} {events : List ℕ} {pool : Pool.State α}
    (hpool : Pool.reapStep events (s.tips j).pool = some pool) :
    s.step (.reap j events) = some (s.setTip j { s.tips j with pool := pool }) := by
  simp only [State.step, State.reapStep]
  split
  case h_1 hdone => simp [Pool.reapStep, hdone] at hpool
  case h_2 => rw [hpool, Option.map_some]

/-- The reclaimer gives the mutex back: with it, it moves what it has, and waits for nothing. -/
theorem fails_of_moving (left : List ℕ) {s : State n α} {j : Fin n} {naiosOut : ℤ}
    {moved : List ℕ} (hsignal : s.signalDone = true) (hsub : (s.tips j).sub = .bunch)
    (hseeks : (s.tips j).pool.sub = .nfree ∨ (s.tips j).pool.sub = .nfreeWait)
    (hreap : (s.tips j).pool.reap = .moving naiosOut left moved) :
    ∃ t, Reached Any s t ∧ (t.tips j).pool.sub = .failed := by
  induction left generalizing s moved with
  | nil =>
    obtain ⟨pool, hpool, hfree⟩ : ∃ pool, Pool.reapStep [] (s.tips j).pool = some pool ∧
        pool.mutex = none := by simp [Pool.reapStep, hreap]
    have hsame := Pool.reapStep_sub hpool
    obtain ⟨t, hrun, ht⟩ := fails_of_free (j := j) (s := s.setTip j { s.tips j with pool := pool })
      hsignal (by rw [State.setTip_tips_self]; exact hsub)
      (by rw [State.setTip_tips_self, hsame]; exact hseeks) (by rw [State.setTip_tips_self]; exact hfree)
    exact ⟨t, Reached.trans (.step _ .init trivial (step_reap hpool)) hrun, ht⟩
  | cons x left ih =>
    obtain ⟨pool, hpool, hmoving⟩ : ∃ pool, Pool.reapStep [] (s.tips j).pool = some pool ∧
        pool.reap = .moving naiosOut left (moved ++ [x]) := by simp [Pool.reapStep, hreap]
    have hsame := Pool.reapStep_sub hpool
    obtain ⟨t, hrun, ht⟩ := ih (s := s.setTip j { s.tips j with pool := pool }) hsignal
      (by rw [State.setTip_tips_self]; exact hsub)
      (by rw [State.setTip_tips_self, hsame]; exact hseeks)
      (by rw [State.setTip_tips_self]; exact hmoving)
    exact ⟨t, Reached.trans (.step _ .init trivial (step_reap hpool)) hrun, ht⟩

/-- **A submitter that the signal meets in `nfree_current`** can fail its assertion. -/
theorem fails_of_seeks {s : State n α} {j : Fin n} (hsignal : s.signalDone = true)
    (hsub : (s.tips j).sub = .bunch) (hseeks : (s.tips j).pool.sub.seeks = true)
    (hi : ∃ all, Pool.Inv all (s.tips j).pool) :
    ∃ t, Reached Any s t ∧ (t.tips j).pool.sub = .failed := by
  obtain ⟨all, hi⟩ := hi
  by_cases hheld : (s.tips j).pool.sub = .nfreeHeld
  · exact fails_of_held hsignal hsub hheld
  have hat : (s.tips j).pool.sub = .nfree ∨ (s.tips j).pool.sub = .nfreeWait := by
    cases hp : (s.tips j).pool.sub with
    | nfree => exact .inl rfl
    | nfreeWait => exact .inr rfl
    | nfreeHeld => exact absurd hp hheld
    | _ =>
      rw [hp] at hseeks
      cases hseeks
  cases hmutex : (s.tips j).pool.mutex with
  | none => exact fails_of_free hsignal hsub hat hmutex
  | some thread =>
    cases thread with
    | sub =>
      have hholds := hi.subMutex.mp hmutex
      rcases hat with h | h <;> rw [h] at hholds <;> cases hholds
    | reap =>
      have hholds := hi.reapMutex.mp hmutex
      cases hreap : (s.tips j).pool.reap with
      | moving naiosOut left moved => exact fails_of_moving left hsignal hsub hat hreap
      | held =>
        obtain ⟨pool, hpool, hfree⟩ : ∃ pool, Pool.reapStep [] (s.tips j).pool = some pool ∧
            pool.mutex = none := by
          simp only [Pool.reapStep, hreap]
          split <;> exact ⟨_, rfl, rfl⟩
        have hsame := Pool.reapStep_sub hpool
        obtain ⟨t, hrun, ht⟩ := fails_of_free (j := j)
          (s := s.setTip j { s.tips j with pool := pool }) hsignal
          (by rw [State.setTip_tips_self]; exact hsub)
          (by rw [State.setTip_tips_self, hsame]; exact hat)
          (by rw [State.setTip_tips_self]; exact hfree)
        exact ⟨t, Reached.trans (.step _ .init trivial (step_reap hpool)) hrun, ht⟩
      | _ =>
        rw [hreap] at hholds
        cases hholds

/-- Passes are missing, and nobody will make them. -/
structure Short (s : State n α) (j : Fin n) : Prop where
  signal : s.signalDone = true
  short : (s.tips j).begun.length + (s.tips j).sub.waiting < s.defIterations

theorem Short.lt {s : State n α} {j : Fin n} (hs : Short s j) (hc : Counts s) :
    s.i < s.defIterations := by
  have hended := hc.ended
  have hshort := hs.short
  have hle : ∀ k, (s.tips k).ended.length ≤ s.defIterations := by
    intro k
    have hbegun := (hc.passes k).begun
    have hle := (hc.passes k).le
    omega
  have hlt : ∑ k, (s.tips k).ended.length < ∑ _k : Fin n, s.defIterations := by
    refine Finset.sum_lt_sum (fun k _ => hle k) ⟨j, Finset.mem_univ j, ?_⟩
    have hbegun := (hc.passes j).begun
    omega
  simp only [Finset.sum_const, Finset.card_univ, Fintype.card_fin, smul_eq_mul] at hlt
  exact Nat.lt_of_mul_lt_mul_left (a := n) (by omega)

/-- A tip keeps what it has, or takes a token for what it waits for. -/
theorem Quiet.due {tip tip' : Tip α} (h : Quiet true tip tip') :
    tip'.begun.length + tip'.sub.waiting = tip.begun.length + tip.sub.waiting := by
  have hbegun := h.same.begun
  cases h with
  | enter hsub hdone hleft => cases hdone
  | last hsub hdone hleft => cases hdone
  | _ => simp_all [SubAt.waiting]

theorem Tip.awake_waiting (tip : Tip α) : tip.awake.sub.waiting = tip.sub.waiting := by
  rcases tip.awake_eq with h | ⟨hsub, h⟩ <;> rw [h]
  rw [hsub]
  rfl

theorem State.mainStep_tips {s s' : State n α} (h : s.mainStep = some s') :
    (s'.tips = s.tips ∨ s'.tips = fun j => (s.tips j).awake) ∧ s'.signalDone = s.signalDone ∧
      s'.defIterations = s.defIterations := by
  unfold State.mainStep State.waitCv at h
  split at h
  case h_7 =>
    cases h
    exact ⟨.inr rfl, rfl, rfl⟩
  all_goals (repeat' split at h)
  all_goals cases h
  all_goals exact ⟨.inl rfl, rfl, rfl⟩

/-- Nor does any other step help. -/
theorem Short.step {s s' : State n α} {a : Act n} {j : Fin n} (hs : Short s j)
    (h : s.step a = some s') : Short s' j := by
  -- what it has and waits for stays as it is, on every file
  have htip : ∀ (k : Fin n) {tip : Tip α}, s'.tips = (s.setTip k tip).tips →
      tip.begun.length + tip.sub.waiting = (s.tips k).begun.length + (s.tips k).sub.waiting →
      (s'.tips j).begun.length + (s'.tips j).sub.waiting =
        (s.tips j).begun.length + (s.tips j).sub.waiting := by
    intro k tip htips heq
    rw [htips]
    by_cases hk : j = k
    · subst hk
      rw [State.setTip_tips_self]
      exact heq
    · rw [State.setTip_tips_of_ne s hk]
  have hsame : s'.signalDone = true ∧ s'.defIterations = s.defIterations ∧
      (s'.tips j).begun.length + (s'.tips j).sub.waiting =
        (s.tips j).begun.length + (s.tips j).sub.waiting := by
    cases a with
    | main =>
      obtain ⟨htips | htips, hsignal, hN⟩ := State.mainStep_tips h
      · exact ⟨hsignal.trans hs.signal, hN, by rw [htips]⟩
      · refine ⟨hsignal.trans hs.signal, hN, ?_⟩
        rw [htips]
        dsimp only
        rw [Tip.awake_begun, Tip.awake_waiting]
    | sub k =>
      rcases State.subStep_cases h with ⟨tip, rfl, hquiet⟩ | ⟨hsub, rfl⟩ | ⟨hsub, -, rfl⟩ |
        ⟨hsub, rfl⟩ | ⟨hsub, rfl⟩
      · refine ⟨hs.signal, rfl, htip k rfl ?_⟩
        rw [hs.signal] at hquiet
        exact hquiet.due
      all_goals
        refine ⟨hs.signal, rfl, htip k rfl ?_⟩
        simp [hsub, SubAt.waiting]
    | reap k events =>
      rcases State.reapStep_cases h with ⟨pool, -, rfl⟩ | ⟨-, -, rfl⟩
      · exact ⟨hs.signal, rfl, htip k rfl rfl⟩
      · exact ⟨hs.signal, rfl, htip k rfl rfl⟩
    | signal =>
      cases h
      exact ⟨rfl, rfl, rfl⟩
  refine ⟨hsame.1, ?_⟩
  rw [hsame.2.1, hsame.2.2]
  exact hs.short

/-- **`main` never gets out of the loop.** -/
theorem Short.loops {s t : State n α} {j : Fin n} (hs : Short s j) (hc : Counts s)
    (h : Reached Any s t) : t.main.loops = true := by
  have hrun : Short t j ∧ Counts t := by
    induction h with
    | init => exact ⟨hs, hc⟩
    | step a _ _ hstep ih => exact ⟨ih.1.step hstep, ih.2.step hstep⟩
  exact hrun.2.out.resolve_right (Nat.ne_of_lt (hrun.1.lt hrun.2))

/-- **What a signal does.** Gentle, it stops the program cleanly. Otherwise `process_bunch` can come to
map 0 packets, or `main` waits for an iteration that is never done. -/
theorem signal_stops (defIterations : ℕ) (files : Fin n → List (Bunch α)) :
    (∀ s, Reached Gentle (init defIterations files) s → Clean s) ∧
      ∀ s s', Reached Gentle (init defIterations files) s → ¬Gentle s .signal →
        s.step .signal = some s' →
        (∃ t, Reached Any s' t ∧ ∃ j, (t.tips j).pool.sub = .failed) ∨
          ∀ t, Reached Any s' t → t.main.loops = true := by
  have hinit := sane_init defIterations files
  refine ⟨fun s h => (h.sane (fun _ _ => id) hinit).clean, fun s s' h hnot hstep => ?_⟩
  have hsane := h.sane (fun _ _ => id) hinit
  cases hstep
  simp only [Gentle, forall_const, not_forall, not_and, Bool.not_eq_false] at hnot
  obtain ⟨j, hj⟩ := hnot
  by_cases hlast : (s.tips j).sub.left = true ∨ (s.tips j).iterations ≤ 0
  · have hseeks := hj hlast
    have hagrees := (hsane.sound j).agrees
    have hsub : (s.tips j).sub = .bunch := by
      cases hat : (s.tips j).sub with
      | bunch => rfl
      | _ =>
        rw [hat] at hagrees
        rw [show (s.tips j).pool.sub = _ from hagrees] at hseeks
        cases hseeks
    obtain ⟨t, hrun, ht⟩ := fails_of_seeks (j := j) (s := { s with signalDone := true }) rfl hsub
      hseeks (hsane.sound j).pool
    exact .inl ⟨t, hrun, j, ht⟩
  · simp only [not_or, Bool.not_eq_true, not_le] at hlast
    have hiter := (hsane.counts.passes j).iterations hlast.1
    have hshort : Short { s with signalDone := true } j := by
      refine ⟨rfl, ?_⟩
      show (s.tips j).begun.length + (s.tips j).sub.waiting < s.defIterations
      omega
    exact .inr fun t ht => hshort.loops { hsane.counts with } ht

instance (s : State n α) : Decidable s.Stuck :=
  inferInstanceAs (Decidable (s.main = .wait .itersDone true ∧ ∀ j, (s.tips j).sub = .returned))

/-- One file of one bunch of one packet. -/
def onePacket : Fin 1 → List (Bunch ℕ) := fun _ => [.single 7]

/-- The signal between the `while` of `process_bunch` and `nfree_current`. -/
def signalInBunch : List (Act 1) :=
  [.sub 0, .main, .main, .main] ++ List.replicate 4 (.sub 0) ++ [.signal, .sub 0, .sub 0]

/-- The signal before the submitter comes to its first pass. -/
def signalEarly : List (Act 1) :=
  [.sub 0, .signal] ++ List.replicate 3 (.sub 0) ++ List.replicate 4 .main

/-- The assertion of `process_bunch` fails; and `main` waits for a thread that has returned. -/
theorem not_clean_after_signal :
    (∃ s, Reached Any (init 1 onePacket) s ∧ (s.tips 0).pool.sub = .failed) ∧
      ∃ s, Reached Any (init 1 onePacket) s ∧ s.Stuck := by
  have hbunch : ((init 1 onePacket).run signalInBunch).map
      (fun s => decide ((s.tips 0).pool.sub = .failed)) = some true := by decide +kernel
  have hearly : ((init 1 onePacket).run signalEarly).map (fun s => decide s.Stuck) =
      some true := by decide +kernel
  obtain ⟨s, hs, hfailed⟩ := Option.map_eq_some_iff.mp hbunch
  obtain ⟨t, ht, hstuck⟩ := Option.map_eq_some_iff.mp hearly
  exact ⟨⟨s, Reached.run .init (fun _ _ _ => trivial) hs, of_decide_eq_true hfailed⟩,
    ⟨t, Reached.run .init (fun _ _ _ => trivial) ht, of_decide_eq_true hstuck⟩⟩

end Program

end Blktrace.Btreplay
