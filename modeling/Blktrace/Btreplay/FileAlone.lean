import Blktrace.Btreplay.Barrier

/-!
# A file and its two threads

Without signals, what a file's two threads do in the program is what they do in `Pool` with all the
passes over the file put one after another: the barrier only makes the submitter wait. So what is
proved of the pool holds of every file in every run.
-/

namespace Blktrace.Btreplay.Program

open Pool (allIterations)

variable {n : ℕ} {α : Type*}

/-- What a submitter has still to read, in this pass and the next ones. -/
def Tip.toRead (tip : Tip α) : List (Bunch α) :=
  match tip.sub with
  | .ready | .test => allIterations tip.iterations.toNat tip.file
  | .start _ | .inner | .bunch | .iterDone | .reset =>
    tip.pool.bunches ++ allIterations tip.iterations.toNat tip.file
  | .leave | .replayDone | .returned => []

/-- The two threads, with all that is to be read. -/
def Tip.view (tip : Tip α) : Pool.State α := { tip.pool with bunches := tip.toRead }

/-- Where the file is read to. -/
structure Opened (tip : Tip α) : Prop where
  atStart : tip.sub = .ready ∨ tip.sub = .test ∨ (∃ asleep, tip.sub = .start asleep) →
    tip.pool.bunches = tip.file
  atEnd : tip.sub = .iterDone ∨ tip.sub = .reset → tip.pool.bunches = []

theorem allIterations_succ (k : ℕ) (file : List (Bunch α)) :
    allIterations (k + 1) file = file ++ allIterations k file := by
  simp [allIterations, List.replicate_succ]

/-- What is to be read does not matter between two reads. -/
theorem subStep_bunches {s : Pool.State α} (hsub : s.sub ≠ .next) (bunches : List (Bunch α)) :
    Pool.subStep { s with bunches := bunches } =
      (Pool.subStep s).map fun s => { s with bunches := bunches } := by
  unfold Pool.subStep
  dsimp only
  split
  case h_1 h => exact absurd h hsub
  all_goals (repeat' split)
  all_goals rfl

theorem reapStep_bunches (events : List ℕ) (s : Pool.State α) (bunches : List (Bunch α)) :
    Pool.reapStep events { s with bunches := bunches } =
      (Pool.reapStep events s).map fun s => { s with bunches := bunches } := by
  unfold Pool.reapStep
  dsimp only
  split
  all_goals (repeat' split)
  all_goals rfl

/-- **A quiet step is the pool's**, or none. -/
theorem Quiet.view {N : ℕ} {tip tip' : Tip α} (h : Quiet false tip tip') (ho : Opened tip)
    (hp : Passes N tip) (hs : Sound N false tip) :
    Opened tip' ∧ (tip'.view = tip.view ∨ Pool.subStep tip.view = some tip'.view) := by
  have hagrees := hs.agrees
  have hunset : tip.pool.sub ≠ .finished → tip.pool.sendDone = false := hs.sendDone
  cases h with
  | quit hsub hdone =>
    rw [hsub] at hagrees
    rw [hunset (by rw [show tip.pool.sub = .next from hagrees]; simp)] at hdone
    cases hdone
  | enter hsub hdone hleft =>
    have hopen := ho.atStart (.inr (.inl hsub))
    have hiter := hp.iterations (by rw [hsub]; rfl)
    have hle := hp.le
    refine ⟨⟨fun _ => hopen, by simp⟩, .inl ?_⟩
    have hcount : tip.iterations.toNat = (tip.iterations - 1).toNat + 1 := by omega
    simp only [Tip.view, Tip.toRead, hsub, hopen]
    rw [hcount, allIterations_succ]
  | last hsub hdone hleft =>
    refine ⟨⟨by simp, by simp⟩, .inl ?_⟩
    simp [Tip.view, Tip.toRead, hsub, hleft, allIterations]
  | sleep asleep asleep' hsub =>
    refine ⟨⟨fun _ => ho.atStart (.inr (.inr ⟨_, hsub⟩)), by simp⟩, .inl ?_⟩
    simp only [Tip.view, Tip.toRead, hsub]
  | passed hsub hdone =>
    rw [hsub] at hagrees
    have hnone : tip.pool.bunches = [] := by
      rw [hunset (by rw [show tip.pool.sub = .next from hagrees]; simp)] at hdone
      simpa using hdone
    refine ⟨⟨by simp, fun _ => hnone⟩, .inl ?_⟩
    simp only [Tip.view, Tip.toRead, hsub]
  | @bunch pool hsub hdone hpool =>
    rw [hsub] at hagrees
    refine ⟨⟨by simp, by simp⟩, .inr ?_⟩
    have hat : tip.pool.sub = .next := hagrees
    cases hbunches : tip.pool.bunches with
    | nil => simp [hbunches] at hdone
    | cons b rest =>
      simp only [Pool.subStep, hat, hbunches, Option.some.injEq] at hpool
      subst hpool
      simp [Tip.view, Tip.toRead, hsub, hbunches, Pool.subStep, hat]
  | seek hsub hloop hdone =>
    refine ⟨⟨by simp [hsub], by simp [hsub]⟩, .inr ?_⟩
    simp only [Bool.false_or, Bool.or_eq_false_iff] at hdone
    simp only [Tip.view, Tip.toRead, hsub, Pool.subStep, hloop, hdone.2, Bool.false_eq_true, if_false]
  | endBunch hsub hloop hdone =>
    rw [hunset (by rw [hloop]; simp)] at hdone
    have hnone : tip.pool.pkts = [] := by simpa using hdone
    refine ⟨⟨by simp, by simp⟩, .inr ?_⟩
    simp [Tip.view, Tip.toRead, hsub, Pool.subStep, hloop, hnone]
  | failed hsub hheld hdone =>
    rw [hunset (by rw [hheld]; simp)] at hdone
    cases hdone
  | @pool pool hsub hloop hheld hpool =>
    rw [hsub] at hagrees
    refine ⟨⟨by simp [hsub], by simp [hsub]⟩, .inr ?_⟩
    have hsame : pool.bunches = tip.pool.bunches := by
      have hmap := subStep_bunches hagrees.1 tip.pool.bunches
      rw [show ({ tip.pool with bunches := tip.pool.bunches } : Pool.State α) = tip.pool from rfl,
        hpool, Option.map_some, Option.some.injEq] at hmap
      rw [hmap]
    simp only [Tip.view, Tip.toRead, hsub, hsame]
    rw [subStep_bunches hagrees.1, hpool, Option.map_some]
  | rewind hsub =>
    refine ⟨⟨fun _ => rfl, by simp⟩, .inl ?_⟩
    simp [Tip.view, Tip.toRead, hsub, ho.atEnd (.inr hsub)]
  | finish hsub =>
    rw [hsub] at hagrees
    refine ⟨⟨by simp, by simp⟩, .inr ?_⟩
    simp only [Tip.view, Tip.toRead, hsub, Pool.subStep, show tip.pool.sub = .next from hagrees]

/-- A file, in a run. -/
structure Alone (N : ℕ) (file : List (Bunch α)) (tip : Tip α) : Prop where
  same : tip.file = file
  opened : Opened tip
  reachable : Pool.Reachable (allIterations N file) tip.view

theorem Alone.stay {N : ℕ} {file : List (Bunch α)} {tip tip' : Tip α} (ha : Alone N file tip)
    (hfile : tip'.file = tip.file) (ho : Opened tip') (hview : tip'.view = tip.view) :
    Alone N file tip' where
  same := hfile.trans ha.same
  opened := ho
  reachable := hview ▸ ha.reachable

theorem Alone.awake {N : ℕ} {file : List (Bunch α)} {tip : Tip α} (ha : Alone N file tip) :
    Alone N file tip.awake := by
  rcases tip.awake_eq with h | ⟨hsub, h⟩ <;> rw [h]
  · exact ha
  · refine ha.stay rfl ⟨fun _ => ha.opened.atStart (.inr (.inr ⟨_, hsub⟩)), by simp⟩ ?_
    simp only [Tip.view, Tip.toRead, hsub]

theorem Alone.quiet {N : ℕ} {file : List (Bunch α)} {tip tip' : Tip α} (ha : Alone N file tip)
    (h : Quiet false tip tip') (hp : Passes N tip) (hs : Sound N false tip) : Alone N file tip' := by
  obtain ⟨ho, hview | hstep⟩ := h.view ha.opened hp hs
  · exact ha.stay h.same.file ho hview
  · exact ⟨h.same.file.trans ha.same, ho, ha.reachable.tail (.sub hstep)⟩

theorem Alone.reap {N : ℕ} {file : List (Bunch α)} {tip : Tip α} {events : List ℕ}
    {pool : Pool.State α} (ha : Alone N file tip) (h : Pool.reapStep events tip.pool = some pool) :
    Alone N file { tip with pool := pool } := by
  have hbunches : pool.bunches = tip.pool.bunches := by
    have hmap := reapStep_bunches events tip.pool tip.pool.bunches
    rw [show ({ tip.pool with bunches := tip.pool.bunches } : Pool.State α) = tip.pool from rfl,
      h, Option.map_some, Option.some.injEq] at hmap
    rw [hmap]
  refine ⟨ha.same, ⟨fun hat => ?_, fun hat => ?_⟩, ha.reachable.tail (.reap events ?_)⟩
  · exact hbunches.trans (ha.opened.atStart hat)
  · exact hbunches.trans (ha.opened.atEnd hat)
  · have htoRead : Tip.toRead { tip with pool := pool } = tip.toRead := by
      simp only [Tip.toRead, hbunches]
    simp only [Tip.view, htoRead]
    rw [reapStep_bunches, h, Option.map_some]

/-- One step of the program, at every file. -/
theorem Alone.step {N : ℕ} {files : Fin n → List (Bunch α)} {s s' : State n α} {a : Act n}
    (ha : ∀ j, Alone N (files j) (s.tips j)) (hN : s.defIterations = N) (hs : Sane s)
    (hquiet : s.signalDone = false) (hne : a ≠ .signal) (h : s.step a = some s') (j : Fin n) :
    Alone N (files j) (s'.tips j) := by
  have htip : ∀ (k : Fin n) {tip : Tip α}, Alone N (files k) tip → s'.tips = (s.setTip k tip).tips →
      Alone N (files j) (s'.tips j) := by
    intro k tip hk htips
    rw [htips]
    by_cases hj : j = k
    · subst hj
      rw [State.setTip_tips_self]
      exact hk
    · rw [State.setTip_tips_of_ne s hj]
      exact ha j
  cases a with
  | main =>
    obtain ⟨htips | htips, -, -⟩ := State.mainStep_tips h
    · rw [htips]
      exact ha j
    · rw [htips]
      exact (ha j).awake
  | signal => exact absurd rfl hne
  | reap k events =>
    rcases State.reapStep_cases h with ⟨pool, hpool, rfl⟩ | ⟨-, -, rfl⟩
    · exact htip k ((ha k).reap hpool) rfl
    · have hnext : Alone N (files k) { s.tips k with reclaimSet := true } :=
        (ha k).stay rfl ⟨(ha k).opened.atStart, (ha k).opened.atEnd⟩ rfl
      exact htip k hnext rfl
  | sub k =>
    have hopened := (ha k).opened
    have hp := hs.counts.passes k
    have hsound := hs.sound k
    rw [hN] at hp hsound
    rw [hquiet] at hsound
    rcases State.subStep_cases h with ⟨tip, rfl, hstep⟩ | ⟨hsub, rfl⟩ | ⟨hsub, -, rfl⟩ |
      ⟨hsub, rfl⟩ | ⟨hsub, rfl⟩
    · rw [hquiet] at hstep
      exact htip k ((ha k).quiet hstep hp hsound) rfl
    · have hnext : Alone N (files k) { s.tips k with sub := .test } := by
        refine (ha k).stay rfl ⟨fun _ => hopened.atStart (.inl hsub), by simp⟩ ?_
        simp only [Tip.view, Tip.toRead, hsub]
      exact htip k hnext rfl
    · have hnext : Alone N (files k)
          { s.tips k with sub := .inner, begun := (s.tips k).begun ++ [s.starts] } := by
        refine (ha k).stay rfl ⟨by simp, by simp⟩ ?_
        simp only [Tip.view, Tip.toRead, hsub]
      exact htip k hnext rfl
    · have hnext : Alone N (files k)
          { s.tips k with sub := .reset, ended := (s.tips k).ended ++ [s.starts] } := by
        refine (ha k).stay rfl ⟨by simp, fun _ => hopened.atEnd (.inl hsub)⟩ ?_
        simp only [Tip.view, Tip.toRead, hsub]
      exact htip k hnext rfl
    · have hnext : Alone N (files k) { s.tips k with sub := .returned } := by
        refine (ha k).stay rfl ⟨by simp, by simp⟩ ?_
        simp only [Tip.view, Tip.toRead, hsub]
      exact htip k hnext rfl

/-- `signal_done` and the number of iterations are nobody else's to change. -/
theorem step_same {s s' : State n α} {a : Act n} (h : s.step a = some s') (hne : a ≠ .signal) :
    s'.signalDone = s.signalDone ∧ s'.defIterations = s.defIterations := by
  cases a with
  | main => exact (State.mainStep_tips h).2
  | signal => exact absurd rfl hne
  | reap k events =>
    rcases State.reapStep_cases h with ⟨pool, -, rfl⟩ | ⟨-, -, rfl⟩ <;> exact ⟨rfl, rfl⟩
  | sub k =>
    rcases State.subStep_cases h with ⟨tip, rfl, -⟩ | ⟨-, rfl⟩ | ⟨-, -, rfl⟩ | ⟨-, rfl⟩ | ⟨-, rfl⟩ <;>
      exact ⟨rfl, rfl⟩

theorem alone_init (defIterations : ℕ) (file : List (Bunch α)) :
    Alone defIterations file
      { file := file, pool := { bunches := file }, iterations := defIterations } where
  same := rfl
  opened := ⟨fun _ => rfl, by simp⟩
  reachable := by
    simp only [Tip.view, Tip.toRead, Int.toNat_natCast]
    exact .refl

/-- **Every file in every run** without signals: its two threads are at a state of the pool. -/
theorem file_reachable {defIterations : ℕ} {files : Fin n → List (Bunch α)} {s : State n α}
    (h : Reached Quietly (init defIterations files) s) (j : Fin n) :
    Pool.Reachable (allIterations defIterations (files j)) (s.tips j).view := by
  have hrun : Sane s ∧ s.signalDone = false ∧ s.defIterations = defIterations ∧
      ∀ k, Alone defIterations (files k) (s.tips k) := by
    induction h with
    | init => exact ⟨sane_init _ _, rfl, rfl, fun k => alone_init _ _⟩
    | step a _ hok hstep ih =>
      obtain ⟨hs, hquiet, hN, ha⟩ := ih
      obtain ⟨hsignal, hsame⟩ := step_same hstep hok
      exact ⟨hs.step (fun heq => absurd heq hok) hstep, hsignal.trans hquiet, hsame.trans hN,
        Alone.step ha hN hs hquiet hok hstep⟩
  exact (hrun.2.2.2 j).reachable

end Blktrace.Btreplay.Program
