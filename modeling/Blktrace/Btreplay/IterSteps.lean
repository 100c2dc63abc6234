import Blktrace.Btreplay.Iterations

/-!
# What a step of the program can do

A submitter's step is `Quiet`, with nothing but its own file changed, or it goes through one of
the four places where the threads meet: `set_replay_ready`, a token of `iter_start`,
`set_iter_done` and `set_replay_done`.
-/

namespace Blktrace.Btreplay.Program

variable {n : ℕ} {α : Type*}

/-- A step of a submitter that the others do not see. -/
inductive Quiet (signal : Bool) (tip : Tip α) : Tip α → Prop
  | quit (h : tip.sub = .test) (hdone : (signal || tip.pool.sendDone) = true) :
    Quiet signal tip { tip with sub := .leave }
  | enter (h : tip.sub = .test) (hdone : (signal || tip.pool.sendDone) = false)
    (hleft : tip.iterations ≠ 0) :
    Quiet signal tip { tip with iterations := tip.iterations - 1, sub := .start false }
  | last (h : tip.sub = .test) (hdone : (signal || tip.pool.sendDone) = false)
    (hleft : tip.iterations = 0) :
    Quiet signal tip { tip with iterations := tip.iterations - 1, sub := .leave }
  | sleep (asleep asleep' : Bool) (h : tip.sub = .start asleep) :
    Quiet signal tip { tip with sub := .start asleep' }
  | passed (h : tip.sub = .inner)
    (hdone : (signal || tip.pool.sendDone || tip.pool.bunches.isEmpty) = true) :
    Quiet signal tip { tip with sub := .iterDone }
  | bunch {pool : Pool.State α} (h : tip.sub = .inner)
    (hdone : (signal || tip.pool.sendDone || tip.pool.bunches.isEmpty) = false)
    (hpool : Pool.subStep tip.pool = some pool) :
    Quiet signal tip { tip with sub := .bunch, pool := pool }
  | seek (h : tip.sub = .bunch) (hloop : tip.pool.sub = .loop)
    (hdone : (signal || tip.pool.sendDone || tip.pool.pkts.isEmpty) = false) :
    Quiet signal tip { tip with pool := { tip.pool with sub := .nfree } }
  | endBunch (h : tip.sub = .bunch) (hloop : tip.pool.sub = .loop)
    (hdone : (signal || tip.pool.sendDone || tip.pool.pkts.isEmpty) = true) :
    Quiet signal tip
      { tip with sub := .inner, pool := { tip.pool with pkts := [], sub := .next } }
  | failed (h : tip.sub = .bunch) (hheld : tip.pool.sub = .nfreeHeld)
    (hdone : (signal || tip.pool.sendDone) = true) :
    Quiet signal tip { tip with pool := { tip.pool with mutex := none, sub := .failed } }
  | pool {pool : Pool.State α} (h : tip.sub = .bunch) (hloop : tip.pool.sub ≠ .loop)
    (hheld : tip.pool.sub = .nfreeHeld → (signal || tip.pool.sendDone) = false)
    (hpool : Pool.subStep tip.pool = some pool) : Quiet signal tip { tip with pool := pool }
  | rewind (h : tip.sub = .reset) :
    Quiet signal tip { tip with sub := .test, pool := { tip.pool with bunches := tip.file } }
  | finish (h : tip.sub = .leave) :
    Quiet signal tip
      { tip with
        sub := .replayDone
        pool := { tip.pool with bunches := [], sendDone := true, sub := .finished } }

namespace State

theorem bunchStep_quiet {s : State n α} {tip tip' : Tip α} (hsub : tip.sub = .bunch)
    (h : s.bunchStep tip = some tip') : Quiet s.signalDone tip tip' := by
  have hpool : tip.pool.sub ≠ .loop →
      (tip.pool.sub = .nfreeHeld → (s.signalDone || tip.pool.sendDone) = false) →
      (Pool.subStep tip.pool).map (fun pool => { tip with pool := pool }) = some tip' →
      Quiet s.signalDone tip tip' := by
    intro hloop hheld hmap
    obtain ⟨pool, hstep, rfl⟩ := Option.map_eq_some_iff.mp hmap
    exact .pool hsub hloop hheld hstep
  unfold bunchStep at h
  split at h
  case h_1 hloop =>
    rw [Option.some.injEq] at h
    subst h
    split
    case isTrue hdone => exact .endBunch hsub hloop hdone
    case isFalse hdone => exact .seek hsub hloop (Bool.not_eq_true _ ▸ hdone)
  case h_2 hheld =>
    split at h
    case isTrue hdone =>
      rw [Option.some.injEq] at h
      subst h
      exact .failed hsub hheld hdone
    case isFalse hdone =>
      exact hpool (by rw [hheld]; nofun) (fun _ => Bool.not_eq_true _ ▸ hdone) h
  case h_3 hloop hheld => exact hpool hloop (fun hc => absurd hc hheld) h

/-- **What a submitter's step can do.** -/
theorem subStep_cases {s s' : State n α} {j : Fin n} (h : s.subStep j = some s') :
    (∃ tip, s' = s.setTip j tip ∧ Quiet s.signalDone (s.tips j) tip) ∨
    ((s.tips j).sub = .ready ∧
      s' = setReplayReady (s.setTip j { s.tips j with sub := .test })) ∨
    ((s.tips j).sub = .start false ∧ s.iterStart ≠ 0 ∧
      s' = assert (1 ≤ s.iterStart && s.iterStart ≤ n)
        { s.setTip j { s.tips j with sub := .inner, begun := (s.tips j).begun ++ [s.starts] } with
          iterStart := s.iterStart - 1 }) ∨
    ((s.tips j).sub = .iterDone ∧
      s' = setIterDone
        (s.setTip j { s.tips j with sub := .reset, ended := (s.tips j).ended ++ [s.starts] })) ∨
    ((s.tips j).sub = .replayDone ∧
      s' = setReplayDone (s.setTip j { s.tips j with sub := .returned })) := by
  unfold subStep at h
  dsimp only at h
  split at h
  case h_1 hsub =>
    exact .inr (.inl ⟨hsub, (Option.some.inj h).symm⟩)
  case h_2 hsub =>
    refine .inl ⟨_, (Option.some.inj h).symm, ?_⟩
    split
    case isTrue hdone => exact .quit hsub hdone
    case isFalse hdone =>
      rw [Bool.not_eq_true] at hdone
      by_cases hleft : (s.tips j).iterations = 0
      · simp only [hleft, ne_eq, not_true_eq_false, if_false]
        have hlast := Quiet.last hsub hdone hleft
        rwa [hleft] at hlast
      · simp only [ne_eq, hleft, not_false_eq_true, if_true]
        exact .enter hsub hdone hleft
  case h_3 hsub => exact .inl ⟨_, (Option.some.inj h).symm, .sleep true false hsub⟩
  case h_4 hsub =>
    rw [Option.some.injEq] at h
    subst h
    unfold waitIterStart
    dsimp only
    split
    case isTrue => exact .inl ⟨_, rfl, .sleep false true hsub⟩
    case isFalse hne => exact .inr (.inr (.inl ⟨hsub, hne, rfl⟩))
  case h_5 hsub =>
    split at h
    case isTrue hdone => exact .inl ⟨_, (Option.some.inj h).symm, .passed hsub hdone⟩
    case isFalse hdone =>
      obtain ⟨pool, hpool, rfl⟩ := Option.map_eq_some_iff.mp h
      exact .inl ⟨_, rfl, .bunch hsub (Bool.not_eq_true _ ▸ hdone) hpool⟩
  case h_6 hsub =>
    obtain ⟨tip, htip, rfl⟩ := Option.map_eq_some_iff.mp h
    exact .inl ⟨tip, rfl, bunchStep_quiet hsub htip⟩
  case h_7 hsub => exact .inr (.inr (.inr (.inl ⟨hsub, (Option.some.inj h).symm⟩)))
  case h_8 hsub => exact .inl ⟨_, (Option.some.inj h).symm, .rewind hsub⟩
  case h_9 hsub => exact .inl ⟨_, (Option.some.inj h).symm, .finish hsub⟩
  case h_10 hsub => exact .inr (.inr (.inr (.inr ⟨hsub, (Option.some.inj h).symm⟩)))
  case h_11 => cases h

/-- What a reclaimer's step can do. -/
theorem reapStep_cases {s s' : State n α} {j : Fin n} {events : List ℕ}
    (h : s.reapStep j events = some s') :
    (∃ pool, Pool.reapStep events (s.tips j).pool = some pool ∧
      s' = s.setTip j { s.tips j with pool := pool }) ∨
    ((s.tips j).pool.reap = .done ∧ (s.tips j).reclaimSet = false ∧
      s' = setReclaimDone (s.setTip j { s.tips j with reclaimSet := true })) := by
  unfold reapStep at h
  dsimp only at h
  split at h
  case h_1 hdone =>
    split at h
    case isTrue => cases h
    case isFalse hset =>
      exact .inr ⟨hdone, Bool.not_eq_true _ ▸ hset, (Option.some.inj h).symm⟩
  case h_2 =>
    obtain ⟨pool, hpool, rfl⟩ := Option.map_eq_some_iff.mp h
    exact .inl ⟨pool, hpool, rfl⟩

/-! ## What a step leaves alone -/

@[simp]
theorem setTip_tips_self (s : State n α) (j : Fin n) (tip : Tip α) :
    (s.setTip j tip).tips j = tip := Function.update_self ..

theorem setTip_tips_of_ne (s : State n α) {j k : Fin n} (h : k ≠ j) (tip : Tip α) :
    (s.setTip j tip).tips k = s.tips k := Function.update_of_ne h ..

theorem forall_setTip {s : State n α} {P : Tip α → Prop} (h : ∀ k, P (s.tips k)) (j : Fin n)
    {tip : Tip α} (htip : P tip) (k : Fin n) : P ((s.setTip j tip).tips k) := by
  by_cases hk : k = j
  · subst hk
    rwa [setTip_tips_self]
  · rw [setTip_tips_of_ne s hk]
    exact h k

/-- A sum over the files, one of which changes. -/
theorem sum_setTip (s : State n α) (j : Fin n) (tip : Tip α) (f : Tip α → ℕ) :
    ∑ k, f ((s.setTip j tip).tips k) + f (s.tips j) = ∑ k, f (s.tips k) + f tip := by
  have hupdate : (fun k => f ((s.setTip j tip).tips k)) =
      Function.update (fun k => f (s.tips k)) j (f tip) := by
    funext k
    by_cases hk : k = j
    · subst hk
      simp
    · simp [setTip_tips_of_ne s hk, Function.update_of_ne hk]
  rw [hupdate, Finset.sum_update_of_mem (Finset.mem_univ j),
    ← Finset.add_sum_erase _ _ (Finset.mem_univ j), ← Finset.sdiff_singleton_eq_erase]
  omega

end State

end Blktrace.Btreplay.Program
