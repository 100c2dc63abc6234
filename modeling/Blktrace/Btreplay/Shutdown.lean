import Blktrace.Btreplay.PoolInv

/-!
# How the reclaimer ends

`reap_wait_aios` tests `is_reap_done` before it takes the mutex; the loop with the mutex tests
`naios_out` alone, and `replay_sub` sets `send_done` without the mutex and without a signal. The
reclaimer leaves if it comes to the test after `send_done` is set. If it is past the test then and
nothing is outstanding, it never leaves: `Hung` has no way out.
-/

namespace Blktrace.Btreplay.Pool

variable {α : Type*}

deriving instance DecidableEq for SubPc
deriving instance DecidableEq for ReapPc

/-- The submitter is done, no AIO is outstanding, and the reclaimer waits for one. -/
def Hung (s : State α) : Prop := s.sub = .finished ∧ s.naiosOut = 0 ∧ s.reap = .wait

instance (s : State α) : Decidable (Hung s) :=
  inferInstanceAs (Decidable (s.sub = .finished ∧ s.naiosOut = 0 ∧ s.reap = .wait))

/-- Past the test of `is_reap_done`, without an AIO seen. -/
def ReapPc.waits : ReapPc → Bool
  | .lock | .held | .wait => true
  | _ => false

/-- A step that sets `send_done` does so while an AIO is outstanding, or while the reclaimer has
the test of `is_reap_done` before it. -/
def Timely (s s' : State α) : Prop :=
  s.sendDone = s'.sendDone ∨ s.naiosOut ≠ 0 ∨ s.reap.waits = false

/-- The states that timely steps lead to. -/
def TimelyReachable (bunches : List (Bunch α)) (s : State α) : Prop :=
  Relation.ReflTransGen (fun s s' => Step s s' ∧ Timely s s') { bunches := bunches } s

theorem TimelyReachable.reachable {bunches : List (Bunch α)} {s : State α}
    (h : TimelyReachable bunches s) : Reachable bunches s :=
  Relation.ReflTransGen.mono (fun _ _ hstep => hstep.1) _ _ h

/-! ## Timely runs -/

/-- What timely steps keep: once `send_done` is set, the reclaimer waits for what is there only. -/
def Leaves (s : State α) : Prop :=
  s.sendDone = true → s.naiosOut = 0 → s.reap.waits = false

/-- The submitter sets `send_done` where there is no more bunch to read, and nowhere else. -/
theorem subStep_sendDone {s s' : State α} (h : subStep s = some s') :
    (s.sub = .next ∧ s' = { s with sendDone := true, sub := .finished }) ∨
      s'.sendDone = s.sendDone := by
  unfold subStep at h
  split at h
  case h_1 hsub =>
    split at h
    case h_1 =>
      cases h
      exact .inl ⟨hsub, rfl⟩
    case h_2 =>
      cases h
      exact .inr rfl
  all_goals
    refine .inr ?_
    repeat' split at h
    all_goals cases h
    all_goals rfl

/-- A submitter that can take a step has not set it. -/
theorem Inv.sendDone_of_subStep {all : List α} {s s' : State α} (hi : Inv all s)
    (h : Pool.subStep s = some s') : s.sendDone = false := by
  rw [hi.sendDone]
  cases hsub : s.sub with
  | finished => simp [Pool.subStep, hsub] at h
  | _ => rfl

theorem Leaves.subStep {all : List α} {s s' : State α} (hi : Inv all s)
    (h : Pool.subStep s = some s') (ht : Timely s s') : Leaves s' := by
  intro hset hout
  have hunset := hi.sendDone_of_subStep h
  rcases subStep_sendDone h with ⟨-, rfl⟩ | hsame
  · rcases ht with hsame | hne | hwaits
    · rw [hunset] at hsame
      cases hsame
    · exact absurd hout hne
    · exact hwaits
  · rw [hset, hunset] at hsame
    cases hsame

theorem waits_orFailed (cond : Bool) {ok : ReapPc} (h : ok.waits = false) :
    (orFailed cond ok .failed).waits = false := by
  cases cond
  · rfl
  · exact h

/-- The reclaimer comes to the wait through the test, `send_done` unset or an AIO outstanding. -/
theorem reapStep_waits {events : List ℕ} {s s' : State α} (h : reapStep events s = some s')
    (hw : s'.reap.waits = true) :
    s'.naiosOut = s.naiosOut ∧ s'.sendDone = s.sendDone ∧
      (s.reap.waits = true ∨ s.sendDone = false ∨ s.naiosOut ≠ 0) := by
  cases hreap : s.reap with
  | check =>
    simp only [reapStep, hreap, Option.some.injEq] at h
    subst h
    refine ⟨rfl, rfl, .inr (.inl ?_)⟩
    cases hset : s.sendDone with
    | false => rfl
    | true =>
      rw [hset] at hw
      cases hw
  | checkOut =>
    simp only [reapStep, hreap, Option.some.injEq] at h
    subst h
    refine ⟨rfl, rfl, .inr (.inr fun hzero => ?_)⟩
    rw [hzero] at hw
    cases hw
  | lock =>
    simp only [reapStep, hreap] at h
    split at h <;> cases h
    exact ⟨rfl, rfl, .inl rfl⟩
  | wait =>
    simp only [reapStep, hreap] at h
    split at h <;> cases h
    exact ⟨rfl, rfl, .inl rfl⟩
  | held =>
    simp only [reapStep, hreap] at h
    split at h <;> cases h <;> exact ⟨rfl, rfl, .inl rfl⟩
  | moving n left moved =>
    exfalso
    cases left with
    | cons x left =>
      simp only [reapStep, hreap, Option.some.injEq] at h
      subst h
      cases hw
    | nil =>
      simp only [reapStep, hreap, Option.some.injEq] at h
      subst h
      dsimp only at hw
      split at hw
      case isTrue => cases hw
      case isFalse =>
        rw [waits_orFailed _ rfl] at hw
        cases hw
  | _ =>
    -- every other place is left for one that does not wait
    exfalso
    simp only [reapStep, hreap] at h
    repeat' split at h
    all_goals cases h
    all_goals first
      | cases hw
      | exact absurd hw (by rw [waits_orFailed _ rfl]; exact Bool.false_ne_true)

/-- **The reclaimer's steps.** With `send_done` set it comes to the wait only where it saw an
AIO. -/
theorem Leaves.reapStep {events : List ℕ} {s s' : State α} (hl : Leaves s)
    (h : Pool.reapStep events s = some s') : Leaves s' := by
  intro hset hout
  by_contra hw
  rw [Bool.not_eq_false] at hw
  obtain ⟨hout', hset', hwaits | hunset | hne⟩ := reapStep_waits h hw
  · rw [hl (hset' ▸ hset) (hout' ▸ hout)] at hwaits
    cases hwaits
  · rw [hset', hunset] at hset
    cases hset
  · exact hne (hout' ▸ hout)

theorem TimelyReachable.leaves {bunches : List (Bunch α)} {s : State α}
    (h : TimelyReachable bunches s) : Leaves s := by
  induction h with
  | refl => exact fun hset => by cases hset
  | tail hreach hstep ih =>
    have hi := Reachable.inv (TimelyReachable.reachable hreach)
    obtain ⟨hsub | ⟨events, hreap⟩, htimely⟩ := hstep
    · exact Leaves.subStep hi hsub htimely
    · exact ih.reapStep hreap

/-! ## Where there is no way out -/

/-- The reclaimer, alone now, goes round the loop of `reap_wait_aios`. -/
structure Lost (s : State α) : Prop where
  sub : s.sub = .finished
  naiosOut : s.naiosOut = 0
  waits : s.reap.waits = true

theorem Hung.lost {s : State α} (h : Hung s) : Lost s where
  sub := h.1
  naiosOut := h.2.1
  waits := by
    rw [h.2.2]
    rfl

theorem Lost.step {s s' : State α} (hl : Lost s) (h : Step s s') : Lost s' := by
  rcases h with h | ⟨events, h⟩
  · simp [subStep, hl.sub] at h
  · have hwaits := hl.waits
    cases hreap : s.reap with
    | lock | wait =>
      simp only [reapStep, hreap] at h
      split at h <;> cases h
      exact ⟨hl.sub, hl.naiosOut, rfl⟩
    | held =>
      simp only [reapStep, hreap, hl.naiosOut, if_true, Option.some.injEq] at h
      subst h
      exact ⟨hl.sub, rfl, rfl⟩
    | _ =>
      rw [hreap] at hwaits
      cases hwaits

/-- **It never leaves**: no run sets `reap_done` from there. -/
theorem Lost.run {s t : State α} (hl : Lost s) (h : Relation.ReflTransGen Step s t) :
    Lost t ∧ t.reap ≠ .done := by
  have ht : Lost t := by
    induction h with
    | refl => exact hl
    | tail _ hstep ih => exact ih.step hstep
  refine ⟨ht, fun hdone => ?_⟩
  have hwaits := ht.waits
  rw [hdone] at hwaits
  cases hwaits

/-- And it does come to wait. -/
theorem Lost.hung {all : List α} {s : State α} (hi : Inv all s) (hl : Lost s) :
    ∃ t, Relation.ReflTransGen Step s t ∧ Hung t := by
  have hwaits := hl.waits
  -- with the mutex it sees that nothing is outstanding
  have hheld : ∀ u : State α, u.sub = .finished → u.naiosOut = 0 → u.reap = .held →
      ∃ t, Relation.ReflTransGen Step u t ∧ Hung t := by
    intro u hsub hout hreap
    have hstep : reapStep [] u = some { u with reapWait := true, mutex := none, reap := .wait } := by
      simp only [reapStep, hreap, hout, if_true]
    exact ⟨_, .single (.reap [] hstep), hsub, hout, rfl⟩
  cases hreap : s.reap with
  | wait => exact ⟨s, .refl, hl.sub, hl.naiosOut, hreap⟩
  | held => exact hheld s hl.sub hl.naiosOut hreap
  | lock =>
    have hfree : s.mutex = none := by
      cases hmutex : s.mutex with
      | none => rfl
      | some t =>
        cases t with
        | sub =>
          have hc := hi.subMutex.mp hmutex
          rw [hl.sub] at hc
          cases hc
        | reap =>
          have hc := hi.reapMutex.mp hmutex
          rw [hreap] at hc
          cases hc
    have hstep : reapStep [] s = some { s with mutex := some .reap, reap := .held } := by
      simp only [reapStep, hreap, hfree, if_true]
    obtain ⟨t, hrun, ht⟩ := hheld { s with mutex := some .reap, reap := .held } hl.sub hl.naiosOut rfl
    exact ⟨t, .head (.reap [] hstep) hrun, ht⟩
  | _ =>
    rw [hreap] at hwaits
    cases hwaits

theorem reapStep_sendDone {events : List ℕ} {s s' : State α} (h : reapStep events s = some s') :
    s'.sendDone = s.sendDone := by
  unfold reapStep at h
  split at h
  all_goals (repeat' split at h)
  all_goals cases h
  all_goals rfl

/-- A step that is not timely leads there. -/
theorem lost_of_not_timely {s s' : State α} (h : Step s s') (ht : ¬Timely s s') : Lost s' := by
  simp only [Timely, not_or, not_not, Bool.not_eq_false] at ht
  obtain ⟨hne, hout, hwaits⟩ := ht
  rcases h with h | ⟨events, h⟩
  · rcases subStep_sendDone h with ⟨-, rfl⟩ | hsame
    · exact ⟨rfl, hout, hwaits⟩
    · exact absurd hsame.symm hne
  · exact absurd (reapStep_sendDone h).symm hne

/-- What `next_bunch` reads in all the iterations: the file is rewound after each. -/
def allIterations (iterations : ℕ) (file : List (Bunch α)) : List (Bunch α) :=
  (List.replicate iterations file).flatten

/-- **The end of the reclaimer.** Timely steps never leave it in the wait; after any other step it
can come there, and from there no run leads out. -/
theorem hung_iff_not_timely (file : List (Bunch α)) (iterations : ℕ) :
    (∀ s, TimelyReachable (allIterations iterations file) s → ¬Hung s) ∧
      ∀ s s', Reachable (allIterations iterations file) s → Step s s' → ¬Timely s s' →
        (∃ t, Relation.ReflTransGen Step s' t ∧ Hung t) ∧
          ∀ t, Relation.ReflTransGen Step s' t → t.reap ≠ .done := by
  constructor
  · rintro s hs ⟨hsub, hout, hwait⟩
    have hset : s.sendDone = true := by
      rw [hs.reachable.inv.sendDone, hsub]
      rfl
    have hwaits := hs.leaves hset hout
    rw [hwait] at hwaits
    cases hwaits
  · intro s s' hs hstep htimely
    have hlost := lost_of_not_timely hstep htimely
    exact ⟨hlost.hung (Reachable.inv (hs.tail hstep)), fun t ht => (hlost.run ht).2⟩

/-! ## The two ends -/

/-- A run of chosen steps: the submitter's, or the reclaimer's with what `io_getevents` returns. -/
def runSteps : List (Option (List ℕ)) → State α → Option (State α)
  | [], s => some s
  | none :: rest, s => (subStep s).bind (runSteps rest)
  | some events :: rest, s => (reapStep events s).bind (runSteps rest)

theorem Reachable.runSteps {bunches : List (Bunch α)} {choices : List (Option (List ℕ))}
    {s s' : State α} (h : Reachable bunches s) (hrun : Pool.runSteps choices s = some s') :
    Reachable bunches s' := by
  induction choices generalizing s with
  | nil =>
    cases hrun
    exact h
  | cons choice rest ih =>
    cases choice with
    | none =>
      obtain ⟨s₁, hstep, hrest⟩ := Option.bind_eq_some_iff.mp hrun
      exact ih (h.tail (.sub hstep)) hrest
    | some events =>
      obtain ⟨s₁, hstep, hrest⟩ := Option.bind_eq_some_iff.mp hrun
      exact ih (h.tail (.reap events hstep)) hrest

/-- One packet, whose completion is collected before `send_done` is set. -/
def lateDone : List (Option (List ℕ)) :=
  List.replicate 12 none ++ List.replicate 6 (some []) ++ [some [0]] ++
    List.replicate 6 (some []) ++ [none]

/-- The reclaimer hangs. -/
theorem hung_after_last :
    ∃ s : State ℕ, Reachable (allIterations 1 [⟨[7], by decide, by decide⟩]) s ∧ s.log = [7] ∧
      Hung s := by
  have hrun : (runSteps lateDone { bunches := allIterations 1 [⟨[7], by decide, by decide⟩] }).map
      (fun s => (s.log, decide (Hung s))) = some ([7], true) := by decide +kernel
  obtain ⟨s, hs, hlog⟩ := Option.map_eq_some_iff.mp hrun
  simp only [Prod.mk.injEq, decide_eq_true_iff] at hlog
  exact ⟨s, Reachable.runSteps .refl hs, hlog⟩

end Blktrace.Btreplay.Pool
