import Blktrace.Btreplay.Signals

/-!
# One pass each

The tokens of `iter_start` have no names: a thread that is early done with its pass comes back to
`wait_iter_start` and may take the token of one that has not started, and makes two passes in one
round. The round is over all the same when as many passes are. Where every token is taken by a
thread that has still to make the pass of the round, all of them go over their files together.
-/

namespace Blktrace.Btreplay.Program

variable {n : ℕ} {α : Type*}

/-- No signal comes. -/
def Quietly (_ : State n α) (a : Act n) : Prop := a ≠ .signal

/-- Nor is a token taken by a thread whose `iterations` says that it is not at the pass that `main`
is at. -/
def InTurn (s : State n α) (a : Act n) : Prop :=
  a ≠ .signal ∧ ∀ j, a = .sub j → (s.tips j).sub = .start false → s.iterStart ≠ 0 →
    s.defIterations - 1 - (s.tips j).iterations = s.i

/-- Every round that is over has one pass of every file in it, and a pass runs on the start time of its
own iteration. -/
structure OnePass (s : State n α) : Prop where
  passes : ∀ j k, 1 ≤ k → k ≤ s.i → (s.tips j).begun.count k = 1 ∧ (s.tips j).ended.count k = 1
  rgenesis : ∀ j, (s.tips j).sub.inPass = 1 → (s.tips j).begun.length = s.rgenesis + 1

/-! ## The rounds -/

/-- The rounds of a file, when `starts` of them have been started. -/
structure Rounds (starts : ℕ) (tip : Tip α) : Prop where
  begun : tip.begun = List.range' 1 tip.begun.length
  ended : tip.ended = List.range' 1 tip.ended.length
  begun_le : tip.begun.length ≤ starts
  le_ended : starts ≤ tip.ended.length + 1

/-- And of all of them. -/
structure Together (s : State n α) : Prop where
  counts : Counts s
  rounds : ∀ j, Rounds s.starts (s.tips j)
  rgenesis : s.main = .start ∨ s.main.inRound = 1 → s.rgenesis = s.i

theorem together_init (defIterations : ℕ) (files : Fin n → List (Bunch α)) :
    Together (init defIterations files) where
  counts := counts_init defIterations files
  rounds j := ⟨rfl, rfl, le_refl 0, Nat.zero_le _⟩
  rgenesis h := by rcases h with h | h <;> cases h

theorem Rounds.congr {starts : ℕ} {tip tip' : Tip α} (hr : Rounds starts tip)
    (hbegun : tip'.begun = tip.begun) (hended : tip'.ended = tip.ended) : Rounds starts tip' := by
  obtain ⟨h₁, h₂, h₃, h₄⟩ := hr
  exact ⟨by rw [hbegun]; exact h₁, by rw [hended]; exact h₂, by rw [hbegun]; exact h₃,
    by rw [hended]; exact h₄⟩

theorem range'_concat_succ (m : ℕ) : List.range' 1 m ++ [m + 1] = List.range' 1 (m + 1) := by
  rw [List.range'_concat, Nat.one_mul, Nat.add_comm]

/-- A thread at a token has made the passes of the rounds before. -/
theorem Together.at_token {s : State n α} (ht : Together s) {j : Fin n}
    (hsub : (s.tips j).sub = .start false) (hne : s.iterStart ≠ 0) :
    s.starts = s.i + 1 ∧ (s.tips j).begun.length = (s.tips j).ended.length ∧
      s.i ≤ (s.tips j).begun.length ∧ (s.tips j).begun.length ≤ s.i + 1 ∧
      s.defIterations - 1 - (s.tips j).iterations = (s.tips j).begun.length := by
  have hp := ht.counts.passes j
  have hbegun := hp.begun
  have hiter := hp.iterations (by rw [hsub]; rfl)
  have hr := ht.rounds j
  have hstarts := ht.counts.starts
  rw [ht.counts.inRound_of_token hne] at hstarts
  rw [hsub] at hbegun hiter
  simp only [SubAt.inPass, SubAt.waiting] at hbegun hiter
  have hle := hr.begun_le
  have hge := hr.le_ended
  omega

theorem Together.subStep {s s' : State n α} {j : Fin n} (ht : Together s)
    (hok : InTurn s (.sub j)) (h : s.subStep j = some s') : Together s' := by
  have hc := (ht.counts.subStep h).1
  have hr := ht.rounds j
  rcases State.subStep_cases h with ⟨tip, rfl, hquiet⟩ | ⟨hsub, rfl⟩ | ⟨hsub, hne, rfl⟩ | ⟨hsub, rfl⟩ |
    ⟨hsub, rfl⟩
  · have hsame := hquiet.same
    exact ⟨hc, State.forall_setTip ht.rounds j (hr.congr hsame.begun hsame.ended), ht.rgenesis⟩
  · refine ⟨hc, State.forall_setTip ht.rounds j (hr.congr rfl rfl), ?_⟩
    show State.wake _ s.main = .start ∨ (State.wake _ s.main).inRound = 1 → _
    rw [State.wake_eq_start, State.wake_inRound]
    exact ht.rgenesis
  · obtain ⟨hstarts, hlen, -, -, hpass⟩ := ht.at_token hsub hne
    have hturn := hok.2 j rfl hsub hne
    have hi : (s.tips j).begun.length = s.i := by omega
    refine ⟨hc, State.forall_setTip ht.rounds j ⟨?_, hr.ended, ?_, hr.le_ended⟩, ht.rgenesis⟩
    · dsimp only
      rw [hr.begun, hi, hstarts, range'_concat_succ, List.length_range']
    · rw [List.length_append, List.length_singleton]
      omega
  · have hbegun := (ht.counts.passes j).begun
    rw [hsub] at hbegun
    simp only [SubAt.inPass] at hbegun
    have hle := hr.begun_le
    have hge := hr.le_ended
    have hstarts : s.starts = (s.tips j).ended.length + 1 := by omega
    refine ⟨hc, State.forall_setTip ht.rounds j ⟨hr.begun, ?_, hr.begun_le, ?_⟩, ?_⟩
    · dsimp only
      conv_lhs => rw [hr.ended, hstarts, range'_concat_succ]
      rw [List.length_append, List.length_singleton]
    · rw [List.length_append, List.length_singleton]
      omega
    · show State.wake _ s.main = .start ∨ (State.wake _ s.main).inRound = 1 → _
      rw [State.wake_eq_start, State.wake_inRound]
      exact ht.rgenesis
  · refine ⟨hc, State.forall_setTip ht.rounds j (hr.congr rfl rfl), ?_⟩
    show State.wake _ s.main = .start ∨ (State.wake _ s.main).inRound = 1 → _
    rw [State.wake_eq_start, State.wake_inRound]
    exact ht.rgenesis

theorem Together.reapStep {s s' : State n α} {j : Fin n} {events : List ℕ} (ht : Together s)
    (h : s.reapStep j events = some s') : Together s' := by
  have hc := (ht.counts.reapStep h).1
  have hr := ht.rounds j
  rcases State.reapStep_cases h with ⟨pool, -, rfl⟩ | ⟨-, -, rfl⟩
  · exact ⟨hc, State.forall_setTip ht.rounds j (hr.congr rfl rfl), ht.rgenesis⟩
  · refine ⟨hc, State.forall_setTip ht.rounds j (hr.congr rfl rfl), ?_⟩
    show State.wake _ s.main = .start ∨ (State.wake _ s.main).inRound = 1 → _
    rw [State.wake_eq_start, State.wake_inRound]
    exact ht.rgenesis

/-- Between two rounds every file has ended as many passes as there were rounds. -/
theorem Together.between {s : State n α} (ht : Together s) (hround : s.main.inRound = 0) (j : Fin n) :
    (s.tips j).ended.length = s.starts := by
  have hstarts := ht.counts.starts
  have hended := ht.counts.ended
  rw [(ht.counts.between hround).2.1] at hended
  rw [hround] at hstarts
  have hle : ∀ k ∈ Finset.univ, (s.tips k).ended.length ≤ s.starts := by
    intro k _
    have hbegun := (ht.counts.passes k).begun
    have hbegunLe := (ht.rounds k).begun_le
    omega
  have hsum : ∑ k, (s.tips k).ended.length = ∑ _k : Fin n, s.starts := by
    simp only [Finset.sum_const, Finset.card_univ, Fintype.card_fin, smul_eq_mul]
    rw [hended, hstarts, Nat.add_zero, Nat.add_zero]
  exact (Finset.sum_eq_sum_iff_of_le hle).mp hsum j (Finset.mem_univ j)

theorem Together.mainStep {s s' : State n α} (ht : Together s) (h : s.mainStep = some s') :
    Together s' := by
  have hc := ht.counts.mainStep h
  unfold State.mainStep at h
  split at h
  case h_9 => cases h
  all_goals
    rw [Option.some.injEq] at h
    subst h
  case h_7 hmain =>
    refine ⟨hc, fun j => ?_, fun _ => ht.rgenesis (.inl hmain)⟩
    have hended := ht.between (by rw [hmain]; rfl) j
    have hr := ht.rounds j
    have hawake : Rounds s.starts (s.tips j).awake := hr.congr (Tip.awake_begun _) (Tip.awake_ended _)
    refine ⟨hawake.begun, hawake.ended, Nat.le_succ_of_le hawake.begun_le, ?_⟩
    show s.starts + 1 ≤ (s.tips j).awake.ended.length + 1
    rw [Tip.awake_ended, hended]
  case h_6 hmain =>
    split at hc
    case isTrue hlt =>
      rw [if_pos hlt]
      exact ⟨hc, ht.rounds, fun _ => rfl⟩
    case isFalse hlt =>
      rw [if_neg hlt]
      refine ⟨hc, ht.rounds, ?_⟩
      rintro (h | h) <;> cases h
  case h_1 cv hmain =>
    refine ⟨hc, ht.rounds, fun h => ht.rgenesis (.inr ?_)⟩
    rw [hmain]
    rcases h with h | h
    · cases h
    · cases cv <;> exact h
  case h_8 hmain =>
    refine ⟨hc, ht.rounds, ?_⟩
    rintro (h | h) <;> cases h
  all_goals
    unfold State.waitCv at hc ⊢
    split at hc
    case isTrue hlt =>
      rw [if_pos hlt]
      refine ⟨hc, ht.rounds, fun h => ht.rgenesis (.inr ?_)⟩
      rw [‹s.main = _›]
      exact h.resolve_left (by simp)
    case isFalse hlt =>
      rw [if_neg hlt]
      refine ⟨hc, ht.rounds, ?_⟩
      rintro (h | h) <;> cases h

theorem Together.step {s s' : State n α} {a : Act n} (ht : Together s) (hok : InTurn s a)
    (h : s.step a = some s') : Together s' := by
  cases a with
  | main => exact ht.mainStep h
  | sub j => exact ht.subStep hok h
  | reap j events => exact ht.reapStep h
  | signal => exact absurd rfl hok.1

theorem Reached.together {s₀ s : State n α} (h : Reached InTurn s₀ s) (ht : Together s₀) :
    Together s := by
  induction h with
  | init => exact ht
  | step a _ hok hstep ih => exact ih.step hok hstep

theorem count_range' {m k : ℕ} (h₁ : 1 ≤ k) (h₂ : k ≤ m) : (List.range' 1 m).count k = 1 :=
  List.count_eq_one_of_mem List.nodup_range' (List.mem_range'_1.mpr ⟨h₁, by omega⟩)

theorem Together.onePass {s : State n α} (ht : Together s) : OnePass s where
  passes j k h₁ h₂ := by
    have hr := ht.rounds j
    have hbegun := (ht.counts.passes j).begun
    have hstarts := ht.counts.starts
    have hended : s.i ≤ (s.tips j).ended.length := by
      have hge := hr.le_ended
      have hone := s.main.inRound_le
      rcases Nat.eq_zero_or_pos s.main.inRound with hzero | hpos
      · have heq := ht.between hzero j
        omega
      · omega
    rw [hr.begun, hr.ended]
    exact ⟨count_range' h₁ (by omega), count_range' h₁ (by omega)⟩
  rgenesis j hin := by
    have hbegun := (ht.counts.passes j).begun
    have hle := (ht.rounds j).begun_le
    have hge := (ht.rounds j).le_ended
    have hstarts := ht.counts.starts
    have hround : s.main.inRound = 1 := by
      have hone := s.main.inRound_le
      by_contra hnot
      have heq := ht.between (by omega) j
      omega
    have hgenesis := ht.rgenesis (.inr hround)
    omega

/-- **The barrier.** No assertion fails. In turn, every file makes one pass in every round; and the
first token that is taken out of turn is a second one for its thread in that round. -/
theorem barrier (defIterations : ℕ) (files : Fin n → List (Bunch α)) :
    (∀ s, Reached Quietly (init defIterations files) s → s.aborted = false) ∧
      (∀ s, Reached InTurn (init defIterations files) s → OnePass s) ∧
      ∀ s s' a, Reached InTurn (init defIterations files) s → a ≠ .signal → ¬InTurn s a →
        s.step a = some s' → ∃ j, (s'.tips j).begun.count s'.starts = 2 := by
  have hinit := together_init defIterations files
  refine ⟨fun s h => ?_, fun s h => (h.together hinit).onePass, ?_⟩
  · have himp : ∀ (s : State n α) (a : Act n), Quietly s a → Gentle s a :=
      fun _ _ hne heq => absurd heq hne
    exact (h.sane himp (sane_init defIterations files)).aborted
  · intro s s' a h hne hnot hstep
    have ht := h.together hinit
    simp only [InTurn, hne, ne_eq, not_false_eq_true, true_and, not_forall] at hnot
    obtain ⟨j, rfl, hsub, htoken, hturn⟩ := hnot
    obtain ⟨hstarts, -, hge, hle, hpass⟩ := ht.at_token hsub htoken
    have hlen : (s.tips j).begun.length = s.i + 1 := by omega
    have htake : s' = State.assert (1 ≤ s.iterStart && s.iterStart ≤ n)
        { s.setTip j { s.tips j with sub := .inner, begun := (s.tips j).begun ++ [s.starts] } with
          iterStart := s.iterStart - 1 } := by
      have hstep' : some (s.waitIterStart j) = some s' := by
        simpa only [State.step, State.subStep, hsub] using hstep
      rw [← Option.some.inj hstep']
      simp only [State.waitIterStart, htoken, if_false]
    subst htake
    refine ⟨j, ?_⟩
    show List.count s.starts ((s.setTip j _).tips j).begun = 2
    rw [State.setTip_tips_self]
    dsimp only
    rw [List.count_append, (ht.rounds j).begun, hlen, hstarts,
      count_range' (Nat.succ_pos _) (le_refl _), List.count_singleton_self]

/-- Two files of one packet each. -/
def twoFiles : Fin 2 → List (Bunch ℕ) := fun _ => [.single 7]

/-- The first thread is through before the second has its token. -/
def twoPasses : List (Act 2) :=
  [.sub 0, .sub 1, .main, .main, .main] ++ List.replicate 33 (.sub 0) ++ [.main]

/-- The round is over: two passes of the first file, and none of the second. -/
theorem not_onePass_early :
    ∃ s, Reached Quietly (init 2 twoFiles) s ∧ s.i = 1 ∧ (s.tips 0).ended = [1, 1] ∧
      (s.tips 1).begun = [] ∧ ¬OnePass s := by
  have hrun : ((init 2 twoFiles).run twoPasses).map
      (fun s => (s.i, (s.tips 0).ended, (s.tips 1).begun)) = some (1, [1, 1], []) := by
    decide +kernel
  obtain ⟨s, hs, hall⟩ := Option.map_eq_some_iff.mp hrun
  simp only [Prod.mk.injEq] at hall
  obtain ⟨hi, hended, hbegun⟩ := hall
  have hquiet : ∀ s, ∀ a ∈ twoPasses, Quietly (s : State 2 ℕ) a := by
    rintro _ a ha rfl
    exact absurd ha (by decide)
  refine ⟨s, Reached.run .init hquiet hs, hi, hended, hbegun, fun hone => ?_⟩
  have hcount := (hone.passes 1 1 (le_refl 1) (by omega)).1
  rw [hbegun] at hcount
  cases hcount

end Blktrace.Btreplay.Program
