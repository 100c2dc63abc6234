import Blktrace.Btreplay.IterSteps

/-!
# How many passes

A pass takes a token of `iter_start` and ends in `n_iters_done`, so the passes begun are the tokens
handed out, and the passes ended are those of the rounds behind and the count of this one. That
holds of every run, signals or not, and it is enough for the assertions on the counters.
-/

namespace Blktrace.Btreplay.Program

variable {n : ℕ} {α : Type*}

namespace SubAt

/-- Past the test of `iterations`, without a token. -/
def waiting : SubAt → ℕ
  | .start _ => 1
  | _ => 0

/-- With a token, before `set_iter_done`. -/
def inPass : SubAt → ℕ
  | .inner | .bunch | .iterDone => 1
  | _ => 0

/-- Out of the loop. -/
def left : SubAt → Bool
  | .leave | .replayDone | .returned => true
  | _ => false

end SubAt

namespace MainAt

/-- In the loop of the iterations, or before it. -/
def loops : MainAt → Bool
  | .wait .replaysReady _ | .wait .itersDone _ | .test | .start => true
  | _ => false

/-- Between `start_iter` and the end of the round. -/
def inRound : MainAt → ℕ
  | .wait .itersDone _ => 1
  | _ => 0

/-- Past the wait for a counter that every file raises once. -/
def past (cv : Cv) : MainAt → Bool
  | .wait .replaysReady _ => false
  | .wait .itersDone _ | .test | .start => cv = .replaysReady
  | .wait .replaysDone _ => cv = .replaysReady
  | .wait .reclaimsDone _ => cv = .replaysReady || cv = .replaysDone
  | .release | .returned => cv ≠ .itersDone

end MainAt

/-- Whether a file has raised such a counter. -/
def Tip.raised (cv : Cv) (tip : Tip α) : ℕ :=
  match cv with
  | .replaysReady => if tip.sub = .ready then 0 else 1
  | .replaysDone => if tip.sub = .returned then 1 else 0
  | .reclaimsDone => if tip.reclaimSet then 1 else 0
  | .itersDone => 0

theorem Tip.raised_le (cv : Cv) (tip : Tip α) : tip.raised cv ≤ 1 := by
  unfold Tip.raised
  cases cv <;> dsimp only <;> (try split_ifs) <;> omega

/-! ## One file -/

/-- The passes of a file, in a run of `N` iterations. -/
structure Passes (N : ℕ) (tip : Tip α) : Prop where
  begun : tip.begun.length = tip.ended.length + tip.sub.inPass
  le : tip.begun.length + tip.sub.waiting ≤ N
  iterations : tip.sub.left = false → tip.iterations = N - (tip.begun.length + tip.sub.waiting)

/-- A quiet step begins no pass and ends none. -/
structure Quiet.Same (tip tip' : Tip α) : Prop where
  begun : tip'.begun = tip.begun
  ended : tip'.ended = tip.ended
  file : tip'.file = tip.file
  raised : ∀ cv, tip'.raised cv = tip.raised cv
  inPass : tip'.sub.inPass = tip.sub.inPass

theorem Quiet.same {signal : Bool} {tip tip' : Tip α} (h : Quiet signal tip tip') :
    Quiet.Same tip tip' := by
  cases h <;> refine ⟨rfl, rfl, rfl, fun cv => ?_, ?_⟩
  all_goals first
    | (cases cv <;> simp [Tip.raised, *])
    | simp [SubAt.inPass, *]

theorem Passes.quiet {N : ℕ} {signal : Bool} {tip tip' : Tip α} (hp : Passes N tip)
    (h : Quiet signal tip tip') : Passes N tip' := by
  have hsame := h.same
  have hbegun : tip'.begun.length = tip'.ended.length + tip'.sub.inPass := by
    rw [hsame.begun, hsame.ended, hsame.inPass]
    exact hp.begun
  have hle := hp.le
  have hiter := hp.iterations
  refine ⟨hbegun, ?_, ?_⟩
  · cases h with
    | enter hsub hdone hleft =>
      rw [hsub] at hle hiter
      have heq := hiter rfl
      simp only [SubAt.waiting] at hle heq ⊢
      omega
    | _ => simp_all [SubAt.waiting]
  · intro hnot
    cases h with
    | enter hsub hdone hleft =>
      rw [hsub] at hiter
      have heq := hiter rfl
      simp only [SubAt.waiting] at heq ⊢
      omega
    | _ => simp_all [SubAt.waiting, SubAt.left]

/-! ## The counters -/

/-- What the counters count. -/
structure Counts (s : State n α) : Prop where
  passes : ∀ j, Passes s.defIterations (s.tips j)
  tokens : ∑ j, (s.tips j).begun.length + s.iterStart = n * s.starts
  ended : ∑ j, (s.tips j).ended.length = n * s.i + s.count .itersDone
  starts : s.starts = s.i + s.main.inRound
  lt : s.main = .start ∨ s.main.inRound = 1 → s.i < s.defIterations
  le : s.i ≤ s.defIterations
  out : s.main.loops = true ∨ s.i = s.defIterations
  raised : ∀ cv, cv ≠ .itersDone →
    s.count cv + (if s.main.past cv then n else 0) = ∑ j, (s.tips j).raised cv
  /-- No wake-up is lost. -/
  asleep : ∀ cv, s.main = .wait cv true → s.count cv < n

theorem sum_raised_le (s : State n α) (cv : Cv) : ∑ j, (s.tips j).raised cv ≤ n := by
  calc ∑ j, (s.tips j).raised cv ≤ ∑ _j : Fin n, 1 :=
        Finset.sum_le_sum fun j _ => (s.tips j).raised_le cv
    _ = n := by simp

theorem Counts.ended_le {s : State n α} (hc : Counts s) :
    ∑ j, (s.tips j).ended.length ≤ ∑ j, (s.tips j).begun.length :=
  Finset.sum_le_sum fun j _ => by
    have hbegun := (hc.passes j).begun
    omega

theorem counts_init (defIterations : ℕ) (files : Fin n → List (Bunch α)) :
    Counts (init defIterations files) where
  passes j := ⟨rfl, Nat.zero_le _, fun _ => by simp [init, SubAt.waiting]⟩
  tokens := by simp [init]
  ended := by simp [init]
  starts := rfl
  lt h := by rcases h with h | h <;> cases h
  le := Nat.zero_le _
  out := .inl rfl
  raised cv hcv := by cases cv <;> simp_all [init, Tip.raised, MainAt.past]
  asleep cv h := by cases h

/-- A file changes, and none of its passes. -/
theorem Counts.setTip {s : State n α} (hc : Counts s) {j : Fin n} {tip : Tip α}
    (hp : Passes s.defIterations tip) (hbegun : tip.begun = (s.tips j).begun)
    (hended : tip.ended = (s.tips j).ended)
    (hraised : ∀ cv, tip.raised cv = (s.tips j).raised cv) : Counts (s.setTip j tip) where
  passes := State.forall_setTip hc.passes j hp
  tokens := by
    have hsum := s.sum_setTip j tip (fun tip => tip.begun.length)
    have htokens := hc.tokens
    rw [hbegun] at hsum
    show ∑ k, ((s.setTip j tip).tips k).begun.length + s.iterStart = n * s.starts
    omega
  ended := by
    have hsum := s.sum_setTip j tip (fun tip => tip.ended.length)
    have hcount := hc.ended
    rw [hended] at hsum
    show ∑ k, ((s.setTip j tip).tips k).ended.length = n * s.i + s.count .itersDone
    omega
  starts := hc.starts
  lt := hc.lt
  le := hc.le
  out := hc.out
  raised cv hcv := by
    have hsum := s.sum_setTip j tip (fun tip => tip.raised cv)
    have hcount := hc.raised cv hcv
    rw [hraised] at hsum
    show s.count cv + (if s.main.past cv then n else 0) =
      ∑ k, ((s.setTip j tip).tips k).raised cv
    omega
  asleep := hc.asleep

/-! ## The places where the threads meet -/

namespace State

@[simp]
theorem wake_inRound (cv : Cv) (m : MainAt) : (wake cv m).inRound = m.inRound := by
  unfold wake
  split
  case h_1 cv' => cases cv' <;> rfl
  case h_2 => rfl

@[simp]
theorem wake_past (cv cv' : Cv) (m : MainAt) : (wake cv m).past cv' = m.past cv' := by
  unfold wake
  split
  case h_1 cv'' => cases cv'' <;> rfl
  case h_2 => rfl

@[simp]
theorem wake_loops (cv : Cv) (m : MainAt) : (wake cv m).loops = m.loops := by
  unfold wake
  split
  case h_1 cv' => cases cv' <;> rfl
  case h_2 => rfl

@[simp]
theorem wake_eq_start (cv : Cv) (m : MainAt) : wake cv m = .start ↔ m = .start := by
  unfold wake
  split <;> simp

theorem wake_eq_asleep {cv cv' : Cv} {m : MainAt} (h : wake cv m = .wait cv' true) :
    cv' ≠ cv ∧ m = .wait cv' true := by
  unfold wake at h
  split at h
  case h_1 cv'' =>
    simp only [MainAt.wait.injEq, decide_eq_true_iff] at h
    obtain ⟨rfl, hne⟩ := h
    exact ⟨hne, rfl⟩
  case h_2 hnot => exact absurd h (hnot cv')

end State

/-- A file comes to a counter that each raises once: there is room, and it counts. -/
theorem Counts.raise {s : State n α} (hc : Counts s) {cv : Cv} (hcv : cv ≠ .itersDone) {j : Fin n}
    {tip : Tip α} (hp : Passes s.defIterations tip) (hbegun : tip.begun = (s.tips j).begun)
    (hended : tip.ended = (s.tips j).ended)
    (hraised : ∀ cv', tip.raised cv' = (s.tips j).raised cv' + if cv' = cv then 1 else 0) :
    s.count cv < n ∧ Counts (State.setCv cv (s.setTip j tip)) := by
  have hsum := fun cv' => s.sum_setTip j tip (fun tip => tip.raised cv')
  have hcount : s.count cv + (if s.main.past cv then n else 0) < n := by
    have hle := sum_raised_le (s.setTip j tip) cv
    have hone := hsum cv
    rw [hraised, if_pos rfl, ← hc.raised cv hcv] at hone
    omega
  refine ⟨by omega, ?_⟩
  constructor
  case passes => exact State.forall_setTip hc.passes j hp
  case tokens =>
    have hbegin := s.sum_setTip j tip (fun tip => tip.begun.length)
    have htokens := hc.tokens
    rw [hbegun] at hbegin
    show ∑ k, ((s.setTip j tip).tips k).begun.length + s.iterStart = n * s.starts
    omega
  case ended =>
    have hend := s.sum_setTip j tip (fun tip => tip.ended.length)
    have hcount := hc.ended
    rw [hended] at hend
    show ∑ k, ((s.setTip j tip).tips k).ended.length =
      n * s.i + Function.update s.count cv (s.count cv + 1) .itersDone
    rw [Function.update_of_ne (Ne.symm hcv)]
    omega
  case starts =>
    show s.starts = s.i + (State.wake cv s.main).inRound
    rw [State.wake_inRound]
    exact hc.starts
  case lt =>
    show State.wake cv s.main = .start ∨ (State.wake cv s.main).inRound = 1 → _
    rw [State.wake_eq_start, State.wake_inRound]
    exact hc.lt
  case le => exact hc.le
  case out =>
    show (State.wake cv s.main).loops = true ∨ _
    rw [State.wake_loops]
    exact hc.out
  case raised =>
    intro cv' hcv'
    have hone := hsum cv'
    have hold := hc.raised cv' hcv'
    show Function.update s.count cv (s.count cv + 1) cv' +
      (if (State.wake cv s.main).past cv' then n else 0) = ∑ k, ((s.setTip j tip).tips k).raised cv'
    rw [State.wake_past]
    rw [hraised] at hone
    by_cases hsame : cv' = cv
    · subst hsame
      rw [Function.update_self]
      rw [if_pos rfl] at hone
      omega
    · rw [Function.update_of_ne hsame]
      rw [if_neg hsame] at hone
      omega
  case asleep =>
    intro cv' hasleep
    obtain ⟨hne, hmain⟩ := State.wake_eq_asleep hasleep
    show Function.update s.count cv (s.count cv + 1) cv' < n
    rw [Function.update_of_ne hne]
    exact hc.asleep cv' hmain

theorem MainAt.inRound_le (m : MainAt) : m.inRound ≤ 1 := by
  unfold MainAt.inRound
  split <;> omega

/-- The tokens of a round are those of its files, less the passes begun. -/
theorem Counts.tokens_eq {s : State n α} (hc : Counts s) :
    ∑ j, (s.tips j).begun.length + s.iterStart = n * s.i + n * s.main.inRound := by
  rw [hc.tokens, hc.starts, Nat.mul_add]

theorem Counts.between {s : State n α} (hc : Counts s) (h : s.main.inRound = 0) :
    s.iterStart = 0 ∧ s.count .itersDone = 0 ∧
      ∑ j, (s.tips j).begun.length = ∑ j, (s.tips j).ended.length := by
  have htokens := hc.tokens_eq
  have hended := hc.ended
  have hle := hc.ended_le
  rw [h, Nat.mul_zero] at htokens
  omega

/-- `start_iter` finds no token. -/
theorem Counts.iterStart_eq_zero {s : State n α} (hc : Counts s) (h : s.main = .start) :
    s.iterStart = 0 := (hc.between (by rw [h]; rfl)).1

theorem Counts.inRound_of_token {s : State n α} (hc : Counts s) (hne : s.iterStart ≠ 0) :
    s.main.inRound = 1 := by
  have hle := s.main.inRound_le
  by_contra hnot
  exact hne (hc.between (by omega)).1

/-- And `wait_iter_start` no more than there are files. -/
theorem Counts.iterStart_le {s : State n α} (hc : Counts s) : s.iterStart ≤ n := by
  by_cases hne : s.iterStart = 0
  · omega
  · have htokens := hc.tokens_eq
    have hended := hc.ended
    have hle := hc.ended_le
    rw [hc.inRound_of_token hne, Nat.mul_one] at htokens
    omega

/-- A pass begins. -/
theorem Counts.take {s : State n α} (hc : Counts s) (hne : s.iterStart ≠ 0) {j : Fin n}
    {tip : Tip α} (hp : Passes s.defIterations tip)
    (hbegun : tip.begun = (s.tips j).begun ++ [s.starts]) (hended : tip.ended = (s.tips j).ended)
    (hraised : ∀ cv, tip.raised cv = (s.tips j).raised cv) :
    Counts { s.setTip j tip with iterStart := s.iterStart - 1 } where
  passes := State.forall_setTip hc.passes j hp
  tokens := by
    have hsum := s.sum_setTip j tip (fun tip => tip.begun.length)
    have htokens := hc.tokens
    rw [hbegun, List.length_append, List.length_singleton] at hsum
    show ∑ k, ((s.setTip j tip).tips k).begun.length + (s.iterStart - 1) = n * s.starts
    omega
  ended := by
    have hsum := s.sum_setTip j tip (fun tip => tip.ended.length)
    have hcount := hc.ended
    rw [hended] at hsum
    show ∑ k, ((s.setTip j tip).tips k).ended.length = n * s.i + s.count .itersDone
    omega
  starts := hc.starts
  lt := hc.lt
  le := hc.le
  out := hc.out
  raised cv hcv := by
    have hsum := s.sum_setTip j tip (fun tip => tip.raised cv)
    have hcount := hc.raised cv hcv
    rw [hraised] at hsum
    show s.count cv + (if s.main.past cv then n else 0) =
      ∑ k, ((s.setTip j tip).tips k).raised cv
    omega
  asleep := hc.asleep

/-- A pass ends: there is room in `n_iters_done`. -/
theorem Counts.finish {s : State n α} (hc : Counts s) {j : Fin n} {tip : Tip α}
    (hp : Passes s.defIterations tip)
    (hbegun : tip.begun = (s.tips j).begun)
    (hended : tip.ended = (s.tips j).ended ++ [s.starts])
    (hraised : ∀ cv, tip.raised cv = (s.tips j).raised cv) :
    s.count .itersDone < n ∧ s.main.inRound = 1 ∧ Counts (State.setIterDone (s.setTip j tip)) := by
  have hend := s.sum_setTip j tip (fun tip => tip.ended.length)
  rw [hended, List.length_append, List.length_singleton] at hend
  have hbegin := s.sum_setTip j tip (fun tip => tip.begun.length)
  rw [hbegun] at hbegin
  have hle : ∑ k, ((s.setTip j tip).tips k).ended.length ≤
      ∑ k, ((s.setTip j tip).tips k).begun.length := by
    refine Finset.sum_le_sum fun k _ => ?_
    have hpasses := State.forall_setTip hc.passes j hp k
    have hlen := hpasses.begun
    omega
  have htokens := hc.tokens_eq
  have hcount := hc.ended
  have hround : s.main.inRound = 1 := by
    have hone := s.main.inRound_le
    by_contra hnot
    have hbetween := hc.between (by omega)
    omega
  rw [hround, Nat.mul_one] at htokens
  refine ⟨by omega, hround, ?_⟩
  constructor
  case passes => exact State.forall_setTip hc.passes j hp
  case tokens =>
    have htokens := hc.tokens
    show ∑ k, ((s.setTip j tip).tips k).begun.length + s.iterStart = n * s.starts
    omega
  case ended =>
    show ∑ k, ((s.setTip j tip).tips k).ended.length =
      n * s.i + Function.update s.count .itersDone (s.count .itersDone + 1) .itersDone
    rw [Function.update_self]
    omega
  case starts =>
    show s.starts = s.i + (State.wake .itersDone s.main).inRound
    rw [State.wake_inRound]
    exact hc.starts
  case lt =>
    show State.wake .itersDone s.main = .start ∨ (State.wake .itersDone s.main).inRound = 1 → _
    rw [State.wake_eq_start, State.wake_inRound]
    exact hc.lt
  case le => exact hc.le
  case out =>
    show (State.wake .itersDone s.main).loops = true ∨ _
    rw [State.wake_loops]
    exact hc.out
  case raised =>
    intro cv hcv
    have hsum := s.sum_setTip j tip (fun tip => tip.raised cv)
    have hold := hc.raised cv hcv
    rw [hraised] at hsum
    show Function.update s.count .itersDone (s.count .itersDone + 1) cv +
      (if (State.wake .itersDone s.main).past cv then n else 0) =
        ∑ k, ((s.setTip j tip).tips k).raised cv
    rw [State.wake_past, Function.update_of_ne hcv]
    omega
  case asleep =>
    intro cv hasleep
    obtain ⟨hne, hmain⟩ := State.wake_eq_asleep hasleep
    show Function.update s.count .itersDone (s.count .itersDone + 1) cv < n
    rw [Function.update_of_ne hne]
    exact hc.asleep cv hmain

/-! ## Every step -/

theorem State.aborted_assert (s : State n α) {cond : Bool} (h : cond = true) :
    (s.assert cond).aborted = s.aborted := by
  rw [h]
  exact Bool.or_false _

theorem State.aborted_setCv (s : State n α) {cv : Cv} (h : s.count cv < n) :
    (State.setCv cv s).aborted = s.aborted := State.aborted_assert _ (decide_eq_true h)

theorem Counts.assert {s : State n α} (hc : Counts s) (cond : Bool) : Counts (s.assert cond) :=
  { hc with }

/-- A place outside the passes and the loop's test is as good as another. -/
theorem Passes.setSub {N : ℕ} {tip : Tip α} (hp : Passes N tip) {sub : SubAt}
    (hin : sub.inPass = tip.sub.inPass) (hwaiting : sub.waiting = tip.sub.waiting)
    (hleft : sub.left = tip.sub.left) : Passes N { tip with sub := sub } where
  begun := by
    rw [show SubAt.inPass sub = tip.sub.inPass from hin]
    exact hp.begun
  le := by
    rw [show SubAt.waiting sub = tip.sub.waiting from hwaiting]
    exact hp.le
  iterations hnot := by
    rw [show SubAt.waiting sub = tip.sub.waiting from hwaiting]
    exact hp.iterations (hleft ▸ hnot)

theorem Passes.take {N : ℕ} {tip : Tip α} (hp : Passes N tip) {asleep : Bool}
    (hsub : tip.sub = .start asleep) (k : ℕ) :
    Passes N { tip with sub := .inner, begun := tip.begun ++ [k] } := by
  obtain ⟨hbegun, hle, hiter⟩ := hp
  rw [hsub] at hbegun hle hiter
  have heq := hiter rfl
  simp only [SubAt.inPass, SubAt.waiting] at hbegun hle heq
  refine ⟨?_, ?_, fun _ => ?_⟩
  all_goals
    simp only [List.length_append, List.length_singleton, SubAt.inPass, SubAt.waiting]
    omega

theorem Passes.finish {N : ℕ} {tip : Tip α} (hp : Passes N tip) (hsub : tip.sub = .iterDone)
    (k : ℕ) : Passes N { tip with sub := .reset, ended := tip.ended ++ [k] } := by
  obtain ⟨hbegun, hle, hiter⟩ := hp
  rw [hsub] at hbegun hle hiter
  refine ⟨?_, hle, hiter⟩
  simp only [SubAt.inPass] at hbegun
  simp only [List.length_append, List.length_singleton, SubAt.inPass]
  omega

/-- **A submitter's step**, and the assertions in it. -/
theorem Counts.subStep {s s' : State n α} {j : Fin n} (hc : Counts s) (h : s.subStep j = some s') :
    Counts s' ∧ s'.aborted = s.aborted := by
  have hp := hc.passes j
  rcases State.subStep_cases h with ⟨tip, rfl, hquiet⟩ | ⟨hsub, rfl⟩ | ⟨hsub, hne, rfl⟩ | ⟨hsub, rfl⟩ |
    ⟨hsub, rfl⟩
  · have hsame := hquiet.same
    exact ⟨hc.setTip (hp.quiet hquiet) hsame.begun hsame.ended hsame.raised, rfl⟩
  · have htest : Passes s.defIterations { s.tips j with sub := .test } := by
      apply hp.setSub <;> rw [hsub] <;> rfl
    have hone : ∀ cv, Tip.raised cv { s.tips j with sub := .test } =
        (s.tips j).raised cv + if cv = .replaysReady then 1 else 0 := by
      intro cv
      cases cv <;> simp [Tip.raised, hsub]
    have hraise := hc.raise (show Cv.replaysReady ≠ .itersDone by simp) htest rfl rfl hone
    exact ⟨hraise.2, State.aborted_setCv _ hraise.1⟩
  · have hsame : ∀ cv, Tip.raised cv
        { s.tips j with sub := .inner, begun := (s.tips j).begun ++ [s.starts] } =
          (s.tips j).raised cv := by
      intro cv
      cases cv <;> simp [Tip.raised, hsub]
    have htake := hc.take hne (hp.take hsub s.starts) rfl rfl hsame
    have hbounds : (decide (1 ≤ s.iterStart) && decide (s.iterStart ≤ n)) = true := by
      simp only [Bool.and_eq_true, decide_eq_true_iff]
      exact ⟨Nat.one_le_iff_ne_zero.mpr hne, hc.iterStart_le⟩
    exact ⟨htake.assert _, State.aborted_assert _ hbounds⟩
  · have hsame : ∀ cv, Tip.raised cv
        { s.tips j with sub := .reset, ended := (s.tips j).ended ++ [s.starts] } =
          (s.tips j).raised cv := by
      intro cv
      cases cv <;> simp [Tip.raised, hsub]
    have hfinish := hc.finish (hp.finish hsub s.starts) rfl rfl hsame
    exact ⟨hfinish.2.2, State.aborted_setCv _ hfinish.1⟩
  · have hreturned : Passes s.defIterations { s.tips j with sub := .returned } := by
      apply hp.setSub <;> rw [hsub] <;> rfl
    have hone : ∀ cv, Tip.raised cv { s.tips j with sub := .returned } =
        (s.tips j).raised cv + if cv = .replaysDone then 1 else 0 := by
      intro cv
      cases cv <;> simp [Tip.raised, hsub]
    have hraise := hc.raise (show Cv.replaysDone ≠ .itersDone by simp) hreturned rfl rfl hone
    exact ⟨hraise.2, State.aborted_setCv _ hraise.1⟩

theorem Counts.reapStep {s s' : State n α} {j : Fin n} {events : List ℕ} (hc : Counts s)
    (h : s.reapStep j events = some s') : Counts s' ∧ s'.aborted = s.aborted := by
  obtain ⟨hbegun, hle, hiter⟩ := hc.passes j
  rcases State.reapStep_cases h with ⟨pool, -, rfl⟩ | ⟨-, hset, rfl⟩
  · have hpool : Passes s.defIterations { s.tips j with pool := pool } := ⟨hbegun, hle, hiter⟩
    exact ⟨hc.setTip hpool rfl rfl fun cv => rfl, rfl⟩
  · have hdone : Passes s.defIterations { s.tips j with reclaimSet := true } :=
      ⟨hbegun, hle, hiter⟩
    have hone : ∀ cv, Tip.raised cv { s.tips j with reclaimSet := true } =
        (s.tips j).raised cv + if cv = .reclaimsDone then 1 else 0 := by
      intro cv
      cases cv <;> simp [Tip.raised, hset]
    have hraise := hc.raise (show Cv.reclaimsDone ≠ .itersDone by simp) hdone rfl rfl hone
    exact ⟨hraise.2, State.aborted_setCv _ hraise.1⟩

/-- What `start_iter` makes of a file. -/
def Tip.awake (tip : Tip α) : Tip α :=
  if tip.sub = .start true then { tip with sub := .start false } else tip

theorem Tip.awake_eq (tip : Tip α) :
    tip.awake = tip ∨ tip.sub = .start true ∧ tip.awake = { tip with sub := .start false } := by
  unfold Tip.awake
  split
  case isTrue h => exact .inr ⟨h, rfl⟩
  case isFalse => exact .inl rfl

@[simp] theorem Tip.awake_begun (tip : Tip α) : tip.awake.begun = tip.begun := by
  rcases tip.awake_eq with h | ⟨-, h⟩ <;> rw [h]

@[simp] theorem Tip.awake_ended (tip : Tip α) : tip.awake.ended = tip.ended := by
  rcases tip.awake_eq with h | ⟨-, h⟩ <;> rw [h]

@[simp] theorem Tip.awake_raised (cv : Cv) (tip : Tip α) : tip.awake.raised cv = tip.raised cv := by
  rcases tip.awake_eq with h | ⟨hsub, h⟩ <;> rw [h]
  cases cv <;> simp [Tip.raised, hsub]

theorem Passes.awake {N : ℕ} {tip : Tip α} (hp : Passes N tip) : Passes N tip.awake := by
  rcases tip.awake_eq with h | ⟨hsub, h⟩ <;> rw [h]
  · exact hp
  · apply hp.setSub <;> rw [hsub] <;> rfl

/-- **The next round.** -/
theorem Counts.startIter {s : State n α} (hc : Counts s) (hmain : s.main = .start) :
    Counts { s.startIter with main := .wait .itersDone false } := by
  have hbetween := hc.between (by rw [hmain]; rfl)
  have htokens := hc.tokens
  have hstarts := hc.starts
  rw [hmain] at hstarts
  constructor
  case passes => exact fun j => (hc.passes j).awake
  case tokens =>
    show ∑ j, (s.tips j).awake.begun.length + n = n * (s.starts + 1)
    simp only [Tip.awake_begun, Nat.mul_add, Nat.mul_one]
    omega
  case ended =>
    show ∑ j, (s.tips j).awake.ended.length = n * s.i + s.count .itersDone
    simpa only [Tip.awake_ended] using hc.ended
  case starts =>
    show s.starts + 1 = s.i + 1
    simpa [MainAt.inRound] using hstarts
  case lt => exact fun _ => hc.lt (.inl hmain)
  case le => exact hc.le
  case out => exact .inl rfl
  case raised =>
    intro cv hcv
    have hraised := hc.raised cv hcv
    rw [hmain] at hraised
    show s.count cv + (if (MainAt.wait .itersDone false).past cv then n else 0) =
      ∑ j, (s.tips j).awake.raised cv
    simp only [Tip.awake_raised]
    exact hraised
  case asleep => exact fun cv hasleep => by cases hasleep

/-- `main` moves, and no counter does. -/
theorem Counts.setMain {s : State n α} (hc : Counts s) {m : MainAt}
    (hround : m.inRound = s.main.inRound) (hstart : m = .start → s.i < s.defIterations)
    (hout : m.loops = s.main.loops ∨ ¬s.i < s.defIterations)
    (hpast : ∀ cv, m.past cv = s.main.past cv) (hasleep : ∀ cv, m = .wait cv true → s.count cv < n) :
    Counts { s with main := m } where
  passes := hc.passes
  tokens := hc.tokens
  ended := hc.ended
  starts := by
    show s.starts = s.i + m.inRound
    rw [hround]
    exact hc.starts
  lt h := by
    rcases h with h | h
    · exact hstart h
    · exact hc.lt (.inr (hround ▸ h))
  le := hc.le
  out := by
    rcases hout with hsame | hend
    · show m.loops = true ∨ _
      rw [hsame]
      exact hc.out
    · exact .inr (le_antisymm hc.le (not_lt.mp hend))
  raised cv hcv := by
    show s.count cv + (if m.past cv then n else 0) = _
    rw [hpast]
    exact hc.raised cv hcv
  asleep := hasleep

/-- A wait for a counter that every file raises once is over: all of them have. -/
theorem Counts.waited {s : State n α} (hc : Counts s) {cv : Cv} (hcv : cv ≠ .itersDone)
    (hmain : s.main = .wait cv false) (hcount : n ≤ s.count cv) {m : MainAt} (hround : m.inRound = 0)
    (hstart : m ≠ .start) (hpast : ∀ cv', m.past cv' = (s.main.past cv' || decide (cv' = cv)))
    (hasleep : ∀ cv', m ≠ .wait cv' true) (hout : m.loops = s.main.loops ∨ m.loops = true) :
    Counts { s with count := Function.update s.count cv 0, main := m } := by
  have hnot : s.main.past cv = false := by
    rw [hmain]
    cases cv <;> rfl
  have hold : s.main.inRound = 0 := by
    rw [hmain]
    cases cv <;> first | rfl | exact absurd rfl hcv
  constructor
  case passes => exact hc.passes
  case tokens => exact hc.tokens
  case ended =>
    show _ = n * s.i + Function.update s.count cv 0 .itersDone
    rw [Function.update_of_ne (Ne.symm hcv)]
    exact hc.ended
  case starts =>
    show s.starts = s.i + m.inRound
    rw [hround, ← hold]
    exact hc.starts
  case lt =>
    rintro (h | h)
    · exact absurd h hstart
    · exact absurd (hround.symm.trans h) (by simp)
  case le => exact hc.le
  case out =>
    rcases hout with hsame | hloops
    · show m.loops = true ∨ _
      rw [hsame]
      exact hc.out
    · exact .inl hloops
  case raised =>
    intro cv' hcv'
    have hraised := hc.raised cv' hcv'
    have hle := sum_raised_le s cv'
    show Function.update s.count cv 0 cv' + (if m.past cv' then n else 0) = _
    rw [hpast]
    by_cases hsame : cv' = cv
    · subst hsame
      rw [hnot] at hraised
      simp only [Function.update_self, hnot, decide_true, Bool.or_true, if_true]
      simp only [Bool.false_eq_true, if_false] at hraised
      show 0 + n = ∑ j, (s.tips j).raised cv'
      omega
    · simp only [Function.update_of_ne hsame, hsame, decide_false, Bool.or_false]
      exact hraised
  case asleep => exact fun cv' h => absurd h (hasleep cv')

/-- **The round is over**: all its passes have ended. -/
theorem Counts.endRound {s : State n α} (hc : Counts s) (hmain : s.main = .wait .itersDone false)
    (hcount : n ≤ s.count .itersDone) :
    Counts { s with count := Function.update s.count .itersDone 0, i := s.i + 1, main := .test } := by
  have htokens := hc.tokens_eq
  have hended := hc.ended
  have hle := hc.ended_le
  have hstarts := hc.starts
  have hlt := hc.lt (.inr (by rw [hmain]; rfl))
  rw [hmain] at htokens hstarts
  simp only [MainAt.inRound, Nat.mul_one] at htokens hstarts
  constructor
  case passes => exact hc.passes
  case tokens => exact hc.tokens
  case ended =>
    show ∑ j, (s.tips j).ended.length =
      n * (s.i + 1) + Function.update s.count .itersDone 0 .itersDone
    rw [Function.update_self, Nat.mul_add]
    omega
  case starts => exact hstarts
  case lt =>
    rintro (h | h) <;> cases h
  case le => exact hlt
  case out => exact .inl rfl
  case raised =>
    intro cv hcv
    have hraised := hc.raised cv hcv
    rw [hmain] at hraised
    show Function.update s.count .itersDone 0 cv + (if MainAt.test.past cv then n else 0) = _
    rw [Function.update_of_ne hcv]
    exact hraised
  case asleep => exact fun cv h => by cases h

theorem Counts.mainStep {s s' : State n α} (hc : Counts s) (h : s.mainStep = some s') :
    Counts s' := by
  have hasleep : ∀ {cv : Cv}, s.main = .wait cv false → s.count cv < n →
      Counts { s with main := .wait cv true } := by
    intro cv hmain hlt
    refine hc.setMain ?_ nofun (.inl ?_) (fun cv' => ?_) ?_
    · rw [hmain]
      cases cv <;> rfl
    · rw [hmain]
      cases cv <;> rfl
    · rw [hmain]
      cases cv <;> rfl
    · intro cv' h
      cases h
      exact hlt
  unfold State.mainStep at h
  split at h
  case h_9 => cases h
  all_goals
    rw [Option.some.injEq] at h
    subst h
  case h_1 cv hmain =>
    refine hc.setMain ?_ nofun (.inl ?_) (fun cv' => ?_) nofun <;>
    · rw [hmain]
      cases cv <;> rfl
  case h_2 hmain =>
    unfold State.waitCv
    split
    case isTrue hlt => exact hasleep hmain hlt
    case isFalse hcount =>
      refine hc.waited (by simp) hmain (not_lt.mp hcount) rfl nofun (fun cv => ?_) nofun (.inr rfl)
      rw [hmain]
      cases cv <;> rfl
  case h_3 hmain =>
    unfold State.waitCv
    split
    case isTrue hlt => exact hasleep hmain hlt
    case isFalse hcount => exact hc.endRound hmain (not_lt.mp hcount)
  case h_4 hmain =>
    unfold State.waitCv
    split
    case isTrue hlt => exact hasleep hmain hlt
    case isFalse hcount =>
      refine hc.waited (by simp) hmain (not_lt.mp hcount) rfl nofun (fun cv => ?_) nofun (.inl ?_)
      · rw [hmain]
        cases cv <;> rfl
      · rw [hmain]
        rfl
  case h_5 hmain =>
    unfold State.waitCv
    split
    case isTrue hlt => exact hasleep hmain hlt
    case isFalse hcount =>
      refine hc.waited (by simp) hmain (not_lt.mp hcount) rfl nofun (fun cv => ?_) nofun (.inl ?_)
      · rw [hmain]
        cases cv <;> rfl
      · rw [hmain]
        rfl
  case h_6 hmain =>
    split
    case isTrue hlt =>
      have hgenesis : Counts { s with rgenesis := s.i } := { hc with }
      refine hgenesis.setMain ?_ (fun _ => hlt) (.inl ?_) (fun cv => ?_) nofun <;>
      · rw [hmain]
        rfl
    case isFalse hend =>
      refine hc.setMain ?_ nofun (.inr hend) (fun cv => ?_) nofun <;>
      · rw [hmain]
        rfl
  case h_7 hmain => exact hc.startIter hmain
  case h_8 hmain =>
    have hreturned : Counts { s with main := .returned } := by
      refine hc.setMain ?_ nofun (.inl ?_) (fun cv => ?_) nofun <;>
      · rw [hmain]
        rfl
    exact hreturned.assert _

/-- Past the wait for a counter, every file has raised it. -/
theorem Counts.raised_all {s : State n α} (hc : Counts s) {cv : Cv} (hcv : cv ≠ .itersDone)
    (hpast : s.main.past cv = true) (j : Fin n) : (s.tips j).raised cv = 1 := by
  have hraised := hc.raised cv hcv
  rw [hpast, if_pos rfl] at hraised
  by_contra hne
  have hlt : ∑ k, (s.tips k).raised cv < ∑ _k : Fin n, 1 :=
    Finset.sum_lt_sum (fun k _ => (s.tips k).raised_le cv)
      ⟨j, Finset.mem_univ j, lt_of_le_of_ne ((s.tips j).raised_le cv) hne⟩
  simp only [Finset.sum_const, Finset.card_univ, Fintype.card_fin, smul_eq_mul, mul_one] at hlt
  omega

/-- **Every run.** -/
theorem Counts.step {s s' : State n α} {a : Act n} (hc : Counts s) (h : s.step a = some s') :
    Counts s' := by
  cases a with
  | main => exact hc.mainStep h
  | sub j => exact (hc.subStep h).1
  | reap j events => exact (hc.reapStep h).1
  | signal =>
    cases h
    exact { hc with }

theorem Reached.counts {ok : State n α → Act n → Prop} {s₀ s : State n α} (h : Reached ok s₀ s)
    (hc : Counts s₀) : Counts s := by
  induction h with
  | init => exact hc
  | step a _ _ hstep ih => exact ih.step hstep

end Blktrace.Btreplay.Program
