import Blktrace.Api

/-!
# `btt`: the time window

`-t` and `-T` set a bound each and one flag for both. `add_trace` tests an IO record against both bounds
when the flag is set, and the first one behind the end stops the reading.
-/

namespace Blktrace.Btt

/-- What is relied on of the `double`s: `BIT_TIME` keeps the order of times, and at time 0 it is the 0.0 that a
bound is before it is set. -/
structure BitTime (τ : Type*) [LinearOrder τ] where
  bitTime : UInt64 → τ
  zero : τ
  mono : Monotone bitTime
  bitTime_zero : bitTime 0 = zero

section

variable {τ : Type*} [LinearOrder τ] (clock : BitTime τ)

/-- `t_astart`, `t_aend` and `time_bounded`. -/
structure Bounds (τ : Type*) where
  tAstart : τ
  tAend : τ
  timeBounded : Bool

/-- What `handle_args` leaves of `-t` and `-T`. -/
def handleArgs (start stop : Option τ) : Bounds τ where
  tAstart := start.getD clock.zero
  tAend := stop.getD clock.zero
  timeBounded := start.isSome || stop.isSome

/-- What `add_trace` does with a record: it takes notes of it or releases it, analyses it, or sets `done`. -/
inductive Fate
  | released | analysed | done
deriving DecidableEq

/-- `add_trace`, up to the call of `__add_trace`. -/
def addTrace (b : Bounds τ) (t : BlkIoTrace) : Fate :=
  if t.hasTc blkTcNotify then .released
  else if t.hasTc blkTcPc then .released
  else if b.timeBounded then
    if clock.bitTime t.time < b.tAstart then .released
    else if b.tAend < clock.bitTime t.time then .done
    else .analysed
  else .analysed

/-- `process`: the records of the trace that get to `__add_trace`. -/
def process (b : Bounds τ) : List BlkIoTrace → List BlkIoTrace
  | [] => []
  | t :: ts =>
    match addTrace clock b t with
    | .released => process b ts
    | .analysed => t :: process b ts
    | .done => []

/-- An IO record: what is not told apart before the bounds. -/
def IsIo (t : BlkIoTrace) : Prop := t.hasTc blkTcNotify = false ∧ t.hasTc blkTcPc = false

instance (t : BlkIoTrace) : Decidable (IsIo t) := inferInstanceAs (Decidable (_ ∧ _))

/-- It is in the window; an absent bound is none. -/
def InBounds (start stop : Option τ) (t : BlkIoTrace) : Prop :=
  IsIo t ∧ (∀ s ∈ start, s ≤ clock.bitTime t.time) ∧ ∀ e ∈ stop, clock.bitTime t.time ≤ e

instance (start stop : Option τ) (t : BlkIoTrace) : Decidable (InBounds clock start stop t) :=
  inferInstanceAs (Decidable (_ ∧ _ ∧ _))

/-! ## The records that are analysed -/

/-- It passes the test against the bounds that are set. -/
def Passes (b : Bounds τ) (t : BlkIoTrace) : Prop :=
  IsIo t ∧ (b.timeBounded = true → b.tAstart ≤ clock.bitTime t.time ∧ clock.bitTime t.time ≤ b.tAend)

instance (b : Bounds τ) (t : BlkIoTrace) : Decidable (Passes clock b t) :=
  inferInstanceAs (Decidable (_ ∧ (_ → _)))

variable {clock}

theorem addTrace_eq_analysed {b : Bounds τ} {t : BlkIoTrace} (h : Passes clock b t) :
    addTrace clock b t = .analysed := by
  obtain ⟨⟨hnotify, hpc⟩, hin⟩ := h
  unfold addTrace
  rw [if_neg (by simp [hnotify]), if_neg (by simp [hpc])]
  split_ifs with hbounded hearly hlate
  · exact absurd hearly (not_lt.mpr (hin hbounded).1)
  · exact absurd hlate (not_lt.mpr (hin hbounded).2)
  · rfl
  · rfl

theorem addTrace_of_not_passes {b : Bounds τ} {t : BlkIoTrace} (h : ¬ Passes clock b t) :
    addTrace clock b t = .released ∨
      addTrace clock b t = .done ∧ b.timeBounded = true ∧ b.tAend < clock.bitTime t.time := by
  unfold addTrace
  split_ifs with hnotify hpc hbounded hearly hlate
  · exact .inl rfl
  · exact .inl rfl
  · exact .inl rfl
  · exact .inr ⟨rfl, hbounded, hlate⟩
  · refine absurd ⟨⟨?_, ?_⟩, fun _ => ⟨not_lt.mp hearly, not_lt.mp hlate⟩⟩ h
    · exact Bool.eq_false_iff.mpr hnotify
    · exact Bool.eq_false_iff.mpr hpc
  · exact absurd ⟨⟨Bool.eq_false_iff.mpr hnotify, Bool.eq_false_iff.mpr hpc⟩,
      fun hb => absurd hb hbounded⟩ h

/-- **In order of time** the records that are analysed are those that pass: nothing behind the one that
stops the reading would. -/
theorem process_eq_filter (b : Bounds τ) {ts : List BlkIoTrace}
    (hsorted : ts.Pairwise fun t u => t.time ≤ u.time) :
    process clock b ts = ts.filter (Passes clock b ·) := by
  induction ts with
  | nil => rfl
  | cons t ts ih =>
    obtain ⟨hfirst, hrest⟩ := List.pairwise_cons.mp hsorted
    rw [process]
    by_cases hpass : Passes clock b t
    · rw [addTrace_eq_analysed hpass, List.filter_cons_of_pos (by simpa using hpass)]
      exact congrArg (t :: ·) (ih hrest)
    rw [List.filter_cons_of_neg (by simpa using hpass)]
    rcases addTrace_of_not_passes hpass with hrel | ⟨hdone, hbounded, hlate⟩
    · rw [hrel]
      exact ih hrest
    · rw [hdone]
      symm
      rw [List.filter_eq_nil_iff]
      intro u hu hpassed
      have hu := ((of_decide_eq_true hpassed).2 hbounded).2
      have hle := clock.mono (hfirst u ‹_›)
      exact absurd (hlate.trans_le (hle.trans hu)) (lt_irrefl _)

/-- A record is tested for what it should be, except that without `-T` the end is 0. -/
theorem passes_iff {start stop : Option τ} {t : BlkIoTrace} :
    Passes clock (handleArgs clock start stop) t ↔ InBounds clock start stop t ∧
      (start.isSome → stop = none → clock.bitTime t.time ≤ clock.zero) := by
  have hpos : clock.zero ≤ clock.bitTime t.time := by
    rw [← clock.bitTime_zero]
    exact clock.mono (UInt64.le_iff_toNat_le.mpr (Nat.zero_le _))
  unfold Passes InBounds handleArgs
  cases start <;> cases stop <;> simp [and_assoc, hpos]

end

/-! ## Times as rationals -/

/-- The times themselves. -/
def exactTime : BitTime ℚ where
  bitTime t := t.toNat / 1000000000
  zero := 0
  mono a b h := div_le_div_of_nonneg_right (Nat.cast_le.mpr (UInt64.le_iff_toNat_le.mp h)) (by norm_num)
  bitTime_zero := by norm_num

/-- A queue record at a time. -/
def queuedAt (time : UInt64) : BlkIoTrace where
  magic := 0x65617407
  sequence := 1
  time := time
  sector := 0
  bytes := 4096
  action := 0x01100001
  pid := 1
  device := 1
  cpu := 0
  error := 0
  pduLen := 0
  pdu := []

end Blktrace.Btt
