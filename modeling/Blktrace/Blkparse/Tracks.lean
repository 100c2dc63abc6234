import Blktrace.Blkparse.Dump

/-!
# What a track has seen

The purpose of the tracks, without their memory: a live track of a sector knows the last `G`, `I`
and `D` (or `Q`, on a remapper) recorded on it since it was made. `Watch` is the map of them, and
`Follows` its connection to `rb_track`: a time that was recorded is there, any other is what
`malloc` left.
-/

namespace Blktrace.Blkparse

/-- A live track: the allocation it lies in, and the times recorded on it. -/
structure Life where
  born : Nat
  allocated : Option UInt64 := none
  queued : Option UInt64 := none
  dispatched : Option UInt64 := none
deriving DecidableEq

/-- The live tracks of a device by sector, and the number of tracks made so far. -/
structure Watch where
  live : UInt64 → Option Life := fun _ => none
  count : Nat := 0

/-- What `dump_trace_fs` is to do with a record, if it gets it. -/
def fsAct (t : BlkIoTrace) : Option BlkTa :=
  if t.isMessage || t.hasTc blkTcPc then none else BlkTa.ofAction t.action

namespace Watch

variable (w : Watch) (t : BlkIoTrace)

/-- The track of a sector, a new one if it has none. -/
def track (sector : UInt64) : Life := (w.live sector).getD { born := w.count }

/-- Something recorded on the track of a sector, which comes to life if it has to. -/
def record (sector : UInt64) (f : Life → Life) : Watch where
  live := Function.update w.live sector (some (f (w.track sector)))
  count := if (w.live sector).isSome then w.count else w.count + 1

/-- The track behind a front merge starts earlier now; it is dropped if one starts there. -/
def frontmerge : Watch :=
  match w.live (t.sector + t.tSec.toUInt64) with
  | none => w
  | some life =>
    let live := Function.update w.live (t.sector + t.tSec.toUInt64) none
    match live t.sector with
    | some _ => { w with live := live }
    | none => { w with live := Function.update live t.sector (some life) }

/-- What a record does to the live tracks. -/
def step (remapper : Bool) : Watch :=
  match fsAct t with
  | some .getrq => w.record t.sector fun l => { l with allocated := some t.time }
  | some .insert => w.record t.sector fun l => { l with queued := some t.time }
  | some .queue =>
    if remapper then w.record t.sector fun l => { l with dispatched := some t.time } else w
  | some .issue =>
    if t.hasTc blkTcFs && (w.live t.sector).isSome then
      w.record t.sector fun l => { l with dispatched := some t.time }
    else w
  | some .frontmerge => w.frontmerge t
  | some .complete => { w with live := Function.update w.live t.sector none }
  | _ => w

/-- The live tracks after a sequence of records. -/
def after (remapper : Bool) (ts : List BlkIoTrace) : Watch :=
  ts.foldl (fun w t => w.step t remapper) w

/-- The time an elapsed time counts from: the last `G` for an `I`, the last `I` for a `D`, the
last `D` for a `C`. -/
def start : Option UInt64 :=
  match fsAct t with
  | some .insert => (w.live t.sector).bind Life.allocated
  | some .issue => (w.live t.sector).bind Life.queued
  | some .complete => (w.live t.sector).bind Life.dispatched
  | _ => none

/-- What is printed as elapsed time, with the memory the tracks were made in. -/
def elapsed (malloc : Nat → IoTrack) : UInt64 :=
  match fsAct t with
  | some .insert =>
    let life := w.track t.sector
    let allocation := life.allocated.getD (malloc life.born).allocationTime
    if allocation = 0 then noElapsed else t.time - allocation
  | some .issue =>
    match t.hasTc blkTcFs, w.live t.sector with
    | true, some life => t.time - life.queued.getD (malloc life.born).queueTime
    | _, _ => noElapsed
  | some .complete =>
    match w.live t.sector with
    | some life => t.time - life.dispatched.getD (malloc life.born).dispatchTime
    | none => noElapsed
  | _ => noElapsed

/-- The record counts from a time that was recorded, if it counts at all: an `I` always does, a
`D` and a `C` where there is a track. -/
def Seen : Prop :=
  match fsAct t with
  | some .insert => (w.start t).isSome
  | some .issue => t.hasTc blkTcFs = true → (w.live t.sector).isSome → (w.start t).isSome
  | some .complete => (w.live t.sector).isSome → (w.start t).isSome
  | _ => True

/-- What is printed, as far as it is not up to the memory. -/
def fixed : Option UInt64 :=
  match fsAct t with
  | some .insert => (w.start t).map fun g => if g = 0 then noElapsed else t.time - g
  | some .issue =>
    if t.hasTc blkTcFs && (w.live t.sector).isSome then (w.start t).map (t.time - ·)
    else some noElapsed
  | some .complete =>
    if (w.live t.sector).isSome then (w.start t).map (t.time - ·) else some noElapsed
  | _ => some noElapsed

variable {w t}

theorem fixed_isSome : (w.fixed t).isSome ↔ w.Seen t := by
  unfold fixed Seen
  split
  · simp
  · split <;> simp_all
  · split <;> simp_all
  · simp

instance : Decidable (w.Seen t) := decidable_of_iff _ fixed_isSome

theorem start_insert (h : fsAct t = some .insert) :
    w.start t = (w.track t.sector).allocated := by
  unfold start track
  cases w.live t.sector <;> simp [h]

/-- What is fixed is printed, whatever the memory. -/
theorem elapsed_of_fixed {e : UInt64} (h : w.fixed t = some e) (malloc : Nat → IoTrack) :
    w.elapsed t malloc = e := by
  unfold fixed at h
  unfold elapsed
  cases hact : fsAct t with
  | none => simpa [hact] using h
  | some ta =>
    cases ta <;> simp only [hact, Option.some.injEq] at h ⊢
    case insert =>
      rw [start_insert hact, Option.map_eq_some_iff] at h
      obtain ⟨g, hg, rfl⟩ := h
      simp [hg]
    case issue =>
      cases hfs : t.hasTc blkTcFs <;> cases hl : w.live t.sector <;>
        simp only [hfs, hl, start, hact, Option.bind_some, Option.isSome, Bool.true_and,
          Bool.false_and, Bool.false_eq_true, if_true, if_false, Option.map_eq_some_iff,
          Option.some.injEq] at h ⊢
      all_goals
        first
        | exact h
        | obtain ⟨x, hx, rfl⟩ := h
          simp [hx]
    case complete =>
      cases hl : w.live t.sector with
      | none => simpa [hl] using h
      | some life =>
        simp only [hl, start, hact, Option.bind_some, Option.isSome, if_true,
          Option.map_eq_some_iff] at h
        obtain ⟨x, hx, rfl⟩ := h
        simp [hx]
    all_goals exact h

/-- What is not fixed is up to the memory. -/
theorem elapsed_of_not_seen (h : ¬ w.Seen t) :
    ∃ malloc malloc', w.elapsed t malloc ≠ w.elapsed t malloc' := by
  -- memory in which a time that was never set is `x`
  let junk (x : UInt64) : Nat → IoTrack := fun _ => ⟨0, x, x, x, x⟩
  refine ⟨junk 1, junk 2, fun heq => ?_⟩
  have hsub : t.time - 1 ≠ t.time - 2 := by
    intro h12
    simpa using congrArg (fun y => t.time - y) h12
  unfold Seen at h
  split at h
  case h_1 hact =>
    rw [start_insert hact, Option.not_isSome_iff_eq_none] at h
    simp only [elapsed, hact, h, junk, Option.getD_none] at heq
    exact hsub heq
  case h_2 hact =>
    obtain ⟨hfs, h⟩ := Classical.not_imp.mp h
    obtain ⟨hlive, h⟩ := Classical.not_imp.mp h
    obtain ⟨life, hl⟩ := Option.isSome_iff_exists.mp hlive
    have hq : life.queued = none := by simpa [start, hact, hl] using h
    simp only [elapsed, hact, hfs, hl, hq, junk, Option.getD_none] at heq
    exact hsub heq
  case h_3 hact =>
    obtain ⟨hlive, h⟩ := Classical.not_imp.mp h
    obtain ⟨life, hl⟩ := Option.isSome_iff_exists.mp hlive
    have hq : life.dispatched = none := by simpa [start, hact, hl] using h
    simp only [elapsed, hact, hl, hq, junk, Option.getD_none] at heq
    exact hsub heq
  case h_4 => exact h trivial

end Watch

/-! ## The times in memory -/

/-- The memory of a track. -/
structure InMemory (malloc : Nat → IoTrack) (life : Life) (iot : IoTrack) : Prop where
  allocated : iot.allocationTime = life.allocated.getD (malloc life.born).allocationTime
  queued : iot.queueTime = life.queued.getD (malloc life.born).queueTime
  dispatched : iot.dispatchTime = life.dispatched.getD (malloc life.born).dispatchTime

/-- `rb_track` of a device holds the live tracks. -/
structure Follows (malloc : Nat → IoTrack) (pdi : Nat) (d : Dumper) (w : Watch) : Prop where
  tracks : ∀ sector, Option.Rel (InMemory malloc) (w.live sector) ((d.devs pdi).rbTrack sector)
  count : w.count = d.mallocs

/-! ## What leaves the tracks alone -/

namespace Dumper

variable (o : Opts) (malloc : Nat → IoTrack) (d : Dumper) (pdi : Nat) (t : BlkIoTrace)

@[simp] theorem modifyDev_self (f : DevStats → DevStats) :
    (d.modifyDev pdi f).devs pdi = f (d.devs pdi) := Function.update_self _ _ _

@[simp] theorem modifyDev_mallocs (f : DevStats → DevStats) :
    (d.modifyDev pdi f).mallocs = d.mallocs := rfl

@[simp] theorem modifyDev_lines (f : DevStats → DevStats) :
    (d.modifyDev pdi f).lines = d.lines := rfl

@[simp] theorem processFmt_devs (act : Act) (e : UInt64) :
    (d.processFmt act t e).devs = d.devs := rfl

@[simp] theorem processFmt_mallocs (act : Act) (e : UInt64) :
    (d.processFmt act t e).mallocs = d.mallocs := rfl

@[simp] theorem processFmt_lines (act : Act) (e : UInt64) :
    (d.processFmt act t e).lines = d.lines ++ [⟨act, t, e⟩] := rfl

@[simp] theorem account_devs (cpu : UInt32) (f : IoStats → IoStats) :
    (d.account o pdi cpu t f).devs = d.devs := by
  unfold account
  split <;> rfl

@[simp] theorem account_mallocs (cpu : UInt32) (f : IoStats → IoStats) :
    (d.account o pdi cpu t f).mallocs = d.mallocs := by
  unfold account
  split <;> rfl

@[simp] theorem account_lines (cpu : UInt32) (f : IoStats → IoStats) :
    (d.account o pdi cpu t f).lines = d.lines := by
  unfold account
  split <;> rfl

@[simp] theorem trackWait_devs (ppm : UInt32) (kind : Wait) (e : UInt64) :
    (d.trackWait o t ppm kind e).devs = d.devs := by
  unfold trackWait
  split <;> rfl

@[simp] theorem trackWait_mallocs (ppm : UInt32) (kind : Wait) (e : UInt64) :
    (d.trackWait o t ppm kind e).mallocs = d.mallocs := by
  unfold trackWait
  split <;> rfl

@[simp] theorem trackWait_lines (ppm : UInt32) (kind : Wait) (e : UInt64) :
    (d.trackWait o t ppm kind e).lines = d.lines := by
  unfold trackWait
  split <;> rfl

@[simp] theorem findTrack_lines (pid : UInt32) (sector : UInt64) :
    (d.findTrack malloc pdi pid sector).1.lines = d.lines := by
  unfold findTrack
  split <;> rfl

@[simp] theorem depthDown_rbTrack (w : Bool) :
    ((d.depthDown pdi w).devs pdi).rbTrack = (d.devs pdi).rbTrack := by
  unfold depthDown
  split <;> simp

@[simp] theorem depthDown_mallocs (w : Bool) : (d.depthDown pdi w).mallocs = d.mallocs := by
  unfold depthDown
  split <;> rfl

@[simp] theorem depthDown_lines (w : Bool) : (d.depthDown pdi w).lines = d.lines := by
  unfold depthDown
  split <;> rfl

@[simp] theorem depthUp_rbTrack (w : Bool) :
    ((d.depthUp pdi w).devs pdi).rbTrack = (d.devs pdi).rbTrack := by
  simp [depthUp]

@[simp] theorem depthUp_mallocs (w : Bool) : (d.depthUp pdi w).mallocs = d.mallocs := rfl

@[simp] theorem depthUp_lines (w : Bool) : (d.depthUp pdi w).lines = d.lines := rfl

@[simp] theorem setTrack_lines (sector : UInt64) (iot : IoTrack) :
    (d.setTrack pdi sector iot).lines = d.lines := rfl

@[simp] theorem eraseTrack_lines (sector : UInt64) : (d.eraseTrack pdi sector).lines = d.lines := rfl

@[simp] theorem logTrackFrontmerge_lines : (d.logTrackFrontmerge o pdi t).lines = d.lines := by
  unfold logTrackFrontmerge
  split
  · rfl
  · split <;> rfl

@[simp] theorem logTrackGetrq_lines : (d.logTrackGetrq o malloc pdi t).lines = d.lines := by
  unfold logTrackGetrq
  split
  · rfl
  · exact d.findTrack_lines malloc pdi t.pid t.sector

@[simp] theorem logTrackQueue_lines (dev : UInt32) :
    (d.logTrackQueue o malloc pdi t dev).lines = d.lines := by
  unfold logTrackQueue
  split
  · rfl
  · split
    · rfl
    · exact d.findTrack_lines malloc pdi t.pid t.sector

@[simp] theorem logTrackInsert_lines : (d.logTrackInsert o malloc pdi t).1.lines = d.lines := by
  have hfind := d.findTrack_lines malloc pdi t.pid t.sector
  unfold logTrackInsert
  split
  · rfl
  · dsimp only
    split
    · exact hfind
    · rw [trackWait_lines]
      exact hfind

@[simp] theorem logTrackIssue_lines : (d.logTrackIssue o pdi t).1.lines = d.lines := by
  unfold logTrackIssue
  split
  · rfl
  · split
    · rfl
    · split
      · rfl
      · exact trackWait_lines ..

@[simp] theorem logTrackComplete_lines : (d.logTrackComplete o pdi t).1.lines = d.lines := by
  unfold logTrackComplete
  split
  · rfl
  · split
    · rfl
    · exact trackWait_lines ..

end Dumper

section Follow

variable {malloc : Nat → IoTrack} {pdi : Nat} {d d' : Dumper} {w : Watch}

theorem Follows.congr (h : Follows malloc pdi d w)
    (htracks : (d'.devs pdi).rbTrack = (d.devs pdi).rbTrack) (hcount : d'.mallocs = d.mallocs) :
    Follows malloc pdi d' w where
  tracks sector := by
    rw [htracks]
    exact h.tracks sector
  count := by rw [hcount]; exact h.count

/-! ## The operations of the tree -/

/-- `find_track` and a change of the track it returns. -/
theorem Follows.record (h : Follows malloc pdi d w) (pid : UInt32) (sector : UInt64)
    {f : Life → Life} {g : IoTrack → IoTrack}
    (hfg : ∀ life iot, InMemory malloc life iot → InMemory malloc (f life) (g iot)) :
    Follows malloc pdi ((d.findTrack malloc pdi pid sector).1.setTrack pdi sector
      (g (d.findTrack malloc pdi pid sector).2)) (w.record sector f) ∧
    InMemory malloc (w.track sector) (d.findTrack malloc pdi pid sector).2 := by
  have hsec := h.tracks sector
  unfold Dumper.findTrack Dumper.findTrack' Watch.record Watch.track
  generalize hl : w.live sector = live at hsec ⊢
  generalize hi : (d.devs pdi).rbTrack sector = mem at hsec ⊢
  cases hsec with
  | some hshow =>
    rename_i life iot
    refine ⟨⟨fun s => ?_, h.count⟩, hshow⟩
    by_cases hs : s = sector
    · subst hs
      simpa [Dumper.setTrack] using hfg _ _ hshow
    · simpa [Dumper.setTrack, Function.update_of_ne hs] using h.tracks s
  | none =>
    have hnew : InMemory malloc { born := w.count }
        { malloc d.mallocs with ppm := (d.procs.ppmOf pid).2.pid } := by
      rw [h.count]
      exact ⟨rfl, rfl, rfl⟩
    refine ⟨⟨fun s => ?_, ?_⟩, hnew⟩
    · by_cases hs : s = sector
      · subst hs
        simpa [Dumper.setTrack] using hfg _ _ hnew
      · simpa [Dumper.setTrack, Dumper.trackRbInsert, hi, Function.update_of_ne hs] using h.tracks s
    · simpa [Dumper.setTrack] using h.count

/-- A change of a track that is there. -/
theorem Follows.set (h : Follows malloc pdi d w) {sector : UInt64} {life : Life} {iot : IoTrack}
    (hlive : w.live sector = some life) {f : Life → Life} (hshow : InMemory malloc (f life) iot) :
    Follows malloc pdi (d.setTrack pdi sector iot) (w.record sector f) := by
  refine ⟨fun s => ?_, ?_⟩
  · by_cases hs : s = sector
    · subst hs
      simpa [Dumper.setTrack, Watch.record, Watch.track, hlive] using hshow
    · simpa [Dumper.setTrack, Watch.record, Function.update_of_ne hs] using h.tracks s
  · simpa [Dumper.setTrack, Watch.record, hlive] using h.count

/-- `rb_erase`. -/
theorem Follows.erase (h : Follows malloc pdi d w) (sector : UInt64) :
    Follows malloc pdi (d.eraseTrack pdi sector)
      { w with live := Function.update w.live sector none } := by
  refine ⟨fun s => ?_, h.count⟩
  by_cases hs : s = sector
  · subst hs
    simp [Dumper.eraseTrack]
  · simpa [Dumper.eraseTrack, Function.update_of_ne hs] using h.tracks s

/-- `log_track_frontmerge`. -/
theorem Follows.frontmerge (h : Follows malloc pdi d w) {o : Opts} (ht : o.trackIos = true)
    (t : BlkIoTrace) : Follows malloc pdi (d.logTrackFrontmerge o pdi t) (w.frontmerge t) := by
  have hsec := h.tracks (t.sector + t.tSec.toUInt64)
  have her := h.erase (t.sector + t.tSec.toUInt64)
  have hdest := her.tracks t.sector
  have hback : t.sector + t.tSec.toUInt64 - t.tSec.toUInt64 = t.sector := by
    rw [UInt64.add_sub_cancel]
  simp only [Dumper.logTrackFrontmerge, Dumper.findTrack', Watch.frontmerge, ht, hback,
    Bool.not_true, Bool.false_eq_true, if_false]
  generalize w.live (t.sector + t.tSec.toUInt64) = live at hsec ⊢
  generalize (d.devs pdi).rbTrack (t.sector + t.tSec.toUInt64) = mem at hsec ⊢
  cases hsec with
  | none => exact h
  | some hshow =>
    rename_i life iot
    dsimp only at hdest ⊢
    -- the track is out of the tree; what is at its new place decides
    generalize hl : Function.update w.live (t.sector + t.tSec.toUInt64) none t.sector = there
      at hdest ⊢
    generalize hm : ((d.eraseTrack pdi (t.sector + t.tSec.toUInt64)).devs pdi).rbTrack t.sector =
      memThere at hdest
    cases hdest with
    | some _ => exact her.congr (by simp [Dumper.trackRbInsert, hm]) rfl
    | none =>
      refine ⟨fun s => ?_, h.count⟩
      by_cases hs : s = t.sector
      · subst hs
        simpa [Dumper.trackRbInsert, hm] using hshow
      · simpa [Dumper.trackRbInsert, hm, Function.update_of_ne hs] using her.tracks s

/-! ## A record -/

/-- The elapsed time of a record that prints one, and where it does. -/
def timedAct (t : BlkIoTrace) : Option Act :=
  match BlkTa.ofAction t.action with
  | some .insert => some .I
  | some .issue => some .D
  | some .complete => some .C
  | _ => none

variable {o : Opts} (ht : o.trackIos = true)

include ht

theorem Follows.getrq (h : Follows malloc pdi d w) (t : BlkIoTrace) :
    Follows malloc pdi (d.logTrackGetrq o malloc pdi t)
      (w.record t.sector fun l => { l with allocated := some t.time }) := by
  simp only [Dumper.logTrackGetrq, ht, Bool.not_true, Bool.false_eq_true, if_false]
  exact (h.record t.pid t.sector (f := fun l => { l with allocated := some t.time })
    (g := fun iot => { iot with allocationTime := t.time }) fun _ _ hs => ⟨rfl, hs.queued, hs.dispatched⟩).1

theorem Follows.queue (h : Follows malloc pdi d w) (t : BlkIoTrace) (dev : UInt32) :
    Follows malloc pdi (d.logTrackQueue o malloc pdi t dev)
      (if Dumper.isRemapper dev then
        w.record t.sector fun l => { l with dispatched := some t.time } else w) := by
  simp only [Dumper.logTrackQueue, ht, Bool.not_true, Bool.false_eq_true, if_false]
  cases Dumper.isRemapper dev with
  | false => exact h
  | true =>
    exact (h.record t.pid t.sector (f := fun l => { l with dispatched := some t.time })
      (g := fun iot => { iot with dispatchTime := t.time }) fun _ _ hs => ⟨hs.allocated, hs.queued, rfl⟩).1

theorem Follows.insert (h : Follows malloc pdi d w) {t : BlkIoTrace}
    (hact : fsAct t = some .insert) :
    Follows malloc pdi (d.logTrackInsert o malloc pdi t).1
      (w.record t.sector fun l => { l with queued := some t.time }) ∧
    (d.logTrackInsert o malloc pdi t).2 = w.elapsed t malloc := by
  obtain ⟨hf, hs⟩ := h.record t.pid t.sector (g := fun iot => { iot with queueTime := t.time })
    (f := fun l => { l with queued := some t.time })
    fun _ _ hs => ⟨hs.allocated, rfl, hs.dispatched⟩
  simp only [Dumper.logTrackInsert, Watch.elapsed, hact, ht, Bool.not_true, Bool.false_eq_true,
    if_false, ← hs.allocated]
  split
  · exact ⟨hf, rfl⟩
  · exact ⟨hf.congr (by simp) (by simp), rfl⟩

theorem Follows.issue (h : Follows malloc pdi d w) {t : BlkIoTrace}
    (hact : fsAct t = some .issue) :
    Follows malloc pdi (d.logTrackIssue o pdi t).1
      (if t.hasTc blkTcFs && (w.live t.sector).isSome then
        w.record t.sector fun l => { l with dispatched := some t.time } else w) ∧
    (d.logTrackIssue o pdi t).2 = w.elapsed t malloc := by
  have hsec := h.tracks t.sector
  simp only [Dumper.logTrackIssue, Dumper.findTrack', Watch.elapsed, hact, ht, Bool.not_true,
    Bool.false_eq_true, if_false]
  cases t.hasTc blkTcFs with
  | false => exact ⟨h, rfl⟩
  | true =>
    generalize hl : w.live t.sector = live at hsec ⊢
    generalize (d.devs pdi).rbTrack t.sector = mem at hsec ⊢
    cases hsec with
    | none => exact ⟨h, rfl⟩
    | some hshow =>
      rename_i life iot
      have hdispatched : InMemory malloc { life with dispatched := some t.time }
          { iot with dispatchTime := t.time } := ⟨hshow.allocated, hshow.queued, rfl⟩
      refine ⟨(h.set (f := fun l => { l with dispatched := some t.time }) hl hdispatched).congr
        (by simp) (by simp), ?_⟩
      simp [hshow.queued]

theorem Follows.complete (h : Follows malloc pdi d w) {t : BlkIoTrace}
    (hact : fsAct t = some .complete) :
    Follows malloc pdi (d.logTrackComplete o pdi t).1
      { w with live := Function.update w.live t.sector none } ∧
    (d.logTrackComplete o pdi t).2 = w.elapsed t malloc := by
  have hsec := h.tracks t.sector
  have her := h.erase t.sector
  simp only [Dumper.logTrackComplete, Dumper.findTrack', Watch.elapsed, hact, ht, Bool.not_true,
    Bool.false_eq_true, if_false]
  generalize hl : w.live t.sector = live at hsec ⊢
  generalize (d.devs pdi).rbTrack t.sector = mem at hsec ⊢
  cases hsec with
  | none =>
    have hsame : Function.update w.live t.sector none = w.live := by
      rw [← hl, Function.update_eq_self]
    rw [hsame]
    exact ⟨h, rfl⟩
  | some hshow =>
    refine ⟨her.congr (by simp [Dumper.eraseTrack]) (by simp [Dumper.eraseTrack]), ?_⟩
    simp [hshow.dispatched]

/-- A record handled by `dump_trace_fs`. -/
theorem Follows.dumpTraceFs (h : Follows malloc pdi d w) (dev cpu : UInt32) {t : BlkIoTrace}
    (hfs : fsAct t = BlkTa.ofAction t.action) :
    Follows malloc pdi (d.dumpTraceFs o malloc pdi dev cpu t) (w.step t (Dumper.isRemapper dev)) ∧
    ∀ act ∈ timedAct t, (d.dumpTraceFs o malloc pdi dev cpu t).lines =
      d.lines ++ [⟨act, t, w.elapsed t malloc⟩] := by
  simp only [Watch.step, Dumper.dumpTraceFs, timedAct, ← hfs]
  cases hact : fsAct t with
  | none => exact ⟨h, by simp⟩
  | some ta =>
    cases ta
    case getrq => exact ⟨(h.getrq ht t).congr rfl rfl, by simp⟩
    case queue =>
      exact ⟨(h.queue ht t dev).congr (by simp [Dumper.accountQueue])
        (by simp [Dumper.accountQueue]), by simp⟩
    case insert =>
      obtain ⟨hf, he⟩ := h.insert ht hact
      exact ⟨hf.congr rfl rfl, by simp [he]⟩
    case issue =>
      have h' : Follows malloc pdi ((d.accountIssue o pdi cpu t (t.hasTc blkTcWrite)).depthUp pdi
          (t.hasTc blkTcWrite)) w :=
        h.congr (by simp [Dumper.accountIssue]) (by simp [Dumper.accountIssue])
      obtain ⟨hf, he⟩ := h'.issue ht hact
      have hlines : (d.accountIssue o pdi cpu t (t.hasTc blkTcWrite)).lines = d.lines := d.account_lines ..
      exact ⟨hf.congr rfl rfl, by simp [hlines, he]⟩
    case complete =>
      have h' : Follows malloc pdi ((d.depthDown pdi (t.hasTc blkTcWrite)).accountC o pdi cpu t
          (t.hasTc blkTcWrite) t.bytes.toInt32) w :=
        h.congr (by simp [Dumper.accountC]) (by simp [Dumper.accountC])
      obtain ⟨hf, he⟩ := h'.complete ht hact
      have hlines : ((d.depthDown pdi (t.hasTc blkTcWrite)).accountC o pdi cpu t (t.hasTc blkTcWrite)
          t.bytes.toInt32).lines = d.lines := by simp [Dumper.accountC]
      exact ⟨hf.congr rfl rfl, by simp [hlines, he]⟩
    case frontmerge =>
      have h' : Follows malloc pdi (d.accountM o pdi cpu t (t.hasTc blkTcWrite)) w :=
        h.congr (by simp [Dumper.accountM]) (by simp [Dumper.accountM])
      exact ⟨(h'.frontmerge ht t).congr (by simp [Dumper.logMerge]) (by simp [Dumper.logMerge]),
        by simp⟩
    all_goals
      refine ⟨h.congr ?_ ?_, by simp⟩ <;>
        simp [Dumper.accountM, Dumper.logMerge, Dumper.accountRequeue, Dumper.accountUnplug]

omit ht in
/-- A packet command leaves the tracks alone, and prints no elapsed time. -/
theorem Follows.dumpTracePc (h : Follows malloc pdi d w) (cpu : UInt32) (t : BlkIoTrace) :
    Follows malloc pdi (d.dumpTracePc o pdi cpu t) w ∧
    ∀ act ∈ timedAct t, (d.dumpTracePc o pdi cpu t).lines = d.lines ++ [⟨act, t, noElapsed⟩] := by
  unfold Dumper.dumpTracePc
  cases hact : BlkTa.ofAction t.action with
  | none => exact ⟨h, by simp [timedAct, hact]⟩
  | some ta =>
    cases ta <;> refine ⟨h.congr ?_ ?_, ?_⟩ <;>
      simp [timedAct, hact, Dumper.accountPcQueue, Dumper.accountPcRequeue, Dumper.accountPcIssue,
        Dumper.accountPcC]

omit ht in
theorem timedAct_message {t : BlkIoTrace} (hm : t.isMessage = true) : timedAct t = none := by
  have hact : t.action = blkTnMessage := by simpa [BlkIoTrace.isMessage] using hm
  rw [timedAct, hact]
  decide

/-- **A record** handed to `dump_trace`, and the line printed for an `I`, a `D` or a `C`. -/
theorem Follows.dumpTrace (h : Follows malloc pdi d w) (dev cpu : UInt32) (t : BlkIoTrace) :
    Follows malloc pdi (d.dumpTrace o malloc pdi dev cpu t) (w.step t (Dumper.isRemapper dev)) ∧
    ∀ act ∈ timedAct t, (d.dumpTrace o malloc pdi dev cpu t).lines =
      d.lines ++ [⟨act, t, w.elapsed t malloc⟩] := by
  suffices hs : Follows malloc pdi (d.dumpText o malloc pdi dev cpu t)
      (w.step t (Dumper.isRemapper dev)) ∧
      ∀ act ∈ timedAct t, (d.dumpText o malloc pdi dev cpu t).lines =
        d.lines ++ [⟨act, t, w.elapsed t malloc⟩] from
    ⟨hs.1.congr (by simp [Dumper.dumpTrace]) rfl, hs.2⟩
  unfold Dumper.dumpText
  cases hm : t.isMessage with
  | true => simpa [Watch.step, fsAct, hm, timedAct_message hm] using h
  | false =>
    cases hpc : t.hasTc blkTcPc with
    | true =>
      simpa [Watch.step, Watch.elapsed, fsAct, hpc] using h.dumpTracePc (o := o) cpu t
    | false => simpa using h.dumpTraceFs ht dev cpu (t := t) (by simp [fsAct, hm, hpc])

end Follow

end Blktrace.Blkparse
