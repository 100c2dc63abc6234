import Blktrace.Blkparse.Tracks

/-!
# The elapsed times of `-t`

An `I` without a `G` before it, a `D` without an `I` and a `C` without a `D` find a track all the
same when something else has made it, and then count from a time that was never set. Apart from
that, and from a `G` at time 0, which is taken for a missing one, the times printed are right.
-/

namespace Blktrace.Blkparse

/-- A record of the file system. -/
def isFs (t : BlkIoTrace) : Bool := t.hasTc blkTcFs && !t.hasTc blkTcPc

/-- The records of one device handed to `dump_trace`, one after the other. -/
def dumpAll (o : Opts) (malloc : Nat → IoTrack) (pdi : Nat) (dev : UInt32) (d : Dumper)
    (ts : List BlkIoTrace) : Dumper :=
  ts.foldl (fun d t => d.dumpTrace o malloc pdi dev t.cpu t) d

/-- An elapsed time as it should be: the time since the start, or -1 without one. -/
def Right (start : Option UInt64) (time e : UInt64) : Prop :=
  match start with
  | some x => x.toNat + e.toNat = time.toNat
  | none => e = noElapsed

/-- Every `I`, `D` and `C` is printed with the time since what the live track of its sector has
seen. -/
def TimesRight (o : Opts) (malloc : Nat → IoTrack) (pdi : Nat) (dev : UInt32) (d : Dumper)
    (ts : List BlkIoTrace) : Prop :=
  ∀ pre t post, ts = pre ++ t :: post → ∀ act ∈ timedAct t,
    ∃ e, (dumpAll o malloc pdi dev d (pre ++ [t])).lines =
        (dumpAll o malloc pdi dev d pre).lines ++ [⟨act, t, e⟩] ∧
      Right ((({ count := d.mallocs } : Watch).after (Dumper.isRemapper dev) pre).start t) t.time e

namespace Watch

variable (w : Watch) (t : BlkIoTrace)

/-- The record finds what it needs, and the `G` an `I` counts from has not a time that looks like
a missing one. -/
def Known : Prop :=
  w.Seen t ∧ (fsAct t = some .insert → w.start t = some 0 → t.time = noElapsed)

/-- Every record of a sequence finds what it needs. -/
def AllKnown (remapper : Bool) : Watch → List BlkIoTrace → Prop
  | _, [] => True
  | w, t :: ts => w.Known t ∧ AllKnown remapper (w.step t remapper) ts

theorem allKnown_iff (remapper : Bool) (ts : List BlkIoTrace) :
    AllKnown remapper w ts ↔
      ∀ pre t post, ts = pre ++ t :: post → (w.after remapper pre).Known t := by
  induction ts generalizing w with
  | nil => simp [AllKnown]
  | cons t ts ih =>
    rw [AllKnown, ih]
    constructor
    · rintro ⟨h, hts⟩ pre t' post heq
      cases pre with
      | nil =>
        obtain ⟨rfl, -⟩ := List.cons.inj heq
        exact h
      | cons t'' pre =>
        rw [List.cons_append] at heq
        obtain ⟨rfl, hts'⟩ := List.cons.inj heq
        exact hts pre t' post hts'
    · intro h
      exact ⟨h [] t ts rfl, fun pre t' post heq => h (t :: pre) t' post (by rw [heq]; rfl)⟩

/-! ## Times only grow -/

/-- Nothing on a live track is later than `x`. -/
def Before (x : UInt64) : Prop :=
  ∀ sector life, w.live sector = some life →
    ∀ y, y ∈ life.allocated ∨ y ∈ life.queued ∨ y ∈ life.dispatched → y ≤ x

variable {w t} {x : UInt64}

theorem Before.track (h : w.Before x) (sector : UInt64) {y : UInt64}
    (hy : y ∈ (w.track sector).allocated ∨ y ∈ (w.track sector).queued ∨
      y ∈ (w.track sector).dispatched) : y ≤ x := by
  unfold Watch.track at hy
  cases hl : w.live sector with
  | none => simp [hl] at hy
  | some life => exact h sector life hl y (by simpa [hl] using hy)

theorem Before.record (h : w.Before x) (sector : UInt64) {f : Life → Life}
    (hf : ∀ y, y ∈ (f (w.track sector)).allocated ∨ y ∈ (f (w.track sector)).queued ∨
      y ∈ (f (w.track sector)).dispatched → y ≤ x) : (w.record sector f).Before x := by
  intro s life hs
  by_cases heq : s = sector
  · subst heq
    simp only [Watch.record, Function.update_self, Option.some.injEq] at hs
    subst hs
    exact hf
  · simp only [Watch.record, Function.update_of_ne heq] at hs
    exact h s life hs

theorem Before.move (h : w.Before x) (sector sector' : UInt64) {life : Life}
    (hl : w.live sector = some life) :
    let live := Function.update w.live sector none
    Before { w with live := Function.update live sector' (some life) } x := by
  intro live s life' hs
  by_cases heq : s = sector'
  · subst heq
    simp only [Function.update_self, Option.some.injEq] at hs
    subst hs
    exact h sector life hl
  · simp only [live, Function.update_of_ne heq] at hs
    by_cases heq' : s = sector
    · simp [heq'] at hs
    · simp only [Function.update_of_ne heq'] at hs
      exact h s life' hs

theorem Before.erase (h : w.Before x) (sector : UInt64) :
    Before { w with live := Function.update w.live sector none } x := by
  intro s life hs
  by_cases heq : s = sector
  · simp [heq] at hs
  · simp only [Function.update_of_ne heq] at hs
    exact h s life hs

theorem Before.frontmerge (h : w.Before x) : (w.frontmerge t).Before x := by
  unfold Watch.frontmerge
  split
  · exact h
  · rename_i life hl
    dsimp only
    split
    · exact h.erase _
    · exact h.move _ _ hl

theorem Before.step (h : w.Before x) (ht : t.time ≤ x) (remapper : Bool) :
    (w.step t remapper).Before x := by
  have hset : ∀ f : Life → Life, (∀ l, ∀ y, y ∈ (f l).allocated ∨ y ∈ (f l).queued ∨
      y ∈ (f l).dispatched → y = t.time ∨ y ∈ l.allocated ∨ y ∈ l.queued ∨ y ∈ l.dispatched) →
      (w.record t.sector f).Before x := by
    intro f hf
    apply h.record
    intro y hy
    rcases hf _ y hy with rfl | hy
    · exact ht
    · exact h.track _ hy
  unfold Watch.step
  split
  · exact hset _ fun l y hy => by grind
  · exact hset _ fun l y hy => by grind
  · split
    · exact hset _ fun l y hy => by grind
    · exact h
  · split
    · exact hset _ fun l y hy => by grind
    · exact h
  · exact h.frontmerge
  · exact h.erase _
  · exact h

theorem Before.after (h : w.Before x) (remapper : Bool) {ts : List BlkIoTrace}
    (hts : ∀ t ∈ ts, t.time ≤ x) : (w.after remapper ts).Before x := by
  induction ts generalizing w with
  | nil => exact h
  | cons t ts ih =>
    have hstep := h.step (hts t (List.mem_cons_self ..)) remapper
    exact ih hstep fun t' ht' => hts t' (List.mem_cons_of_mem _ ht')

/-- The start of a record is not after it. -/
theorem Before.start (h : w.Before t.time) {y : UInt64} (hy : w.start t = some y) :
    y ≤ t.time := by
  unfold Watch.start at hy
  split at hy
  all_goals
    first
    | cases hy
    | obtain ⟨life, hl, hy⟩ := Option.bind_eq_some_iff.mp hy
      exact h _ life hl y (by simp [hy])

end Watch

/-! ## One record -/

theorem Right.unique {start : Option UInt64} {time e e' : UInt64} (h : Right start time e)
    (h' : Right start time e') : e = e' := by
  cases start with
  | none => exact h.trans h'.symm
  | some x =>
    apply UInt64.toNat_inj.mp
    exact Nat.add_left_cancel (h.trans h'.symm)

theorem right_sub {x time : UInt64} (h : x ≤ time) : Right (some x) time (time - x) := by
  have hle : x.toNat ≤ time.toNat := UInt64.le_iff_toNat_le.mp h
  show x.toNat + (time - x).toNat = time.toNat
  rw [UInt64.toNat_sub_of_le _ _ h]
  omega

theorem right_noElapsed_iff {time : UInt64} : Right (some 0) time noElapsed ↔ time = noElapsed := by
  show 0 + noElapsed.toNat = time.toNat ↔ _
  rw [Nat.zero_add, UInt64.toNat_inj, eq_comm]

/-- A time that is not up to the memory is right, but for the one of an `I` after a `G` at 0. -/
theorem Watch.right_fixed {w : Watch} {t : BlkIoTrace} (hb : w.Before t.time)
    (hfs : t.hasTc blkTcFs = true) {e : UInt64} (he : w.fixed t = some e) :
    Right (w.start t) t.time e ↔
      (fsAct t = some .insert → w.start t = some 0 → t.time = noElapsed) := by
  have hsub : ∀ {x}, w.start t = some x → Right (w.start t) t.time (t.time - x) := by
    intro x hx
    rw [hx]
    exact right_sub (hb.start hx)
  have hnone : w.live t.sector = none → w.start t = none ∨ fsAct t = some .insert := by
    intro hl
    unfold Watch.start
    split <;> simp_all
  unfold Watch.fixed at he
  split at he
  case h_1 hact =>
    obtain ⟨g, hg, rfl⟩ := Option.map_eq_some_iff.mp he
    by_cases h0 : g = 0
    · subst h0
      rw [if_pos rfl, hg, right_noElapsed_iff]
      simp [hact]
    · rw [if_neg h0]
      refine iff_of_true (hsub hg) fun _ hzero => ?_
      exact absurd (Option.some.inj (hg.symm.trans hzero)) h0
  case h_2 hact =>
    cases hl : w.live t.sector with
    | none =>
      rw [hl] at he
      have hs := (hnone hl).resolve_right (by simp [hact])
      simp_all [Right]
    | some life =>
      simp only [hl, hfs, Option.isSome, Bool.and_self, if_true] at he
      obtain ⟨x, hx, rfl⟩ := Option.map_eq_some_iff.mp he
      simp [hact, hsub hx]
  case h_3 hact =>
    cases hl : w.live t.sector with
    | none =>
      rw [hl] at he
      have hs := (hnone hl).resolve_right (by simp [hact])
      simp_all [Right]
    | some life =>
      simp only [hl, Option.isSome, if_true] at he
      obtain ⟨x, hx, rfl⟩ := Option.map_eq_some_iff.mp he
      simp [hact, hsub hx]
  case h_4 h1 h2 h3 =>
    have hs : w.start t = none := by
      unfold Watch.start
      split <;> simp_all
    simp_all [Right]

/-- **A time is right whatever is in memory** just if the record finds what it needs. -/
theorem Watch.right_iff_known {w : Watch} {t : BlkIoTrace} (hb : w.Before t.time)
    (hfs : t.hasTc blkTcFs = true) :
    (∀ malloc, Right (w.start t) t.time (w.elapsed t malloc)) ↔ w.Known t := by
  constructor
  · intro h
    have hseen : w.Seen t := by
      by_contra hno
      obtain ⟨m, m', hne⟩ := elapsed_of_not_seen hno
      exact hne ((h m).unique (h m'))
    obtain ⟨e, he⟩ := Option.isSome_iff_exists.mp (fixed_isSome.mpr hseen)
    have hright := h fun _ => ⟨0, 0, 0, 0, 0⟩
    rw [elapsed_of_fixed he] at hright
    exact ⟨hseen, (right_fixed hb hfs he).mp hright⟩
  · rintro ⟨hseen, hzero⟩ malloc
    obtain ⟨e, he⟩ := Option.isSome_iff_exists.mp (fixed_isSome.mpr hseen)
    rw [elapsed_of_fixed he]
    exact (right_fixed hb hfs he).mpr hzero

/-! ## A sequence of records -/

section

variable {o : Opts} (ht : o.trackIos = true) {pdi : Nat}

include ht

theorem Follows.dumpAll {malloc : Nat → IoTrack} {d : Dumper} {w : Watch}
    (h : Follows malloc pdi d w) (dev : UInt32) (ts : List BlkIoTrace) :
    Follows malloc pdi (dumpAll o malloc pdi dev d ts) (w.after (Dumper.isRemapper dev) ts) := by
  induction ts generalizing d w with
  | nil => exact h
  | cons t ts ih => exact ih (h.dumpTrace ht dev t.cpu t).1

omit ht in
theorem fsAct_of_timedAct {t : BlkIoTrace} (h : timedAct t = none) :
    fsAct t ≠ some .insert ∧ fsAct t ≠ some .issue ∧ fsAct t ≠ some .complete := by
  unfold timedAct at h
  unfold fsAct
  split at h <;> split <;> simp_all

/-- What a run prints, from what its tracks have seen. -/
theorem timesRight_iff {malloc : Nat → IoTrack} {dev : UInt32} {d : Dumper}
    (hd : ∀ sector, (d.devs pdi).rbTrack sector = none) {ts : List BlkIoTrace} :
    TimesRight o malloc pdi dev d ts ↔
      ∀ pre t post, ts = pre ++ t :: post → ∀ act ∈ timedAct t,
        Right ((({ count := d.mallocs } : Watch).after (Dumper.isRemapper dev) pre).start t) t.time
          ((({ count := d.mallocs } : Watch).after (Dumper.isRemapper dev) pre).elapsed t malloc) := by
  have h0 : Follows malloc pdi d { count := d.mallocs } :=
    ⟨fun sector => by rw [hd]; exact Option.Rel.none, rfl⟩
  have hline : ∀ pre t post, ts = pre ++ t :: post → ∀ act ∈ timedAct t,
      (Blkparse.dumpAll o malloc pdi dev d (pre ++ [t])).lines =
        (Blkparse.dumpAll o malloc pdi dev d pre).lines ++ [⟨act, t,
          (({ count := d.mallocs } : Watch).after (Dumper.isRemapper dev) pre).elapsed t malloc⟩] := by
    intro pre t post heq act hact
    have hstep := ((h0.dumpAll ht dev pre).dumpTrace ht dev t.cpu t).2 act hact
    rw [← hstep, Blkparse.dumpAll, List.foldl_append]
    rfl
  constructor
  · intro h pre t post heq act hact
    obtain ⟨e, he, hright⟩ := h pre t post heq act hact
    rw [hline pre t post heq act hact] at he
    have : (({ count := d.mallocs } : Watch).after (Dumper.isRemapper dev) pre).elapsed t malloc
        = e := by simpa using he
    rwa [this]
  · intro h pre t post heq act hact
    exact ⟨_, hline pre t post heq act hact, h pre t post heq act hact⟩

/-- **The elapsed times are right** in every memory just if every record finds what it needs. -/
theorem dumpAll_timesRight {dev : UInt32} {d : Dumper}
    (hd : ∀ sector, (d.devs pdi).rbTrack sector = none) {ts : List BlkIoTrace}
    (hfs : ∀ t ∈ ts, isFs t = true) (hsorted : ts.Pairwise fun t t' => t.time ≤ t'.time) :
    (∀ malloc, TimesRight o malloc pdi dev d ts) ↔
      Watch.AllKnown (Dumper.isRemapper dev) { count := d.mallocs } ts := by
  have hone : ∀ pre t post, ts = pre ++ t :: post →
      ((∀ malloc, Right ((({ count := d.mallocs } : Watch).after (Dumper.isRemapper dev) pre).start t)
          t.time ((({ count := d.mallocs } : Watch).after (Dumper.isRemapper dev) pre).elapsed t
            malloc)) ↔
        (({ count := d.mallocs } : Watch).after (Dumper.isRemapper dev) pre).Known t) := by
    intro pre t post heq
    have hmem : isFs t = true := hfs t (by simp [heq])
    have hearlier : ∀ t' ∈ pre, t'.time ≤ t.time := by
      intro t' ht'
      rw [heq] at hsorted
      exact (List.pairwise_append.mp hsorted).2.2 t' ht' t (List.mem_cons_self ..)
    have hb : Watch.Before { count := d.mallocs } t.time := by
      intro s life hs
      cases hs
    exact Watch.right_iff_known (hb.after _ hearlier) (by simp [isFs] at hmem; exact hmem.1)
  rw [Watch.allKnown_iff]
  constructor
  · intro h pre t post heq
    cases hact : timedAct t with
    | none =>
      have hno := fsAct_of_timedAct hact
      unfold Watch.Known Watch.Seen
      split <;> simp_all
    | some act =>
      exact (hone pre t post heq).mp fun malloc =>
        (timesRight_iff ht hd).mp (h malloc) pre t post heq act hact
  · intro h malloc
    refine (timesRight_iff ht hd).mpr fun pre t post heq act hact => ?_
    exact (hone pre t post heq).mpr (h pre t post heq) malloc

end

/-- A record of the file system on sector 8. -/
def ioRecord (action : UInt32) (time : UInt64) : BlkIoTrace :=
  { queueRecord 0x800000 0 1 time with action := 0x01000000 ||| action, sector := 8 }

theorem dumpAll_timesRight_full :
    TimesRight { trackIos := true } (fun _ => ⟨0, 3, 0, 0, 0⟩) 0 0x800000 {}
      [ioRecord 4 10, ioRecord 12 20, ioRecord 7 30, ioRecord 8 40] :=
  (dumpAll_timesRight rfl (fun _ => rfl) (by decide) (by decide)).mpr (by
    refine ⟨⟨trivial, ?_⟩, ⟨?_, ?_⟩, ⟨fun _ _ => ?_, ?_⟩, ⟨fun _ => ?_, ?_⟩, trivial⟩ <;>
      decide) _

/-- An insertion without an allocation before it, on memory in which the allocation time is 3. -/
theorem not_timesRight_insert :
    ¬ ∀ malloc, TimesRight { trackIos := true } malloc 0 0x800000 {} [ioRecord 12 10] := by
  intro h
  obtain ⟨e, he, hright⟩ := h (fun _ => ⟨0, 3, 0, 0, 0⟩) [] (ioRecord 12 10) [] rfl .I rfl
  have hseven : e = 7 := by
    have hrun : (dumpAll { trackIos := true } (fun _ => ⟨0, 3, 0, 0, 0⟩) 0 0x800000 {}
        [ioRecord 12 10]).lines = [⟨.I, ioRecord 12 10, 7⟩] := by decide
    rw [List.nil_append, hrun] at he
    have hline : [Line.mk .I (ioRecord 12 10) 7] = [] ++ [⟨.I, ioRecord 12 10, e⟩] := he
    simpa using hline.symm
  subst hseven
  revert hright
  show ¬ (7 : UInt64) = noElapsed
  decide

end Blktrace.Blkparse
