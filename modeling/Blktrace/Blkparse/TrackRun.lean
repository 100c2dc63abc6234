import Blktrace.Blkparse.TrackTimes
import Blktrace.Blkparse.PipeLoops

/-!
# Tracked times of two runs

A run gives each `I`, `D` and `C` an elapsed time. Two runs give the same ones, whatever is in the
memory of either, just if neither reads a time that was never recorded and what is recorded gives
the same (`sameTimes_iff`). Where both are given the same records and differ in `is_remapper`
only, that comes down to the `C` records (`comparable_iff`).
-/

namespace Blktrace.Blkparse

/-- Everything is dumped through slot `pdi`, whose `pdi->dev` is `dev`. -/
def OnSlot (pdi : Nat) (dev : UInt32) (events : List Event) : Prop :=
  ∀ p d cpu bit, Event.dump p d cpu bit ∈ events → p = pdi ∧ d = dev

/-- The elapsed times on the lines of `I`, `D` and `C` records, with the records' numbers. -/
def attached (lines : List Line) : List (UInt32 × UInt64) :=
  (lines.filter fun l => l.act == .I || l.act == .D || l.act == .C).map
    fun l => (l.bit.sequence, l.elapsed)

theorem attached_append (ls ls' : List Line) : attached (ls ++ ls') = attached ls ++ attached ls' := by
  simp [attached]

namespace Watch

/-- The `I`, `D` and `C` records of a sequence, each with the live tracks before it. -/
def timed (remapper : Bool) : Watch → List BlkIoTrace → List (Watch × BlkIoTrace)
  | _, [] => []
  | w, t :: ts => (if (timedAct t).isSome then [(w, t)] else []) ++
      timed remapper (w.step t remapper) ts

/-- The numbers of these records, with what is printed for them. -/
def printed (malloc : Nat → IoTrack) (ps : List (Watch × BlkIoTrace)) : List (UInt32 × UInt64) :=
  ps.map fun p => (p.2.sequence, p.1.elapsed p.2 malloc)

/-- Two sequences of such records in which nothing is up to the memory, and all else is the
same. -/
def Comparable (ps qs : List (Watch × BlkIoTrace)) : Prop :=
  (ps.map fun p => (p.2.sequence, p.1.fixed p.2)) = qs.map (fun p => (p.2.sequence, p.1.fixed p.2)) ∧
    ∀ p ∈ ps, p.1.Seen p.2

theorem printed_of_seen {ps : List (Watch × BlkIoTrace)} (h : ∀ p ∈ ps, p.1.Seen p.2)
    (malloc : Nat → IoTrack) : printed malloc ps =
      (ps.map fun p => (p.2.sequence, p.1.fixed p.2)).map fun q => (q.1, q.2.getD 0) := by
  rw [printed, List.map_map]
  apply List.map_congr_left
  intro p hp
  obtain ⟨e, he⟩ := Option.isSome_iff_exists.mp (fixed_isSome.mpr (h p hp))
  simp [he, elapsed_of_fixed he]

theorem seen_of_printed {ps : List (Watch × BlkIoTrace)}
    (h : ∀ malloc malloc', printed malloc ps = printed malloc' ps) : ∀ p ∈ ps, p.1.Seen p.2 := by
  intro p hp
  by_contra hno
  obtain ⟨malloc, malloc', hne⟩ := elapsed_of_not_seen hno
  have heq := List.map_inj_left.mp (h malloc malloc') p hp
  exact hne (Prod.mk.inj heq).2

theorem comparable_of_printed {ps qs : List (Watch × BlkIoTrace)}
    (h : ∀ malloc malloc', printed malloc ps = printed malloc' qs) : Comparable ps qs := by
  have hps : ∀ p ∈ ps, p.1.Seen p.2 :=
    seen_of_printed fun m m' => (h m m).trans (h m' m).symm
  have hqs : ∀ p ∈ qs, p.1.Seen p.2 :=
    seen_of_printed fun m m' => (h m m).symm.trans (h m m')
  have hfixed : ∀ ps : List (Watch × BlkIoTrace), (∀ p ∈ ps, p.1.Seen p.2) →
      ∀ malloc, (ps.map fun p => (p.2.sequence, p.1.fixed p.2)) =
        (printed malloc ps).map fun q => (q.1, some q.2) := by
    intro ps hps malloc
    rw [printed, List.map_map]
    apply List.map_congr_left
    intro p hp
    obtain ⟨e, he⟩ := Option.isSome_iff_exists.mp (fixed_isSome.mpr (hps p hp))
    simp [he, elapsed_of_fixed he]
  refine ⟨?_, hps⟩
  rw [hfixed ps hps fun _ => ⟨0, 0, 0, 0, 0⟩, hfixed qs hqs fun _ => ⟨0, 0, 0, 0, 0⟩, h]

/-- **The same is printed whatever the memory** just if the records are comparable. -/
theorem forall_printed_iff {ps qs : List (Watch × BlkIoTrace)} :
    (∀ malloc malloc', printed malloc ps = printed malloc' qs) ↔ Comparable ps qs := by
  refine ⟨comparable_of_printed, fun ⟨heq, hps⟩ malloc malloc' => ?_⟩
  have hqs : ∀ p ∈ qs, p.1.Seen p.2 := by
    intro q hq
    have hmem : (q.2.sequence, q.1.fixed q.2) ∈
        ps.map fun p => (p.2.sequence, p.1.fixed p.2) := by
      rw [heq]
      exact List.mem_map_of_mem hq
    obtain ⟨p, hp, hpq⟩ := List.mem_map.mp hmem
    rw [← fixed_isSome, ← (Prod.mk.inj hpq).2, fixed_isSome]
    exact hps p hp
  rw [printed_of_seen hps, printed_of_seen hqs, heq]

/-- A message changes nothing and has no time. -/
theorem timed_numbered (remapper : Bool) (w : Watch) (ts : List BlkIoTrace) :
    timed remapper w (ts.filter fun t => !t.isMessage) = timed remapper w ts := by
  induction ts generalizing w with
  | nil => rfl
  | cons t ts ih =>
    cases hm : t.isMessage with
    | true =>
      have hstep : w.step t remapper = w := by simp [step, fsAct, hm]
      rw [List.filter_cons_of_neg (by simp [hm]), ih, timed, timedAct_message hm, hstep]
      rfl
    | false =>
      rw [List.filter_cons_of_pos (by simp [hm]), timed, timed, ih]

end Watch

/-! ## The lines of a run -/

/-- Other records have other lines. -/
theorem attached_dumpTrace (o : Opts) (malloc : Nat → IoTrack) (d : Dumper) (pdi : Nat)
    (dev cpu : UInt32) {t : BlkIoTrace} (h : timedAct t = none) :
    attached (d.dumpTrace o malloc pdi dev cpu t).lines = attached d.lines := by
  have hline : ∀ act e, act ≠ .I → act ≠ .D → act ≠ .C → attached [⟨act, t, e⟩] = [] := by
    intro act e hi hd hc
    simp [attached, hi, hd, hc]
  show attached (d.dumpText o malloc pdi dev cpu t).lines = _
  unfold Dumper.dumpText
  split
  · rfl
  · unfold timedAct at h
    unfold Dumper.dumpTracePc Dumper.dumpTraceFs
    cases hact : BlkTa.ofAction t.action with
    | none => simp
    | some ta =>
      cases ta <;> simp only [hact, reduceCtorEq] at h <;> split <;>
        simp [attached_append, hline, Dumper.logMerge, Dumper.accountM,
          Dumper.accountQueue, Dumper.accountRequeue, Dumper.accountUnplug, Dumper.accountPcQueue,
          Dumper.accountPcRequeue]

section

variable {o : Opts} (ht : o.trackIos = true) {pdi : Nat}

include ht

/-- **What a run prints** for its `I`, `D` and `C` records. -/
theorem Follows.attached_run {malloc : Nat → IoTrack} {dev : UInt32} {events : List Event}
    (hslot : OnSlot pdi dev events) {d : Dumper} {w : Watch} (h : Follows malloc pdi d w) :
    attached (d.run o malloc events).lines = attached d.lines ++
      Watch.printed malloc (w.timed (Dumper.isRemapper dev) (dumps events)) := by
  induction events generalizing d w with
  | nil => simp [Dumper.run, dumps, Watch.timed, Watch.printed]
  | cons e events ih =>
    have hrest : OnSlot pdi dev events :=
      fun p d cpu bit hmem => hslot p d cpu bit (List.mem_cons_of_mem _ hmem)
    have hrun : d.run o malloc (e :: events) = (d.event o malloc e).run o malloc events := rfl
    rw [hrun]
    cases e with
    | notify native bit => exact ih hrest (h.congr rfl rfl)
    | dump p dv cpu t =>
      obtain ⟨rfl, rfl⟩ := hslot p dv cpu t List.mem_cons_self
      obtain ⟨hstep, hline⟩ := h.dumpTrace ht dv cpu t
      have hdumps : dumps (.dump p dv cpu t :: events) = t :: dumps events := rfl
      rw [Dumper.event, ih hrest hstep, hdumps, Watch.timed, Watch.printed, Watch.printed, List.map_append,
        ← List.append_assoc]
      congr 1
      cases hact : timedAct t with
      | none =>
        rw [attached_dumpTrace o malloc d p dv cpu hact]
        simp
      | some act =>
        rw [hline act hact, attached_append]
        have htimed : act = .I ∨ act = .D ∨ act = .C := by
          unfold timedAct at hact
          split at hact <;> simp_all
        rcases htimed with rfl | rfl | rfl <;> rfl

end

/-- Two runs attach the same times, each in a memory of its own. -/
def SameTimes (o : Opts) (events events' : List Event) : Prop :=
  ∀ malloc malloc', attached (({} : Dumper).run o malloc events).lines =
    attached (({} : Dumper).run o malloc' events').lines

/-- **When two runs attach the same times.** -/
theorem sameTimes_iff {o : Opts} (ht : o.trackIos = true) {pdi pdi' : Nat} {dev dev' : UInt32}
    {events events' : List Event} (hslot : OnSlot pdi dev events)
    (hslot' : OnSlot pdi' dev' events') :
    SameTimes o events events' ↔
      Watch.Comparable (Watch.timed (Dumper.isRemapper dev) {} (dumps events))
        (Watch.timed (Dumper.isRemapper dev') {} (dumps events')) := by
  have hfollows : ∀ malloc pdi, Follows malloc pdi {} {} := fun malloc pdi =>
    ⟨fun _ => Option.Rel.none, rfl⟩
  rw [← Watch.forall_printed_iff]
  refine forall_congr' fun malloc => forall_congr' fun malloc' => ?_
  rw [(hfollows malloc pdi).attached_run ht hslot, (hfollows malloc' pdi').attached_run ht hslot']
  rfl

/-! ## With and without remappers -/

namespace Watch

/-- What a record needs to be given the same time with (`w`) and without (`w'`) the times of `Q`
records: it finds what it needs, and a `C` finds the same on both sides. -/
def Alike (w w' : Watch) (t : BlkIoTrace) : Prop :=
  w.Seen t ∧ (fsAct t = some .complete → w.start t = w'.start t)

/-- Every record of a sequence does. -/
def AllAlike (remapper : Bool) : Watch → Watch → List BlkIoTrace → Prop
  | _, _, [] => True
  | w, w', t :: ts => Alike w w' t ∧
      AllAlike remapper (w.step t remapper) (w'.step t false) ts

/-- `w'` has lived through the same records as `w`, without the `Q`s. It has no other tracks, and
what `w` knows of an allocation or an insertion it knows as well. -/
structure Shadows (w w' : Watch) : Prop where
  live : ∀ sector, w.live sector = none → w'.live sector = none
  allocated : ∀ sector x, (w.live sector).bind Life.allocated = some x →
    (w'.live sector).bind Life.allocated = some x
  queued : ∀ sector x, (w.live sector).bind Life.queued = some x →
    (w'.live sector).bind Life.queued = some x

section

variable {w w' : Watch} {t : BlkIoTrace}

theorem record_live (w : Watch) (sector s : UInt64) (f : Life → Life) :
    (w.record sector f).live s = if s = sector then some (f (w.track sector)) else w.live s := by
  simp [record, Function.update_apply]

theorem track_allocated (w : Watch) (sector : UInt64) :
    (w.track sector).allocated = (w.live sector).bind Life.allocated := by
  unfold track
  cases w.live sector <;> rfl

theorem track_queued (w : Watch) (sector : UInt64) :
    (w.track sector).queued = (w.live sector).bind Life.queued := by
  unfold track
  cases w.live sector <;> rfl

/-- The same is recorded on both sides. -/
theorem Shadows.record (h : Shadows w w') (sector : UInt64) {f : Life → Life}
    (hfa : ∀ l l' x, ((l : Life).allocated = some x → (l' : Life).allocated = some x) →
      (f l).allocated = some x → (f l').allocated = some x)
    (hfq : ∀ l l' x, ((l : Life).queued = some x → (l' : Life).queued = some x) →
      (f l).queued = some x → (f l').queued = some x) :
    Shadows (w.record sector f) (w'.record sector f) := by
  refine ⟨fun s hs => ?_, fun s x hx => ?_, fun s x hx => ?_⟩
  · rw [record_live] at hs ⊢
    split
    · simp_all
    · rw [if_neg (by assumption)] at hs
      exact h.live s hs
  · rw [record_live] at hx ⊢
    split
    case isTrue hs =>
      rw [if_pos hs] at hx
      refine hfa _ _ x ?_ hx
      rw [track_allocated, track_allocated]
      exact h.allocated sector x
    case isFalse hs =>
      rw [if_neg hs] at hx
      exact h.allocated s x hx
  · rw [record_live] at hx ⊢
    split
    case isTrue hs =>
      rw [if_pos hs] at hx
      refine hfq _ _ x ?_ hx
      rw [track_queued, track_queued]
      exact h.queued sector x
    case isFalse hs =>
      rw [if_neg hs] at hx
      exact h.queued s x hx

/-- A dispatch recorded on the side with the `Q`s. -/
theorem Shadows.dispatch (h : Shadows w w') (sector time : UInt64) :
    Shadows (w.record sector fun l => { l with dispatched := some time }) w' := by
  refine ⟨fun s hs => ?_, fun s x hx => ?_, fun s x hx => ?_⟩
  · rw [record_live] at hs
    split at hs
    · cases hs
    · exact h.live s hs
  · rw [record_live] at hx
    split at hx
    case isTrue hs =>
      subst hs
      apply h.allocated
      rwa [← track_allocated]
    case isFalse => exact h.allocated s x hx
  · rw [record_live] at hx
    split at hx
    case isTrue hs =>
      subst hs
      apply h.queued
      rwa [← track_queued]
    case isFalse => exact h.queued s x hx

theorem Shadows.erase (h : Shadows w w') (sector : UInt64) :
    Shadows { w with live := Function.update w.live sector none }
      { w' with live := Function.update w'.live sector none } := by
  refine ⟨fun s hs => ?_, fun s x hx => ?_, fun s x hx => ?_⟩
  all_goals
    by_cases heq : s = sector
    · subst heq
      simp_all
  · simp only [Function.update_of_ne heq] at hs ⊢
    exact h.live s hs
  · simp only [Function.update_of_ne heq] at hx ⊢
    exact h.allocated s x hx
  · simp only [Function.update_of_ne heq] at hx ⊢
    exact h.queued s x hx

/-- A track put at a sector on both sides, or on one. -/
theorem Shadows.place (h : Shadows w w') (sector : UInt64) (life : Life) (life' : Option Life)
    (ha : ∀ x, life.allocated = some x → life'.bind Life.allocated = some x)
    (hq : ∀ x, life.queued = some x → life'.bind Life.queued = some x) :
    Shadows { w with live := Function.update w.live sector (some life) }
      { w' with live := Function.update w'.live sector life' } := by
  refine ⟨fun s hs => ?_, fun s x hx => ?_, fun s x hx => ?_⟩
  all_goals
    by_cases heq : s = sector
    · subst heq
      simp_all
  · simp only [Function.update_of_ne heq] at hs ⊢
    exact h.live s hs
  · simp only [Function.update_of_ne heq] at hx ⊢
    exact h.allocated s x hx
  · simp only [Function.update_of_ne heq] at hx ⊢
    exact h.queued s x hx

theorem Shadows.frontmerge (h : Shadows w w') (t : BlkIoTrace) :
    Shadows (w.frontmerge t) (w'.frontmerge t) := by
  have her := h.erase (t.sector + t.tSec.toUInt64)
  have halloc := h.allocated (t.sector + t.tSec.toUInt64)
  have hqueue := h.queued (t.sector + t.tSec.toUInt64)
  have hlive := h.live (t.sector + t.tSec.toUInt64)
  unfold Watch.frontmerge
  cases hfrom : w.live (t.sector + t.tSec.toUInt64) with
  | none =>
    rw [hlive hfrom]
    exact h
  | some life =>
    rw [hfrom] at halloc hqueue
    dsimp only
    cases hto : Function.update w.live (t.sector + t.tSec.toUInt64) none t.sector with
    | some there =>
      -- dropped on this side; on the other it is dropped, or there is none, or it takes the place
      have hkeep : Function.update (Function.update w.live (t.sector + t.tSec.toUInt64) none)
          t.sector (some there) = Function.update w.live (t.sector + t.tSec.toUInt64) none := by
        rw [← hto, Function.update_eq_self]
      cases hfrom' : w'.live (t.sector + t.tSec.toUInt64) with
      | none =>
        rwa [show Function.update w'.live (t.sector + t.tSec.toUInt64) none = w'.live by
          rw [← hfrom', Function.update_eq_self]] at her
      | some life' =>
        dsimp only
        cases hto' : Function.update w'.live (t.sector + t.tSec.toUInt64) none t.sector with
        | some _ => exact her
        | none =>
          have hplaced := her.place t.sector there (some life')
            (fun x hx => by
              have h0 := her.allocated t.sector x (by simp [hto, hx])
              simp [hto'] at h0)
            (fun x hx => by
              have h0 := her.queued t.sector x (by simp [hto, hx])
              simp [hto'] at h0)
          dsimp only at hplaced
          rwa [hkeep] at hplaced
    | none =>
      have hto' := her.live t.sector hto
      dsimp only at hto'
      have hplaced := her.place t.sector life (w'.live (t.sector + t.tSec.toUInt64)) halloc hqueue
      cases hfrom' : w'.live (t.sector + t.tSec.toUInt64) with
      | none =>
        rw [hfrom'] at hplaced
        have hsame : Function.update w'.live (t.sector + t.tSec.toUInt64) none = w'.live := by
          rw [← hfrom', Function.update_eq_self]
        dsimp only at hplaced
        rw [hsame] at hplaced hto'
        rwa [show Function.update w'.live t.sector none = w'.live by
          rw [← hto', Function.update_eq_self]] at hplaced
      | some life' =>
        dsimp only
        rw [hto', ← hfrom']
        exact hplaced

theorem Shadows.step (h : Shadows w w') (t : BlkIoTrace) (remapper : Bool) :
    Shadows (w.step t remapper) (w'.step t false) := by
  unfold Watch.step
  cases fsAct t with
  | none => exact h
  | some ta =>
    cases ta
    case getrq => exact h.record _ (fun _ _ _ _ hx => hx) fun _ _ _ hq hx => hq hx
    case insert => exact h.record _ (fun _ _ _ ha hx => ha hx) fun _ _ _ _ hx => hx
    case queue =>
      cases remapper with
      | false => exact h
      | true => exact h.dispatch t.sector t.time
    case issue =>
      dsimp only
      cases hl : w.live t.sector with
      | none => simpa [h.live _ hl] using h
      | some life =>
        cases hl' : w'.live t.sector with
        | none =>
          cases t.hasTc blkTcFs with
          | false => simpa using h
          | true => simpa using h.dispatch t.sector t.time
        | some life' =>
          cases t.hasTc blkTcFs with
          | false => simpa using h
          | true =>
            have hboth := h.record t.sector (f := fun l => { l with dispatched := some t.time })
              (fun _ _ _ ha hx => ha hx) fun _ _ _ hq hx => hq hx
            simpa using hboth
    case frontmerge => exact h.frontmerge t
    case complete => exact h.erase t.sector
    all_goals exact h

/-- **One record** is printed alike with and without the times of `Q` records. -/
theorem Shadows.alike_iff (h : Shadows w w') (hb : w.Before t.time) (hmax : t.time ≠ noElapsed) :
    (w.fixed t = w'.fixed t ∧ w.Seen t) ↔ Alike w w' t := by
  rw [Alike, and_comm]
  refine and_congr_right fun hseen => ?_
  unfold Seen at hseen
  have hstart : ∀ {x}, w.start t = some x → t.time - x = noElapsed → False := by
    intro x hx heq
    have hle : x ≤ t.time := hb.start hx
    have hnat := congrArg UInt64.toNat heq
    rw [UInt64.toNat_sub_of_le _ _ hle] at hnat
    have hlt := t.time.toNat_lt
    have hmax' : t.time.toNat ≠ noElapsed.toNat := fun hm => hmax (UInt64.toNat_inj.mp hm)
    have hval : noElapsed.toNat = 18446744073709551615 := rfl
    omega
  cases hact : fsAct t with
  | none => simp [fixed, hact]
  | some ta =>
    cases ta <;> simp only [hact, fixed, Option.some.injEq, reduceCtorEq, false_implies, iff_true,
      forall_const] at hseen ⊢
    case insert =>
      obtain ⟨g, hg⟩ := Option.isSome_iff_exists.mp hseen
      have hg' : w'.start t = some g := by
        simp only [start, hact] at hg ⊢
        exact h.allocated _ _ hg
      simp [hg, hg']
    case issue =>
      cases hl : w.live t.sector with
      | none => simp [h.live _ hl]
      | some life =>
        cases hfs : t.hasTc blkTcFs with
        | false => simp
        | true =>
          obtain ⟨q, hq⟩ := Option.isSome_iff_exists.mp (hseen hfs (by simp [hl]))
          have hq' : w'.start t = some q := by
            simp only [start, hact] at hq ⊢
            exact h.queued _ _ hq
          obtain ⟨life', hl', -⟩ := Option.bind_eq_some_iff.mp
            (show (w'.live t.sector).bind Life.queued = some q by simpa [start, hact] using hq')
          simp [hl', hq, hq']
    case complete =>
      cases hl : w.live t.sector with
      | none =>
        have hl' := h.live _ hl
        simp [hl', start, hact, hl]
      | some life =>
        obtain ⟨x, hx⟩ := Option.isSome_iff_exists.mp (hseen (by simp [hl]))
        simp only [hx, Option.isSome_some, if_true, Option.map_some]
        cases hl' : w'.live t.sector with
        | none =>
          simp only [start, hact, hl', Option.isSome_none, Bool.false_eq_true, if_false,
            Option.some.injEq, Option.bind_none, reduceCtorEq, iff_false]
          exact hstart hx
        | some life' =>
          simp only [Option.isSome_some, if_true]
          cases w'.start t with
          | none => simp
          | some y =>
            simp only [Option.map_some, Option.some.injEq]
            constructor
            · intro heq
              simpa using congrArg (fun z => t.time - z) heq
            · intro heq
              rw [heq]

end

/-- **The same records with and without remappers** are comparable just if every record is printed
alike. -/
theorem comparable_iff {remapper : Bool} {w w' : Watch} {ts : List BlkIoTrace} (h : Shadows w w')
    (hb : ∀ t ∈ ts, w.Before t.time) (hsorted : ts.Pairwise fun t t' => t.time ≤ t'.time)
    (hmax : ∀ t ∈ ts, t.time ≠ noElapsed) :
    Comparable (timed remapper w ts) (timed false w' ts) ↔ AllAlike remapper w w' ts := by
  induction ts generalizing w w' with
  | nil => simp [Comparable, timed, AllAlike]
  | cons t ts ih =>
    obtain ⟨hle, hsorted⟩ := List.pairwise_cons.mp hsorted
    have hih := ih (h.step t remapper)
      (fun t' ht' => (hb t' (List.mem_cons_of_mem _ ht')).step (hle t' ht') remapper) hsorted
      (fun t' ht' => hmax t' (List.mem_cons_of_mem _ ht'))
    rw [AllAlike, ← hih, timed, timed,
      ← h.alike_iff (hb t List.mem_cons_self) (hmax t List.mem_cons_self)]
    cases hact : timedAct t with
    | none =>
      obtain ⟨h1, h2, h3⟩ := fsAct_of_timedAct hact
      have hseen : w.Seen t := by
        unfold Seen
        split <;> simp_all
      have hfixed : ∀ w : Watch, w.fixed t = some noElapsed := by
        intro w
        unfold fixed
        split <;> simp_all
      simp [hseen, hfixed]
    | some act =>
      simp only [Comparable, Option.isSome_some, if_true, List.singleton_append, List.map_cons,
        List.cons.injEq, Prod.mk.injEq, true_and, List.forall_mem_cons]
      tauto

end Watch

end Blktrace.Blkparse
