import Blktrace.Btt.LifeCycle
import Blktrace.Lib.Runs

/-!
# `btt`: latencies

The handlers of G, I, M, A and C hand over times that `tdelta` cuts off at 1. The loop over the queued records
that a D covers does so for the times from I and M, and subtracts the time of the Q itself.
-/

namespace Blktrace.Btt

open SearchTree Runs

/-- What is handed over is the time between two records of an IO. -/
def Report.isLatency : Report → Bool
  | .avg .q2q | .avg .q2qDm | .avg .blks => false
  | .avg _ => true
  | .latencyQ2d | .latencyD2c | .latencyQ2c | .q2dHisto => true
  | _ => false

namespace State

/-- When a latency of a queued record begins. -/
def since (s : State) (q : Iop) : Report → UInt64
  | .avg .s2g => (s.times q.id).sTime
  | .avg .g2i => (s.times q.id).gTime
  | .avg .i2d => (s.times q.id).iTime
  | .avg .m2d => (s.times q.id).mTime
  | .avg .d2c => (s.times q.id).dTime
  | .latencyD2c => (s.times q.id).dTime
  | _ => q.t.time

/-- The queued records that a record is about. -/
def concerned (s : State) (t : BlkIoTrace) : List Iop :=
  match BlkTa.ofAction t.action with
  | some .getrq | some .insert | some .backmerge | some .frontmerge =>
    (s.dipFindSec t.device .q t.sector).toList
  | some .issue | some .complete => s.dipForeachList ⟨s.ios, t⟩ .q
  | some .remap =>
    (s.dipFindSec ((Bytes.u32 true).load t.pdu) .q ((Bytes.u64 true).load (t.pdu.drop 8))).toList
  | _ => []

/-- A latency is the time from when it begins to the record, or 1 if that is not later. -/
def Clamps (s : State) (t : BlkIoTrace) (x : Sample) : Prop :=
  x.report.isLatency = true →
    ∃ q ∈ s.concerned t, x.device = q.t.device ∧ x.value = tdelta (s.since q x.report) t.time

end State

/-- Samples are added, all of them such as `P` says. -/
def Emits (P : Sample → Prop) (s s' : State) : Prop :=
  ∃ new, s'.samples = s.samples ++ new ∧ ∀ x ∈ new, P x

section

variable {τ : Type*} [LinearOrder τ] (bal : Balancer Iop) (clock : BitTime τ) (opts : Options τ)

/-- Every latency that a record leads to is cut off. -/
def Clamped (s : State) (t : BlkIoTrace) : Prop :=
  ∀ s', s.addTrace bal opts clock t = some s' → Emits (s.Clamps t) s s'

/-- The queued records that a dispatch covers are earlier than it. (At the ends of the range the
difference is 1 by itself.) -/
def DispatchedLater (s : State) (t : BlkIoTrace) : Prop :=
  Accepted clock opts .issue t → ∀ q ∈ s.concerned t,
    q.t.time < t.time ∨ (q.t.time = 0xffffffffffffffff ∧ t.time = 0)

end

/-! ## Samples that are added -/

namespace Emits

variable {P : Sample → Prop} {s s' s'' : State}

theorem refl (s : State) : Emits P s s := ⟨[], (List.append_nil _).symm, nofun⟩

theorem of_eq (h : s'.samples = s.samples) : Emits P s s' := by
  rw [← List.append_nil s.samples] at h
  exact ⟨[], h, nofun⟩

theorem trans (h : Emits P s s') (h' : Emits P s' s'') : Emits P s s'' := by
  obtain ⟨new, hnew, hP⟩ := h
  obtain ⟨new', hnew', hP'⟩ := h'
  refine ⟨new ++ new', ?_, ?_⟩
  · rw [hnew', hnew, List.append_assoc]
  · intro x hx
    rcases List.mem_append.mp hx with hx | hx
    · exact hP x hx
    · exact hP' x hx

theorem report {r : Report} {device : UInt32} {value : UInt64} (h : P ⟨r, device, value⟩) :
    Emits P s (s.report r device value) :=
  ⟨[⟨r, device, value⟩], rfl, fun _ hx => (List.mem_singleton.mp hx) ▸ h⟩

theorem ite {c : Prop} [Decidable c] (h : c → Emits P s s') (h' : ¬ c → Emits P s s'') :
    Emits P s (if c then s' else s'') := by
  split_ifs with hc
  · exact h hc
  · exact h' hc

/-- A loop whose rounds keep an invariant. -/
theorem foldl {I : State → Prop} {f : State → Iop → State} {qs : List Iop}
    (hround : ∀ s, ∀ q ∈ qs, I s → Emits P s (f s q) ∧ I (f s q)) (h : I s) :
    Emits P s (qs.foldl f s) := by
  induction qs generalizing s with
  | nil => exact refl s
  | cons q qs ih =>
    obtain ⟨hq, hqs⟩ := List.forall_mem_cons.mp (fun q hq s => hround s q hq)
    exact (hq s h).1.trans (ih (fun s q hq => hqs q hq s) (hq s h).2)

end Emits

/-! ## The handlers -/

/-- The queued records and their times are the same, and so are the samples. -/
structure Alike (s s' : State) : Prop where
  queued : ∀ d, (s'.dip d).heads .q = (s.dip d).heads .q
  times : s'.times = s.times
  samples : s'.samples = s.samples

namespace Alike

variable {s s' s'' : State}

theorem refl (s : State) : Alike s s := ⟨fun _ => rfl, rfl, rfl⟩

theorem trans (h : Alike s s') (h' : Alike s' s'') : Alike s s'' :=
  ⟨fun d => (h'.queued d).trans (h.queued d), h'.times.trans h.times, h'.samples.trans h.samples⟩

theorem modifyDip (s : State) (device : UInt32) {f : DInfo → DInfo} (hf : ∀ p, (f p).heads = p.heads) :
    Alike s (s.modifyDip device f) :=
  ⟨fun d => s.dip_modifyDip_keeps (fun p => p.heads .q) device d (congrFun (hf _) _), rfl, rfl⟩

theorem dipFindSec (h : Alike s s') (d : UInt32) (sec : UInt64) :
    s'.dipFindSec d .q sec = s.dipFindSec d .q sec := congrArg (rbFindSec · sec) (h.queued d)

theorem dipForeachList (h : Alike s s') (iop : Iop) : s'.dipForeachList iop .q = s.dipForeachList iop .q :=
  congrArg (rbForeach · iop) (h.queued iop.t.device)

variable (bal : Balancer Iop)

/-- A record that is not a Q gets into the tree of its own kind. -/
theorem ioSetup (s : State) (iop : Iop) {type : IopType} (htype : type ≠ .q) :
    Alike s (s.ioSetup bal iop type) := by
  unfold State.ioSetup
  dsimp only
  split_ifs
  · exact modifyDip s _ fun _ => rfl
  · cases hroot : rbInsert bal ((s.dip iop.t.device).heads type) iop with
    | none => exact modifyDip s _ fun _ => rfl
    | some root =>
      refine ⟨fun d => ?_, rfl, rfl⟩
      show ((s.link iop type root).dip d).heads .q = _
      by_cases hd : d = iop.t.device
      · rw [hd, heads_link_self, Function.update_of_ne htype.symm]
      · rw [dip_link_of_ne hd]

end Alike

section

variable (bal : Balancer Iop) {P : Sample → Prop}

theorem emits_ioSetup (s : State) (iop : Iop) (type : IopType) : Emits P s (s.ioSetup bal iop type) := by
  refine .of_eq ?_
  unfold State.ioSetup
  dsimp only
  split_ifs
  · rfl
  · cases rbInsert bal ((s.dip iop.t.device).heads type) iop with
    | none => rfl
    | some root => rfl

theorem samples_iopRemDip (s : State) (iop : Iop) : (s.iopRemDip bal iop).samples = s.samples := by
  unfold State.iopRemDip
  cases s.linked iop.id with
  | none => rfl
  | some type => rfl

theorem times_iopRemDip (s : State) (iop : Iop) : (s.iopRemDip bal iop).times = s.times := by
  unfold State.iopRemDip
  cases s.linked iop.id with
  | none => rfl
  | some type => rfl

theorem emits_ioRelease (s : State) (iop : Iop) : Emits P s (s.ioRelease bal iop) :=
  .of_eq (samples_iopRemDip bal s iop)

/-- What a handler adds is all that is added. -/
theorem emits_traceWith {s : State} {iop : Iop} {type : IopType} {handle : State → Iop → State}
    (htype : type ≠ .q) (h : ∀ s', Alike s s' → Emits P s' (handle s' iop)) :
    Emits P s (s.traceWith bal iop type handle) := by
  dsimp only [State.traceWith]
  refine .trans (.trans (emits_ioSetup bal s iop type) ?_) (emits_ioRelease bal _ iop)
  exact .ite (fun _ => h _ (.ioSetup bal s iop htype)) fun _ => .refl _

end

section

variable {s s' : State} {t : BlkIoTrace}

theorem clamps_of_mem {q : Iop} (hq : q ∈ s.concerned t) {r : Report} {v : UInt64}
    (hv : v = tdelta (s.since q r) t.time) : s.Clamps t ⟨r, q.t.device, v⟩ :=
  fun _ => ⟨q, hq, rfl, hv⟩

theorem clamps_of_not {r : Report} (hr : r.isLatency = false) (device : UInt32) (v : UInt64) :
    s.Clamps t ⟨r, device, v⟩ := fun h => absurd (hr.symm.trans h) Bool.false_ne_true

theorem emits_updateLq {r : Report} (hr : r.isLatency = false) (iop : Iop) (lastQ : UInt64) :
    Emits (s.Clamps t) s' (s'.updateLq r iop lastQ) :=
  .ite (fun _ => .refl _) fun _ => .report (clamps_of_not hr _ _)

theorem emits_handleQueue (q : Iop) : Emits (s.Clamps t) s' (s'.handleQueue q) := by
  have hlq : ∀ (s'' : State) (r : Report), r.isLatency = false → ∀ lastQ,
      Emits (s.Clamps t) s'' (s''.updateLq r q lastQ) := fun _ _ hr lastQ => emits_updateLq hr q lastQ
  have hdip : Emits (s.Clamps t) s' (s'.dipUpdateQ q) := by
    dsimp only [State.dipUpdateQ]
    refine .trans (hlq s' _ ?_ _) (.of_eq rfl)
    split_ifs <;> rfl
  dsimp only [State.handleQueue]
  refine .trans (.trans hdip ?_) (.of_eq rfl)
  refine .ite (fun _ => hlq _ _ rfl _) fun _ => ?_
  exact .trans (.report (clamps_of_not rfl _ _)) (hlq _ _ rfl _)

/-- The record that a sector is looked up for. -/
theorem mem_concerned_of_find {q : Iop}
    (hta : BlkTa.ofAction t.action = some .getrq ∨ BlkTa.ofAction t.action = some .insert ∨
      BlkTa.ofAction t.action = some .backmerge ∨ BlkTa.ofAction t.action = some .frontmerge)
    (hq : s.dipFindSec t.device .q t.sector = some q) : q ∈ s.concerned t := by
  unfold State.concerned
  rcases hta with hta | hta | hta | hta <;> rw [hta, hq] <;> exact List.mem_singleton_self q

theorem emits_handleG (h : Alike s s') (id : ℕ) (hta : BlkTa.ofAction t.action = some .getrq) :
    Emits (s.Clamps t) s' (s'.handleG ⟨id, t⟩) := by
  have hgetrq : Alike s (s'.iostatGetrq ⟨id, t⟩) := h.trans (.modifyDip s' t.device fun _ => rfl)
  dsimp only [State.handleG]
  refine .trans (.of_eq rfl : Emits _ s' (s'.iostatGetrq ⟨id, t⟩)) ?_
  generalize s'.iostatGetrq ⟨id, t⟩ = s₁ at hgetrq
  cases hfind : s₁.dipFindSec t.device .q t.sector with
  | none => exact .refl _
  | some q =>
    have hq := mem_concerned_of_find (.inl hta) ((hgetrq.dipFindSec _ _).symm.trans hfind)
    dsimp only
    have hfirst : Emits (s.Clamps t) s₁ ((s₁.modifyTimes q.id fun x => { x with gTime := t.time }).report
        (.avg .q2g) q.t.device (tdelta q.t.time t.time)) :=
      .trans (.of_eq rfl) (.report (clamps_of_mem hq rfl))
    refine .ite (fun _ => hfirst.trans (.report (clamps_of_mem hq ?_))) fun _ => hfirst
    show tdelta ((Function.update s₁.times q.id _) q.id).sTime t.time = tdelta (s.times q.id).sTime t.time
    rw [Function.update_self, hgetrq.times]

theorem emits_handleS (x : Iop) : Emits (s.Clamps t) s' (s'.handleS x) := by
  refine .of_eq ?_
  unfold State.handleS
  cases s'.dipFindSec x.t.device .q x.t.sector with
  | none => rfl
  | some q => rfl

theorem emits_handleI (h : Alike s s') (id : ℕ) (hta : BlkTa.ofAction t.action = some .insert) :
    Emits (s.Clamps t) s' (s'.handleI ⟨id, t⟩) := by
  dsimp only [State.handleI]
  cases hfind : s'.dipFindSec t.device .q t.sector with
  | none => exact .refl _
  | some q =>
    have hq := mem_concerned_of_find (.inr (.inl hta)) ((h.dipFindSec _ _).symm.trans hfind)
    refine .trans (.of_eq rfl : Emits _ s' (s'.modifyTimes q.id fun x => { x with iTime := t.time })) ?_
    refine .ite (fun _ => .report (clamps_of_mem hq ?_)) fun _ => .refl _
    show tdelta ((Function.update s'.times q.id _) q.id).gTime t.time = tdelta (s.times q.id).gTime t.time
    rw [Function.update_self, h.times]

theorem emits_handleM (h : Alike s s') (id : ℕ)
    (hta : BlkTa.ofAction t.action = some .backmerge ∨ BlkTa.ofAction t.action = some .frontmerge) :
    Emits (s.Clamps t) s' (s'.handleM ⟨id, t⟩) := by
  have hmerge : Alike s (s'.iostatMerge ⟨id, t⟩) := h.trans (.modifyDip s' t.device fun _ => rfl)
  dsimp only [State.handleM]
  refine .trans (.of_eq rfl : Emits _ s' (s'.iostatMerge ⟨id, t⟩)) (.trans ?_ (.of_eq rfl))
  generalize s'.iostatMerge ⟨id, t⟩ = s₁ at hmerge
  cases hfind : s₁.dipFindSec t.device .q t.sector with
  | none => exact .refl _
  | some q =>
    have hq := mem_concerned_of_find (.inr (.inr hta)) ((hmerge.dipFindSec _ _).symm.trans hfind)
    exact .trans (.of_eq rfl) (.report (clamps_of_mem hq rfl))

/-- What the rounds of `handle_issue` leave alone. -/
def KeepsTimes (s s' : State) : Prop :=
  ∀ id, (s'.times id).iTime = (s.times id).iTime ∧ (s'.times id).mTime = (s.times id).mTime

/-- One round: the record that is covered is earlier than the dispatch. -/
theorem emits_issueOne (h : KeepsTimes s s') (outputAllData : Bool) (id : ℕ) {q : Iop}
    (hq : q ∈ s.concerned t) (hlater : t.time - q.t.time = tdelta q.t.time t.time) :
    Emits (s.Clamps t) s' (s'.issueOne outputAllData ⟨id, t⟩ q) ∧
      KeepsTimes s (s'.issueOne outputAllData ⟨id, t⟩ q) := by
  have hi : (s'.times q.id).iTime = s.since q (.avg .i2d) := (h q.id).1
  have hm : (s'.times q.id).mTime = s.since q (.avg .m2d) := (h q.id).2
  have hreport : ∀ {s₁ : State} {r : Report}, s.since q r = q.t.time →
      Emits (s.Clamps t) s₁ (s₁.report r q.t.device (t.time - q.t.time)) := by
    intro s₁ r hr
    exact .report (clamps_of_mem hq (by rw [hr, hlater]))
  constructor
  · dsimp only [State.issueOne]
    refine .trans ?_ (hreport rfl)
    refine .trans (.trans ?_ (.of_eq rfl)) (.ite (fun _ => hreport rfl) fun _ => .refl _)
    refine .ite (fun _ => .report (clamps_of_mem hq (by rw [hi]))) fun _ => ?_
    exact .ite (fun _ => .report (clamps_of_mem hq (by rw [hm]))) fun _ => .refl _
  · intro jd
    have htimes : ∀ s₁ : State, s₁.times = s'.times →
        ((s₁.modifyTimes q.id fun x => { x with dTime := t.time }).times jd).iTime = (s.times jd).iTime ∧
          ((s₁.modifyTimes q.id fun x => { x with dTime := t.time }).times jd).mTime = (s.times jd).mTime := by
      intro s₁ hs₁
      show (Function.update s₁.times q.id _ jd).iTime = _ ∧ (Function.update s₁.times q.id _ jd).mTime = _
      rw [Function.update_apply, hs₁]
      split_ifs with hjd
      · exact hjd ▸ h q.id
      · exact h jd
    dsimp only [State.issueOne]
    split_ifs <;> exact htimes _ rfl

theorem emits_handleIssue (h : Alike s s') (outputAllData : Bool)
    (hta : BlkTa.ofAction t.action = some .issue)
    (hlater : ∀ q ∈ s.concerned t, t.time - q.t.time = tdelta q.t.time t.time) :
    Emits (s.Clamps t) s' (s'.handleIssue outputAllData ⟨s.ios, t⟩) := by
  have hdown : Alike s' (s'.deactivate ⟨s.ios, t⟩) := .modifyDip s' t.device fun _ => rfl
  have hup : Alike (s'.deactivate ⟨s.ios, t⟩) ((s'.deactivate ⟨s.ios, t⟩).iostatIssue ⟨s.ios, t⟩) :=
    .modifyDip _ t.device fun _ => rfl
  have halike := ((h.trans hdown).trans hup).trans
    (.modifyDip ((s'.deactivate ⟨s.ios, t⟩).iostatIssue ⟨s.ios, t⟩) t.device fun _ => rfl :
      Alike _ (State.modifyDip _ t.device fun p => { p with nDs := p.nDs + 1 }))
  have hfirst : Emits (s.Clamps t) s' (((s'.deactivate ⟨s.ios, t⟩).iostatIssue ⟨s.ios, t⟩).modifyDip t.device
      fun p => { p with nDs := p.nDs + 1 }) := .of_eq rfl
  dsimp only [State.handleIssue]
  generalize ((s'.deactivate ⟨s.ios, t⟩).iostatIssue ⟨s.ios, t⟩).modifyDip t.device
    (fun p => { p with nDs := p.nDs + 1 }) = s₁ at halike hfirst ⊢
  refine hfirst.trans ?_
  have hlist : s₁.dipForeachList ⟨s.ios, t⟩ .q = s.concerned t := by
    rw [halike.dipForeachList, State.concerned, hta]
  have hloop : ∀ s₂ : State, s₂.times = s₁.times → s₂.dipForeachList ⟨s.ios, t⟩ .q = s.concerned t →
      Emits (s.Clamps t) s₂ ((s₂.dipForeachList ⟨s.ios, t⟩ .q).foldl
        (State.issueOne outputAllData ⟨s.ios, t⟩) s₂) := by
    intro s₂ htimes hsame
    rw [hsame]
    refine .foldl (I := KeepsTimes s) ?_ ?_
    · intro s₃ q hq hkeeps
      exact emits_issueOne hkeeps outputAllData s.ios hq (hlater q hq)
    · intro id
      rw [htimes, halike.times]
      exact ⟨rfl, rfl⟩
  split_ifs
  · exact hloop s₁ rfl hlist
  · refine .trans (.report (clamps_of_not (r := .dHisto) rfl t.device t.bytes.toUInt64)) ?_
    exact hloop _ rfl hlist

/-- One of the records that a completion covers. -/
theorem emits_completed (h : s'.times = s.times) (id : ℕ) {q : Iop} (hq : q ∈ s.concerned t) :
    Emits (s.Clamps t) s' (State.completed ⟨id, t⟩ s' q) := by
  dsimp only [State.completed]
  have hq2c : Emits (s.Clamps t) s' (s'.updateQ2c q (tdelta q.t.time t.time)) := by
    refine .report (clamps_of_mem hq ?_)
    unfold q2cAvg
    split_ifs <;> rfl
  have hd2c : ∀ {s₁ : State} {r : Report}, s.since q r = (s.times q.id).dTime →
      Emits (s.Clamps t) s₁ (s₁.report r q.t.device (tdelta (s'.times q.id).dTime t.time)) := by
    intro s₁ r hr
    exact .report (clamps_of_mem hq (by rw [hr, h]))
  refine .trans (.trans hq2c (.report (clamps_of_mem hq rfl))) (.ite (fun _ => ?_) fun _ => .refl _)
  exact .trans (.trans (hd2c (r := .avg .d2c) rfl) (hd2c (r := .latencyD2c) rfl)) (.of_eq rfl)

theorem emits_handleComplete (bal : Balancer Iop) (h : Alike s s')
    (hta : BlkTa.ofAction t.action = some .complete) :
    Emits (s.Clamps t) s' (s'.handleComplete bal ⟨s.ios, t⟩) := by
  have hlist : s'.dipForeachList ⟨s.ios, t⟩ .q = s.concerned t := by
    rw [h.dipForeachList, State.concerned, hta]
  dsimp only [State.handleComplete]
  refine .trans (.report (clamps_of_not (r := .avg .blks) rfl t.device t.tSec.toUInt64)) ?_
  show Emits _ _ ((s'.dipForeachList ⟨s.ios, t⟩ .q).foldl _ _)
  rw [hlist]
  refine .foldl (I := fun s₁ => s₁.times = s.times) ?_ h.times
  intro s₁ q hq htimes
  have hsame : (State.completed ⟨s.ios, t⟩ s₁ q).times = s₁.times := by
    dsimp only [State.completed]
    split_ifs <;> rfl
  constructor
  · exact (emits_completed htimes s.ios hq).trans (emits_ioRelease bal _ q)
  · exact (times_iopRemDip bal _ q).trans (hsame.trans htimes)

theorem emits_handleRemap (h : Alike s s') (id : ℕ) (hta : BlkTa.ofAction t.action = some .remap) :
    Emits (s.Clamps t) s' (State.handleRemap ((Bytes.u32 true).load t.pdu)
      ((Bytes.u64 true).load (t.pdu.drop 8)) s' ⟨id, t⟩) := by
  unfold State.handleRemap
  cases s'.dips ((Bytes.u32 true).load t.pdu) with
  | none => exact .refl _
  | some _ =>
    dsimp only
    cases hfind : s'.dipFindSec ((Bytes.u32 true).load t.pdu) .q ((Bytes.u64 true).load (t.pdu.drop 8)) with
    | none => exact .refl _
    | some q =>
      have hq : q ∈ s.concerned t := by
        rw [State.concerned, hta]
        show q ∈ (s.dipFindSec _ .q _).toList
        rw [(h.dipFindSec _ _).symm.trans hfind]
        exact List.mem_singleton_self q
      refine .report (clamps_of_mem hq ?_)
      split_ifs <;> rfl

end

/-! ## `add_trace` -/

section

variable {τ : Type*} {bal : Balancer Iop} {opts : Options τ} {s : State} {t : BlkIoTrace}

/-- What one record leads to. -/
theorem emits_analyse {s' s'' : State} (h : Alike s s')
    (hlater : BlkTa.ofAction t.action = some .issue → t.bytes ≠ 0 →
      ∀ q ∈ s.concerned t, t.time - q.t.time = tdelta q.t.time t.time)
    (hrun : s'.analyse bal opts ⟨s.ios, t⟩ = some s'') : Emits (s.Clamps t) s' s'' := by
  have hempty : ∀ {s₁ : State}, (t.bytes ≠ 0 → Emits (s.Clamps t) s' s₁) →
      Emits (s.Clamps t) s' (if t.bytes = 0 then s' else s₁) :=
    fun hs₁ => .ite (fun _ => .refl _) hs₁
  have hhandle : ∀ {type : IopType} {handle : State → Iop → State}, type ≠ .q →
      (∀ s₁, Alike s s₁ → Emits (s.Clamps t) s₁ (handle s₁ ⟨s.ios, t⟩)) →
        Emits (s.Clamps t) s' (s'.traceWith bal ⟨s.ios, t⟩ type handle) :=
    fun htype hs₁ => emits_traceWith bal htype fun s₁ hs => hs₁ s₁ (h.trans hs)
  unfold State.analyse at hrun
  dsimp only at hrun
  split at hrun
  case h_1 =>
    obtain rfl := Option.some.inj hrun
    refine hempty fun _ => .trans (emits_ioSetup bal s' ⟨s.ios, t⟩ .q) ?_
    exact .ite (fun _ => emits_handleQueue _) fun _ => emits_ioRelease bal _ _
  case h_2 hta =>
    unfold State.traceRemap at hrun
    split_ifs at hrun
    · obtain rfl := Option.some.inj hrun
      exact emits_ioRelease bal _ _
    · obtain rfl := Option.some.inj hrun
      exact hhandle (by decide) fun s₁ hs₁ => emits_handleRemap hs₁ _ hta
  case h_3 hta =>
    obtain rfl := Option.some.inj hrun
    exact hempty fun _ => hhandle (by decide) fun s₁ hs₁ => emits_handleI hs₁ _ hta
  case h_4 hta =>
    obtain rfl := Option.some.inj hrun
    exact hempty fun _ => hhandle (by decide) fun s₁ hs₁ => emits_handleG hs₁ _ hta
  case h_5 hta =>
    obtain rfl := Option.some.inj hrun
    exact hempty fun _ => hhandle (by decide) fun s₁ hs₁ => emits_handleM hs₁ _ (.inl hta)
  case h_6 hta =>
    obtain rfl := Option.some.inj hrun
    exact hempty fun _ => hhandle (by decide) fun s₁ hs₁ => emits_handleM hs₁ _ (.inr hta)
  case h_7 =>
    obtain rfl := Option.some.inj hrun
    exact hhandle (by decide) fun s₁ _ => .of_eq rfl
  case h_8 hta =>
    obtain rfl := Option.some.inj hrun
    refine hempty fun hbytes => hhandle (by decide) fun s₁ hs₁ => ?_
    exact emits_handleIssue hs₁ _ hta (hlater hta hbytes)
  case h_9 hta =>
    obtain rfl := Option.some.inj hrun
    exact hempty fun _ => hhandle (by decide) fun s₁ hs₁ => emits_handleComplete bal hs₁ hta
  case h_10 =>
    obtain rfl := Option.some.inj hrun
    refine .trans (.of_eq ?_) (emits_ioRelease bal _ _)
    unfold State.dipPlug
    split <;> rfl
  case h_11 =>
    obtain ⟨nios, -, rfl⟩ := Option.map_eq_some_iff.mp hrun
    have hhist : Emits (s.Clamps t) s' (s'.unplugHistAdd ⟨s.ios, t⟩ nios) := by
      unfold State.unplugHistAdd
      split
      · exact .refl _
      · exact .report (clamps_of_not rfl _ _)
    refine .trans (hhist.trans (.of_eq ?_)) (emits_ioRelease bal _ _)
    · unfold State.dipUnplug
      split
      · rfl
      · split_ifs <;> rfl
  case h_12 =>
    obtain ⟨nios, -, rfl⟩ := Option.map_eq_some_iff.mp hrun
    refine .trans (.of_eq ?_) (emits_ioRelease bal _ _)
    unfold State.dipUnplugTm
    split
    · rfl
    · split_ifs <;> rfl
  case h_13 =>
    obtain rfl := Option.some.inj hrun
    exact hempty fun _ => hhandle (by decide) fun s₁ _ => emits_handleS _
  case h_14 =>
    obtain rfl := Option.some.inj hrun
    exact emits_ioRelease bal _ _

/-- A difference that is not negative is not cut off. -/
theorem sub_eq_tdelta {start stop : UInt64}
    (h : start < stop ∨ (start = 0xffffffffffffffff ∧ stop = 0)) : stop - start = tdelta start stop := by
  rcases h with hlt | ⟨rfl, rfl⟩
  · exact (if_pos hlt).symm
  · rfl

theorem clamped_of_later [LinearOrder τ] {clock : BitTime τ} (h : DispatchedLater clock opts s t) : Clamped bal clock opts s t := by
  intro s' hrun
  have hios : Alike s { s with ios := s.ios + 1 } := ⟨fun _ => rfl, rfl, rfl⟩
  dsimp only [State.addTrace] at hrun
  refine .trans (.of_eq rfl : Emits _ s { s with ios := s.ios + 1 }) ?_
  cases hfate : addTrace clock opts.bounds t with
  | analysed =>
    rw [hfate] at hrun
    refine emits_analyse hios (fun hta hbytes q hq => ?_) hrun
    exact sub_eq_tdelta (h ⟨hfate, hta, hbytes⟩ q hq)
  | released | done =>
    all_goals
      rw [hfate] at hrun
      obtain rfl := Option.some.inj hrun
      refine .ite (fun _ => ?_) fun _ => emits_ioRelease bal _ _
      exact .trans (emits_ioSetup bal _ _ .m) (emits_ioRelease bal _ _)

end

/-- **No latency wraps** in a run whose dispatches are later than the queued records that they cover. -/
theorem clamped_along {τ : Type*} [LinearOrder τ] (bal : Balancer Iop) (clock : BitTime τ) (opts : Options τ)
    (ts : List BlkIoTrace) (h : Along (State.addTrace bal opts clock) (DispatchedLater clock opts) {} ts) :
    Along (State.addTrace bal opts clock) (Clamped bal clock opts) {} ts :=
  fun as t bs hts => clamped_of_later (h as t bs hts)

/-- A read is queued at 5 and dispatched at 9. -/
theorem clamped_along_two : Along (State.addTrace listBalancer plainOptions exactTime)
    (Clamped listBalancer exactTime plainOptions) {} [recordOf 0x00100001 5 8 8, recordOf 0x00400007 9 8 8] := by
  refine clamped_along listBalancer exactTime plainOptions _ ?_
  rw [along_cons, along_cons]
  refine ⟨fun h => absurd h.2.1 (by decide), fun _ => ?_, .nil _⟩
  decide

/-- Dispatched at 3, it has a latency of almost 2 to the power of 64. -/
theorem not_clamped : ¬ ∀ ts : List BlkIoTrace, Along (State.addTrace listBalancer plainOptions exactTime)
    (Clamped listBalancer exactTime plainOptions) {} ts := by
  intro h
  have hlast := h [recordOf 0x00100001 5 8 8, recordOf 0x00400007 3 8 8] [recordOf 0x00100001 5 8 8] _ [] rfl
  obtain ⟨new, hnew, hclamps⟩ := hlast _ rfl
  have hmem : (⟨.latencyQ2d, 1, 0xfffffffffffffffe⟩ : Sample) ∈ new := by
    refine (List.mem_append.mp ?_).resolve_left (?_ : _ ∉ State.samples (run
      (State.addTrace listBalancer plainOptions exactTime) {} [recordOf 0x00100001 5 8 8]))
    · rw [← hnew]
      decide
    · decide
  obtain ⟨q, hq, -, hvalue⟩ := hclamps _ hmem rfl
  have hconcerned : State.concerned (run (State.addTrace listBalancer plainOptions exactTime) {}
      [recordOf 0x00100001 5 8 8]) (recordOf 0x00400007 3 8 8) = [⟨0, recordOf 0x00100001 5 8 8⟩] := by
    decide
  rw [hconcerned] at hq
  obtain rfl := List.mem_singleton.mp hq
  exact absurd hvalue (by decide)

end Blktrace.Btt
