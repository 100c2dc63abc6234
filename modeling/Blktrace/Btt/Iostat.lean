import Blktrace.Btt.LifeCycle
import Blktrace.Lib.Runs

/-!
# `btt`: the queue counters

`cur_qusz` goes up with a G and `cur_dev` with a D, and both go down in the loop over the queued records that
a C covers. They count the requests if and only if each is completed with the one record that it was
allocated for.
-/

namespace Blktrace.Btt

open SearchTree

/-! ## What the handlers do to the counters -/

/-- The counters of a device, and the times of dispatch. -/
structure Watch where
  curQusz : ℤ
  curDev : ℤ
  dTime : ℕ → UInt64

/-- The records `ids` are dispatched at `time`. -/
def Watch.dispatch (w : Watch) (ids : List ℕ) (time : UInt64) : Watch :=
  { w with dTime := fun id => if id ∈ ids then time else w.dTime id }

/-- The counters go up. -/
def Watch.count (w : Watch) (qusz dev : ℤ) : Watch :=
  { w with curQusz := w.curQusz + qusz, curDev := w.curDev + dev }

theorem Watch.dispatch_cons (w : Watch) (id : ℕ) (ids : List ℕ) (time : UInt64) :
    (w.dispatch [id] time).dispatch ids time = w.dispatch (id :: ids) time := by
  refine congrArg (fun f => { w with dTime := f }) (funext fun jd => ?_)
  simp only [dispatch, List.mem_cons, List.not_mem_nil, or_false]
  by_cases hmem : jd ∈ ids
  · rw [if_pos hmem, if_pos (.inr hmem)]
  · rw [if_neg hmem]
    exact if_congr (or_iff_left hmem).symm rfl rfl

theorem Watch.count_zero (w : Watch) : w.count 0 0 = w := by
  rw [count, add_zero, add_zero]

theorem Watch.count_count (w : Watch) (a b a' b' : ℤ) :
    (w.count a b).count a' b' = w.count (a + a') (b + b') := by
  simp only [count, add_assoc]

def State.watch (s : State) (d : UInt32) : Watch :=
  ⟨(s.dip d).stats.curQusz, (s.dip d).stats.curDev, fun id => (s.times id).dTime⟩

section

variable (s : State) (d : UInt32)

@[simp] theorem watch_report (r : Report) (device : UInt32) (value : UInt64) :
    (s.report r device value).watch d = s.watch d := rfl

@[simp] theorem watch_setLinked (id : ℕ) (l : Option IopType) :
    (s.setLinked id l).watch d = s.watch d := rfl

theorem watch_modifyDip (device : UInt32) {f : DInfo → DInfo}
    (hf : (f (s.dip device)).stats.curQusz = (s.dip device).stats.curQusz)
    (hf' : (f (s.dip device)).stats.curDev = (s.dip device).stats.curDev) :
    (s.modifyDip device f).watch d = s.watch d := by
  unfold State.watch
  rw [s.dip_modifyDip_keeps (fun p => p.stats.curQusz) device d hf,
    s.dip_modifyDip_keeps (fun p => p.stats.curDev) device d hf']
  rfl

theorem watch_modifyTimes (id : ℕ) {f : Times → Times}
    (hf : (f (s.times id)).dTime = (s.times id).dTime) :
    (s.modifyTimes id f).watch d = s.watch d := by
  unfold State.watch State.modifyTimes
  congr 1
  funext jd
  show (Function.update s.times id (f (s.times id)) jd).dTime = _
  rw [Function.update_apply]
  split_ifs with h
  · rw [h]
    exact hf
  · rfl

/-- The time of dispatch alone. -/
theorem watch_setDTime (id : ℕ) {f : Times → Times} {time : UInt64}
    (hf : (f (s.times id)).dTime = time) :
    (s.modifyTimes id f).watch d = (s.watch d).dispatch [id] time := by
  refine congrArg (fun g => { s.watch d with dTime := g }) (funext fun jd => ?_)
  show (Function.update s.times id (f (s.times id)) jd).dTime = _
  rw [Function.update_apply]
  simp only [List.mem_singleton]
  split_ifs
  · exact hf
  · rfl

theorem watch_ite {c : Prop} [Decidable c] {s s' : State} {w : Watch} (h : s.watch d = w)
    (h' : s'.watch d = w) : (if c then s else s').watch d = w := by
  split_ifs
  · exact h
  · exact h'

theorem watch_updateLq (r : Report) (iop : Iop) (lastQ : UInt64) :
    (s.updateLq r iop lastQ).watch d = s.watch d := by
  dsimp only [State.updateLq]
  exact watch_ite d rfl rfl

theorem watch_activate (iop : Iop) : (s.activate iop).watch d = s.watch d := by
  dsimp only [State.activate]
  exact watch_modifyDip s d _ rfl rfl

theorem watch_deactivate (iop : Iop) : (s.deactivate iop).watch d = s.watch d := by
  dsimp only [State.deactivate]
  exact watch_modifyDip s d _ rfl rfl

theorem watch_dipUpdateQ (iop : Iop) : (s.dipUpdateQ iop).watch d = s.watch d := by
  dsimp only [State.dipUpdateQ]
  exact (watch_modifyDip _ d _ rfl rfl).trans (watch_updateLq s d _ _ _)

theorem watch_handleQueue (q : Iop) : (s.handleQueue q).watch d =
    (s.watch d).dispatch [q.id] noTime := by
  dsimp only [State.handleQueue]
  rw [watch_activate]
  have hwatch : (if remapperDev q.t.device then (s.dipUpdateQ q).updateLq (.allAvg .q2qDm) q (s.dipUpdateQ q).lastQ
      else ((s.dipUpdateQ q).report .qHisto q.t.device q.t.bytes.toUInt64).updateLq (.allAvg .q2q) q
        (s.dipUpdateQ q).lastQ).watch d = s.watch d := by
    refine watch_ite d ?_ ?_
    · rw [watch_updateLq, watch_dipUpdateQ]
    · rw [watch_updateLq, watch_report, watch_dipUpdateQ]
  exact (watch_setDTime _ d q.id rfl).trans (congrArg (Watch.dispatch · [q.id] noTime) hwatch)

theorem watch_handleG (g : Iop) :
    (s.handleG g).watch g.t.device = (s.watch g.t.device).count 1 0 := by
  have hgetrq : (s.iostatGetrq g).watch g.t.device = (s.watch g.t.device).count 1 0 := by
    unfold State.watch State.iostatGetrq Watch.count
    rw [State.dip_modifyDip_self, add_zero]
    rfl
  dsimp only [State.handleG]
  cases (s.iostatGetrq g).dipFindSec g.t.device .q g.t.sector with
  | none => exact hgetrq
  | some q =>
    refine watch_ite _ ?_ ?_
    · rw [watch_report, watch_report]
      exact (watch_modifyTimes _ _ _ rfl).trans hgetrq
    · rw [watch_report]
      exact (watch_modifyTimes _ _ _ rfl).trans hgetrq

theorem watch_handleI (i : Iop) : (s.handleI i).watch d = s.watch d := by
  dsimp only [State.handleI]
  cases s.dipFindSec i.t.device .q i.t.sector with
  | none => rfl
  | some q =>
    refine watch_ite d ?_ ?_
    · rw [watch_report]
      exact watch_modifyTimes s d _ rfl
    · exact watch_modifyTimes s d _ rfl

theorem watch_handleM (m : Iop) : (s.handleM m).watch d = s.watch d := by
  have hmerge : (s.iostatMerge m).watch d = s.watch d := by
    dsimp only [State.iostatMerge]
    exact watch_modifyDip s d _ rfl rfl
  dsimp only [State.handleM]
  rw [watch_deactivate]
  cases (s.iostatMerge m).dipFindSec m.t.device .q m.t.sector with
  | none => exact hmerge
  | some q =>
    show ((State.modifyTimes _ _ _).report _ _ _).watch d = _
    rw [watch_report]
    exact (watch_modifyTimes _ _ _ rfl).trans hmerge

theorem watch_issueOne (outputAllData : Bool) (i q : Iop) :
    (s.issueOne outputAllData i q).watch d = (s.watch d).dispatch [q.id] i.t.time := by
  have hwatch : ∀ {s' : State}, s'.watch d = s.watch d →
      (s'.modifyTimes q.id fun x => { x with dTime := i.t.time }).watch d =
        (s.watch d).dispatch [q.id] i.t.time := by
    intro s' hs'
    exact (watch_setDTime s' d _ rfl).trans (congrArg (Watch.dispatch · [q.id] i.t.time) hs')
  dsimp only [State.issueOne]
  rw [watch_report]
  refine watch_ite d ?_ ?_
  · rw [watch_report]
    exact hwatch (watch_ite d rfl (watch_ite d rfl rfl))
  · exact hwatch (watch_ite d rfl (watch_ite d rfl rfl))

/-- The loop of `handle_issue`. -/
theorem watch_issueLoop (outputAllData : Bool) (i : Iop) (qs : List Iop) :
    (qs.foldl (State.issueOne outputAllData i) s).watch d =
      (s.watch d).dispatch (qs.map Iop.id) i.t.time := by
  induction qs generalizing s with
  | nil => rfl
  | cons q qs ih => rw [List.foldl_cons, ih, watch_issueOne, Watch.dispatch_cons, List.map_cons]

theorem watch_handleIssue (outputAllData : Bool) (i : Iop) :
    (s.handleIssue outputAllData i).watch i.t.device =
      ((s.watch i.t.device).count 0 1).dispatch ((s.dipForeachList i .q).map Iop.id) i.t.time := by
  have hissue : ((s.deactivate i).iostatIssue i).watch i.t.device = (s.watch i.t.device).count 0 1 := by
    rw [← watch_deactivate s i.t.device i]
    unfold State.watch State.iostatIssue Watch.count
    rw [State.dip_modifyDip_self, add_zero]
    rfl
  have hquiet : Quiet s ((s.deactivate i).iostatIssue i) :=
    (Quiet.deactivate s i).trans (.iostatIssue _ i)
  dsimp only [State.handleIssue]
  generalize (s.deactivate i).iostatIssue i = s' at hissue hquiet
  have hlist : ∀ {s'' : State}, Quiet s' s'' → s''.dipForeachList i .q = s.dipForeachList i .q := by
    intro s'' h
    unfold State.dipForeachList
    rw [h.heads, hquiet.heads]
  have hnds : (s'.modifyDip i.t.device fun p => { p with nDs := p.nDs + 1 }).watch i.t.device =
      (s.watch i.t.device).count 0 1 := (watch_modifyDip s' _ _ rfl rfl).trans hissue
  rw [watch_issueLoop, watch_ite _ hnds ((watch_report _ _ _ _ _).trans hnds), hlist]
  have hdHisto : Report.dHisto ≠ .avg .q2c ∧ Report.dHisto ≠ .avg .q2cDm := by decide
  have hcounted : Quiet s' (s'.modifyDip i.t.device fun p => { p with nDs := p.nDs + 1 }) :=
    .modifyDip _ _ fun _ => ⟨rfl, rfl⟩
  exact hcounted.trans (.ite (.refl _) (.report _ hdHisto _ _))

theorem watch_completed (c q : Iop) (hdevice : c.t.device = q.t.device) :
    (State.completed c s q).watch q.t.device =
      if (s.times q.id).dTime ≠ noTime then (s.watch q.t.device).count (-1) (-1)
      else s.watch q.t.device := by
  dsimp only [State.completed]
  have htimes : (((s.updateQ2c q (tdelta q.t.time c.t.time)).report .latencyQ2c q.t.device
      (tdelta q.t.time c.t.time)).times q.id) = s.times q.id := rfl
  rw [htimes]
  split_ifs
  · dsimp only [State.iostatComplete]
    unfold State.watch
    rw [State.dip_modifyDip_self, hdevice, State.dip_modifyDip_self]
    rfl
  · rfl

variable {bal : Balancer Iop}

theorem watch_unlink (iop : Iop) (type : IopType) (root : RbTree Iop) :
    (s.unlink iop type root).watch d = s.watch d := by
  dsimp only [State.unlink]
  rw [watch_setLinked]
  exact watch_modifyDip s d _ rfl rfl

theorem watch_link (iop : Iop) (type : IopType) (root : RbTree Iop) :
    (s.link iop type root).watch d = s.watch d := by
  dsimp only [State.link]
  rw [watch_setLinked]
  exact watch_modifyDip s d _ rfl rfl

theorem watch_ioRelease (iop : Iop) : (s.ioRelease bal iop).watch d = s.watch d := by
  show (s.iopRemDip bal iop).watch d = s.watch d
  dsimp only [State.iopRemDip]
  cases s.linked iop.id with
  | none => rfl
  | some type => exact watch_unlink s d iop type _

/-- How many of the records were dispatched. -/
def Watch.dispatched (w : Watch) (qs : List Iop) : ℕ := qs.countP fun q => w.dTime q.id ≠ noTime

/-- The loop of `handle_complete`. -/
theorem watch_completeLoop {c : Iop} {qs : List Iop} (hdevice : ∀ q ∈ qs, q.t.device = c.t.device) :
    (qs.foldl (fun s q => (State.completed c s q).ioRelease bal q) s).watch c.t.device =
      (s.watch c.t.device).count (-((s.watch c.t.device).dispatched qs : ℤ))
        (-((s.watch c.t.device).dispatched qs : ℤ)) := by
  induction qs generalizing s with
  | nil => exact (Watch.count_zero _).symm
  | cons q qs ih =>
    obtain ⟨hq, hqs⟩ := List.forall_mem_cons.mp hdevice
    have hround := watch_completed s c q hq.symm
    rw [hq] at hround
    have hdTime : (s.watch c.t.device).dTime q.id = (s.times q.id).dTime := rfl
    rw [List.foldl_cons, ih _ hqs, watch_ioRelease, hround]
    unfold Watch.dispatched
    rw [List.countP_cons]
    by_cases hd : (s.times q.id).dTime ≠ noTime
    · rw [if_pos hd, hdTime, if_pos (decide_eq_true hd), Watch.count_count]
      push_cast
      rw [neg_add_rev]
      rfl
    · rw [if_neg hd, hdTime, if_neg (by simpa using hd), Nat.add_zero]

/-! ### What `add_trace` does to them -/

variable {s} {iop : Iop}

/-- A record that is linked is handled, and nothing else counts. -/
theorem watch_traceWith {handle : State → Iop → State} {type : IopType} (h : Ready s iop)
    (htype : type ≠ .q) (hcull : (s.dip iop.t.device).preCulling = false) :
    ∃ s', s'.watch d = s.watch d ∧ (s'.dip iop.t.device).heads .q = (s.dip iop.t.device).heads .q ∧
      (s.traceWith bal iop type handle).watch d = (handle s' iop).watch d := by
  obtain ⟨root, hroot, -⟩ := @rbInsert_nil bal iop
  rw [← h.others iop.t.device type htype] at hroot
  refine ⟨s.link iop type root, watch_link s d iop type root, ?_, ?_⟩
  · rw [heads_link_self, Function.update_of_ne htype.symm]
  · have hnot : ¬ ((s.dip iop.t.device).preCulling = true ∧ type ≠ .q ∧ type ≠ .a) := by
      rw [hcull]
      exact fun h => absurd h.1 Bool.false_ne_true
    dsimp only [State.traceWith]
    rw [ioSetup_linked hnot hroot, if_pos isLinked_link, watch_ioRelease]

theorem watch_traceComplete (h : Ready s iop) (hbytes : iop.t.bytes ≠ 0)
    (hcull : (s.dip iop.t.device).preCulling = false)
    (hdevice : ∀ q ∈ s.dipForeachList iop .q, q.t.device = iop.t.device) :
    (s.traceComplete bal iop).watch iop.t.device = (s.watch iop.t.device).count
      (-((s.watch iop.t.device).dispatched (s.dipForeachList iop .q) : ℤ))
      (-((s.watch iop.t.device).dispatched (s.dipForeachList iop .q) : ℤ)) := by
  obtain ⟨s', hwatch, hheads, htrace⟩ :=
    @watch_traceWith s iop.t.device bal iop (fun s c => s.handleComplete bal c) .c h (by decide) hcull
  rw [State.traceComplete, if_neg hbytes, htrace]
  have hlist : (s'.report (.avg .blks) iop.t.device iop.t.tSec.toUInt64).dipForeachList iop .q =
      s.dipForeachList iop .q := congrArg (rbForeach · iop) hheads
  dsimp only [State.handleComplete]
  rw [hlist, watch_completeLoop _ hdevice, watch_report, hwatch]

end

end Blktrace.Btt
