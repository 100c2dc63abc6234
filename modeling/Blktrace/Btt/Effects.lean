import Blktrace.Btt.Trace

/-!
# `btt`: what the handlers do to the trees

Most handlers note times and hand over numbers, and leave the trees alone (`Quiet`). A record that is
not a Q is linked, handled and taken out again, and a C takes the queued records inside it with it
(`Drained`).
-/

namespace Blktrace.Btt

open SearchTree

/-- A sample of a time from Q to C. -/
def Sample.IsQ2c (x : Sample) : Prop := x.report = .avg .q2c ∨ x.report = .avg .q2cDm

instance : DecidablePred Sample.IsQ2c := fun _ => inferInstanceAs (Decidable (_ ∨ _))

/-- The samples of times from Q to C. -/
def State.q2cs (s : State) : List Sample := s.samples.filter (·.IsQ2c)

/-! ## Handlers that leave the trees alone -/

/-- Times, counts and other samples may differ. -/
structure Quiet (s s' : State) : Prop where
  heads : ∀ d, (s'.dip d).heads = (s.dip d).heads
  culling : ∀ d, (s'.dip d).preCulling = (s.dip d).preCulling
  linked : s'.linked = s.linked
  ios : s'.ios = s.ios
  released : s'.released = s.released
  q2cs : s'.q2cs = s.q2cs

namespace Quiet

theorem refl (s : State) : Quiet s s := ⟨fun _ => rfl, fun _ => rfl, rfl, rfl, rfl, rfl⟩

theorem trans {s s' s'' : State} (h : Quiet s s') (h' : Quiet s' s'') : Quiet s s'' where
  heads d := (h'.heads d).trans (h.heads d)
  culling d := (h'.culling d).trans (h.culling d)
  linked := h'.linked.trans h.linked
  ios := h'.ios.trans h.ios
  released := h'.released.trans h.released
  q2cs := h'.q2cs.trans h.q2cs

variable (s : State)

theorem modifyDip (device : UInt32) {f : DInfo → DInfo}
    (hf : ∀ p, (f p).heads = p.heads ∧ (f p).preCulling = p.preCulling) :
    Quiet s (s.modifyDip device f) where
  heads d := s.dip_modifyDip_keeps DInfo.heads device d (hf _).1
  culling d := s.dip_modifyDip_keeps DInfo.preCulling device d (hf _).2
  linked := rfl
  ios := rfl
  released := rfl
  q2cs := rfl

theorem modifyTimes (id : ℕ) (f : Times → Times) : Quiet s (s.modifyTimes id f) := { refl s with }

theorem setLastQ (time : UInt64) : Quiet s { s with lastQ := time } := { refl s with }

theorem report {r : Report} (hr : r ≠ .avg .q2c ∧ r ≠ .avg .q2cDm) (device : UInt32)
    (value : UInt64) : Quiet s (s.report r device value) where
  heads _ := rfl
  culling _ := rfl
  linked := rfl
  ios := rfl
  released := rfl
  q2cs := by
    have hnot : ¬ (⟨r, device, value⟩ : Sample).IsQ2c := not_or.mpr hr
    show (s.samples ++ [_]).filter _ = _
    rw [List.filter_append, List.filter_cons_of_neg (by simpa using hnot)]
    exact List.append_nil _

theorem ite {s s' s'' : State} {c : Prop} [Decidable c] (h : Quiet s s') (h' : Quiet s s'') :
    Quiet s (if c then s' else s'') := by
  split_ifs
  · exact h
  · exact h'

/-- Something may be reported at the end. -/
theorem mayReport {s s' : State} {c : Prop} [Decidable c] {r : Report}
    (hr : r ≠ .avg .q2c ∧ r ≠ .avg .q2cDm) (device : UInt32) (value : UInt64) (h : Quiet s s') :
    Quiet s (if c then s'.report r device value else s') :=
  .ite (h.trans (report s' hr _ _)) h

/-- A loop whose rounds are quiet. -/
theorem foldl {f : State → Iop → State} (hf : ∀ s q, Quiet s (f s q)) (qs : List Iop) :
    Quiet s (qs.foldl f s) := by
  induction qs generalizing s with
  | nil => exact refl s
  | cons q qs ih => exact (hf s q).trans (ih _)

theorem updateQ2a (iop : Iop) (time : UInt64) : Quiet s (s.updateQ2a iop time) := by
  unfold State.updateQ2a
  split_ifs
  · exact report s (by decide) _ _
  · exact report s (by decide) _ _

theorem updateLq {r : Report} (hr : r ≠ .avg .q2c ∧ r ≠ .avg .q2cDm) (iop : Iop) (lastQ : UInt64) :
    Quiet s (s.updateLq r iop lastQ) :=
  .ite (refl s) (report s hr _ _)

theorem activate (iop : Iop) : Quiet s (s.activate iop) := modifyDip s _ fun _ => ⟨rfl, rfl⟩

theorem deactivate (iop : Iop) : Quiet s (s.deactivate iop) := modifyDip s _ fun _ => ⟨rfl, rfl⟩

theorem iostatGetrq (iop : Iop) : Quiet s (s.iostatGetrq iop) := modifyDip s _ fun _ => ⟨rfl, rfl⟩

theorem iostatMerge (iop : Iop) : Quiet s (s.iostatMerge iop) := modifyDip s _ fun _ => ⟨rfl, rfl⟩

theorem iostatIssue (iop : Iop) : Quiet s (s.iostatIssue iop) := modifyDip s _ fun _ => ⟨rfl, rfl⟩

theorem iostatComplete (q c : Iop) : Quiet s (s.iostatComplete q c) := by
  dsimp only [State.iostatComplete]
  refine .trans ?_ (modifyDip _ _ fun _ => ⟨rfl, rfl⟩)
  exact modifyDip s _ fun _ => ⟨rfl, rfl⟩

theorem dipUpdateQ (iop : Iop) : Quiet s (s.dipUpdateQ iop) := by
  dsimp only [State.dipUpdateQ]
  refine .trans ?_ (modifyDip _ _ fun _ => ⟨rfl, rfl⟩)
  refine updateLq s ?_ iop _
  split_ifs <;> decide

theorem handleQueue (q : Iop) : Quiet s (s.handleQueue q) := by
  refine .trans ?_ (activate _ q)
  refine .trans ?_ (modifyTimes _ _ _)
  refine .trans ?_ (setLastQ _ _)
  refine (dipUpdateQ s q).trans (.ite (updateLq _ (by decide) q _) ?_)
  exact (report _ (by decide) _ _).trans (updateLq _ (by decide) q _)

theorem handleG (g : Iop) : Quiet s (s.handleG g) := by
  refine (iostatGetrq s g).trans ?_
  dsimp only [State.handleG]
  cases (s.iostatGetrq g).dipFindSec g.t.device .q g.t.sector with
  | none => exact refl _
  | some q =>
    refine .mayReport (by decide) _ _ (.trans ?_ (report _ (by decide) _ _))
    exact modifyTimes _ _ _

theorem handleS (x : Iop) : Quiet s (s.handleS x) := by
  unfold State.handleS
  cases s.dipFindSec x.t.device .q x.t.sector with
  | none => exact refl s
  | some q => exact modifyTimes s _ _

theorem handleI (i : Iop) : Quiet s (s.handleI i) := by
  unfold State.handleI
  cases s.dipFindSec i.t.device .q i.t.sector with
  | none => exact refl s
  | some q => exact .mayReport (by decide) _ _ (modifyTimes s _ _)

theorem handleM (m : Iop) : Quiet s (s.handleM m) := by
  refine .trans ?_ (deactivate _ m)
  refine (iostatMerge s m).trans ?_
  cases (s.iostatMerge m).dipFindSec m.t.device .q m.t.sector with
  | none => exact refl _
  | some q => exact (modifyTimes _ _ _).trans (report _ (by decide) _ _)

theorem issueOne (outputAllData : Bool) (d q : Iop) : Quiet s (s.issueOne outputAllData d q) := by
  refine .trans ?_ (report _ (by decide) _ _)
  refine .mayReport (by decide) _ _ (.trans ?_ (modifyTimes _ _ _))
  exact .ite (report _ (by decide) _ _) (.ite (report _ (by decide) _ _) (refl _))

theorem handleIssue (outputAllData : Bool) (d : Iop) : Quiet s (s.handleIssue outputAllData d) := by
  refine .trans ?_ (foldl _ (fun s q => issueOne s outputAllData d q) _)
  refine .trans ?_ (.ite (refl _) (report _ (by decide) _ _))
  exact (deactivate s d).trans ((iostatIssue _ d).trans (modifyDip _ _ fun _ => ⟨rfl, rfl⟩))

theorem handleRemap (deviceFrom : UInt32) (sectorFrom : UInt64) (a : Iop) :
    Quiet s (State.handleRemap deviceFrom sectorFrom s a) := by
  unfold State.handleRemap
  cases s.dips deviceFrom with
  | none => exact refl s
  | some dip =>
    cases s.dipFindSec deviceFrom .q sectorFrom with
    | none => exact refl s
    | some q => exact updateQ2a s q _

theorem unplugHistAdd (iop : Iop) (nios : UInt64) : Quiet s (s.unplugHistAdd iop nios) := by
  unfold State.unplugHistAdd
  cases s.dips iop.t.device with
  | none => exact refl s
  | some dip => exact report s (by decide) _ _

theorem dipPlug (device : UInt32) : Quiet s (s.dipPlug device) := by
  unfold State.dipPlug
  cases s.dips device with
  | none => exact refl s
  | some dip => exact modifyDip s _ fun _ => ⟨rfl, rfl⟩

theorem dipUnplug (device : UInt32) (nios : UInt64) : Quiet s (s.dipUnplug device nios) := by
  unfold State.dipUnplug
  cases s.dips device with
  | none => exact refl s
  | some dip => exact .ite (modifyDip s _ fun _ => ⟨rfl, rfl⟩) (refl s)

theorem dipUnplugTm (device : UInt32) (nios : UInt64) : Quiet s (s.dipUnplugTm device nios) := by
  unfold State.dipUnplugTm
  cases s.dips device with
  | none => exact refl s
  | some dip => exact .ite (modifyDip s _ fun _ => ⟨rfl, rfl⟩) (refl s)

end Quiet

/-! ## What is done to the trees -/

variable {bal : Balancer Iop}

/-- What is handed over for a queued record when it is completed. -/
def q2cSample (c q : Iop) : Sample :=
  ⟨.avg (q2cAvg q.t.device), q.t.device, tdelta q.t.time c.t.time⟩

theorem isQ2c_q2cSample (c q : Iop) : (q2cSample c q).IsQ2c := by
  unfold q2cSample Sample.IsQ2c q2cAvg
  split_ifs
  · exact .inr rfl
  · exact .inl rfl

/-- The records `qs` are out of the tree of the queued ones of their device, `done` are released, and all
other trees are as they were. -/
structure Drained (s : State) (qs : List Iop) (c : Iop) (done : List ℕ) (s' : State) : Prop where
  tree : ((s'.dip c.t.device).heads .q).toList = ((s.dip c.t.device).heads .q).toList.diff qs
  heads : ∀ d type, d ≠ c.t.device ∨ type ≠ .q → (s'.dip d).heads type = (s.dip d).heads type
  culling : ∀ d, (s'.dip d).preCulling = true → (s.dip d).preCulling = true
  linked : ∀ id, s'.linked id = if id ∈ qs.map Iop.id then none else s.linked id
  ios : s'.ios = s.ios
  released : s'.released = done ++ s.released
  q2cs : s'.q2cs = s.q2cs ++ qs.map (q2cSample c)

theorem Drained.nil {s : State} {c : Iop} : Drained s [] c [] s where
  tree := rfl
  heads _ _ _ := rfl
  culling _ := id
  linked _ := rfl
  ios := rfl
  released := rfl
  q2cs := (List.append_nil _).symm

theorem Drained.append {s s' s'' : State} {qs qs' : List Iop} {c : Iop} {done done' : List ℕ}
    (h : Drained s qs c done s') (h' : Drained s' qs' c done' s'') :
    Drained s (qs ++ qs') c (done' ++ done) s'' where
  tree := by rw [h'.tree, h.tree, List.diff_append]
  heads d type hd := (h'.heads d type hd).trans (h.heads d type hd)
  culling d hd := h.culling d (h'.culling d hd)
  linked id := by
    rw [h'.linked, h.linked, List.map_append]
    by_cases hid' : id ∈ qs'.map Iop.id
    · rw [if_pos hid', if_pos (List.mem_append_right _ hid')]
    rw [if_neg hid']
    by_cases hid : id ∈ qs.map Iop.id
    · rw [if_pos hid, if_pos (List.mem_append_left _ hid)]
    · rw [if_neg hid, if_neg fun h => (List.mem_append.mp h).elim hid hid']
  ios := h'.ios.trans h.ios
  released := by rw [h'.released, h.released, List.append_assoc]
  q2cs := by rw [h'.q2cs, h.q2cs, List.map_append, List.append_assoc]

/-- Handing over something else first changes nothing in that. -/
theorem Drained.of_quiet {s s' s'' : State} {qs : List Iop} {c : Iop} {done : List ℕ} (h : Quiet s s')
    (h' : Drained s' qs c done s'') : Drained s qs c done s'' where
  tree := by rw [h'.tree, h.heads]
  heads d type hd := by rw [h'.heads d type hd, h.heads]
  culling d hd := (h.culling d) ▸ h'.culling d hd
  linked id := by rw [h'.linked, h.linked]
  ios := h'.ios.trans h.ios
  released := by rw [h'.released, h.released]
  q2cs := by rw [h'.q2cs, h.q2cs]

theorem Quiet.drained {s s' : State} (h : Quiet s s') (c : Iop) : Drained s [] c [] s' := by
  refine ⟨?_, fun d type _ => ?_, fun d hd => ?_, fun _ => ?_, h.ios, h.released, ?_⟩
  · rw [h.heads, List.diff_nil]
  · rw [h.heads]
  · exact (h.culling d).symm.trans hd
  · rw [h.linked]
    rfl
  · exact h.q2cs.trans (List.append_nil _).symm

/-! ## Linked and taken out -/

section

variable {s : State} {iop : Iop} {type : IopType} {root : RbTree Iop}

theorem heads_link_self : ((s.link iop type root).dip iop.t.device).heads =
    Function.update (s.dip iop.t.device).heads type root := by
  rw [State.link, State.dip_setLinked, State.dip_modifyDip_self]

theorem dip_link_of_ne {d : UInt32} (h : d ≠ iop.t.device) :
    (s.link iop type root).dip d = s.dip d := by
  rw [State.link, State.dip_setLinked, State.dip_modifyDip_of_ne s h]

theorem heads_unlink_self : ((s.unlink iop type root).dip iop.t.device).heads =
    Function.update (s.dip iop.t.device).heads type root := by
  rw [State.unlink, State.dip_setLinked, State.dip_modifyDip_self]

theorem dip_unlink_of_ne {d : UInt32} (h : d ≠ iop.t.device) :
    (s.unlink iop type root).dip d = s.dip d := by
  rw [State.unlink, State.dip_setLinked, State.dip_modifyDip_of_ne s h]

theorem linked_link : (s.link iop type root).linked = Function.update s.linked iop.id (some type) := rfl

theorem linked_unlink : (s.unlink iop type root).linked = Function.update s.linked iop.id none := rfl

/-- A device that has linked a record is past its first Q or A. -/
theorem preCulling_link {d : UInt32} (h : ((s.link iop type root).dip d).preCulling = true) :
    (s.dip d).preCulling = true ∧ d ≠ iop.t.device := by
  rw [State.link, State.dip_setLinked, State.dip_modifyDip] at h
  split_ifs at h with hd
  exact ⟨h, hd⟩

theorem preCulling_unlink (d : UInt32) :
    ((s.unlink iop type root).dip d).preCulling = (s.dip d).preCulling := by
  rw [State.unlink, State.dip_setLinked]
  exact s.dip_modifyDip_keeps DInfo.preCulling _ d rfl

/-- Before its first Q or A a device takes nothing else. -/
theorem ioSetup_culled (h : (s.dip iop.t.device).preCulling = true) (hq : type ≠ .q) (ha : type ≠ .a) :
    s.ioSetup bal iop type = s.modifyDip iop.t.device id := if_pos ⟨h, hq, ha⟩

/-- A record that the tree takes is linked. -/
theorem ioSetup_linked
    (h : ¬ ((s.dip iop.t.device).preCulling = true ∧ type ≠ .q ∧ type ≠ .a))
    (hroot : rbInsert bal ((s.dip iop.t.device).heads type) iop = some root) :
    s.ioSetup bal iop type = s.link iop type root := by
  refine (if_neg h).trans ?_
  rw [hroot]

theorem isLinked_link : (s.link iop type root).isLinked iop = true := by
  show (Function.update s.linked iop.id (some type) iop.id).isSome = true
  rw [Function.update_self]
  rfl

/-- A record that is linked is taken out. -/
theorem ioRelease_linked (h : s.linked iop.id = some type) :
    s.ioRelease bal iop =
      { s.unlink iop type (bal.erase iop ((s.dip iop.t.device).heads type)) with
        released := iop.id :: s.released } := by
  unfold State.ioRelease State.iopRemDip
  rw [h]
  rfl

/-- Where `add_trace` stands with a new record: only queued ones are linked. -/
structure Ready (s : State) (iop : Iop) : Prop where
  others : ∀ d type, type ≠ .q → (s.dip d).heads type = .nil
  unlinked : s.linked iop.id = none

/-- A record that is not linked is released. -/
theorem drained_ioRelease (h : s.linked iop.id = none) : Drained s [] iop [iop.id] (s.ioRelease bal iop) := by
  have hrem : s.iopRemDip bal iop = s := by rw [State.iopRemDip, h]
  have hrelease : s.ioRelease bal iop = { s with released := iop.id :: s.released } := by
    rw [State.ioRelease, hrem]
  rw [hrelease]
  exact ⟨rfl, fun _ _ _ => rfl, fun _ => id, fun _ => rfl, rfl, rfl, (List.append_nil _).symm⟩

/-- An empty tree takes any record, and is empty when it is taken out. -/
theorem rbInsert_nil (iop : Iop) :
    ∃ root, rbInsert bal .nil iop = some root ∧ bal.erase iop root = .nil := by
  refine ⟨_, rfl, RbTree.eq_nil_of_toList ?_⟩
  have hlist : (bal.insertColor iop (.node true .nil iop .nil)).toList = [iop] :=
    bal.toList_insertColor _ _
  rw [bal.toList_erase _ _ (by rw [hlist]; exact List.nodup_singleton _), hlist]
  exact List.erase_cons_head iop []

/-- A record that is not a Q is linked before what is done with it, and taken out after. -/
theorem drained_link {s' : State} {qs : List Iop} {done : List ℕ} (h : Ready s iop) (htype : type ≠ .q)
    (hnot : iop.id ∉ qs.map Iop.id) (herase : bal.erase iop root = .nil)
    (hdone : Drained (s.link iop type root) qs iop done s') :
    Drained s qs iop (iop.id :: done) (s'.ioRelease bal iop) := by
  have hlinked : s'.linked iop.id = some type := by
    rw [hdone.linked, if_neg hnot, linked_link, Function.update_self]
  have hroot : (s'.dip iop.t.device).heads type = root := by
    rw [hdone.heads _ _ (.inr htype), heads_link_self, Function.update_self]
  rw [ioRelease_linked hlinked, hroot, herase]
  refine ⟨?_, fun d type' hd => ?_, fun d hd => ?_, fun id => ?_, hdone.ios, ?_, hdone.q2cs⟩
  · show (((State.unlink s' iop type .nil).dip iop.t.device).heads .q).toList = _
    rw [heads_unlink_self, Function.update_of_ne htype.symm, hdone.tree, heads_link_self,
      Function.update_of_ne htype.symm]
  · show ((State.unlink s' iop type .nil).dip d).heads type' = _
    by_cases hself : d = iop.t.device
    · rw [hself, heads_unlink_self]
      by_cases hsame : type' = type
      · rw [hsame, Function.update_self, h.others _ _ htype]
      · rw [Function.update_of_ne hsame, hdone.heads _ _ (hself ▸ hd), heads_link_self,
          Function.update_of_ne hsame]
    · rw [dip_unlink_of_ne hself, hdone.heads d type' hd, dip_link_of_ne hself]
  · have hd : (s'.dip d).preCulling = true := by
      rw [← preCulling_unlink d]
      exact hd
    exact (preCulling_link (hdone.culling d hd)).1
  · show (State.unlink s' iop type .nil).linked id = _
    rw [linked_unlink, Function.update_apply, hdone.linked, linked_link, Function.update_apply]
    by_cases hid : id = iop.id
    · rw [if_pos hid, hid, if_neg hnot, h.unlinked]
    · rw [if_neg hid, if_neg hid]
  · exact congrArg (iop.id :: ·) hdone.released

/-- So is what a handler does that is called with it. -/
theorem drained_traceWith {handle : State → Iop → State} {qs : List Iop} {done : List ℕ}
    (h : Ready s iop) (htype : type ≠ .q) (hnot : iop.id ∉ qs.map Iop.id)
    (hculled : (s.dip iop.t.device).preCulling = true → qs = [] ∧ done = [])
    (hhandle : ∀ root, Drained (s.link iop type root) qs iop done (handle (s.link iop type root) iop)) :
    Drained s qs iop (iop.id :: done) (s.traceWith bal iop type handle) := by
  dsimp only [State.traceWith]
  by_cases hcull : (s.dip iop.t.device).preCulling = true ∧ type ≠ .q ∧ type ≠ .a
  · obtain ⟨rfl, rfl⟩ := hculled hcull.1
    have hunlinked : (s.modifyDip iop.t.device id).linked iop.id = none := h.unlinked
    have hisLinked : ¬ (s.modifyDip iop.t.device id).isLinked iop = true := by
      rw [State.isLinked, hunlinked]
      exact Bool.false_ne_true
    rw [ioSetup_culled hcull.1 hcull.2.1 hcull.2.2, if_neg hisLinked]
    exact .of_quiet (.modifyDip s _ fun _ => ⟨rfl, rfl⟩) (drained_ioRelease hunlinked)
  · obtain ⟨root, hroot, herase⟩ := @rbInsert_nil bal iop
    rw [← h.others iop.t.device type htype] at hroot
    rw [ioSetup_linked hcull hroot, if_pos isLinked_link]
    exact drained_link h htype hnot herase (hhandle root)

/-- **A record that is neither queued nor completed** takes no other out. -/
theorem drained_analyse {τ : Type*} {opts : Options τ} {s s' : State} {iop : Iop} (h : Ready s iop)
    (hrun : s.analyse bal opts iop = some s')
    (hq : BlkTa.ofAction iop.t.action = some .queue → iop.t.bytes = 0)
    (hc : BlkTa.ofAction iop.t.action = some .complete → iop.t.bytes = 0) :
    ∃ done, (done = [] ∨ done = [iop.id]) ∧ Drained s [] iop done s' := by
  have hnone : ∃ done, (done = [] ∨ done = [iop.id]) ∧ Drained s [] iop done s :=
    ⟨[], .inl rfl, .nil⟩
  have hrelease : ∀ {s'}, Quiet s s' →
      ∃ done, (done = [] ∨ done = [iop.id]) ∧ Drained s [] iop done (s'.ioRelease bal iop) := by
    intro s' hquiet
    exact ⟨_, .inr rfl, .of_quiet hquiet (drained_ioRelease (hquiet.linked ▸ h.unlinked))⟩
  have hlinked : ∀ {type : IopType} {handle : State → Iop → State}, type ≠ .q →
      (∀ s, Quiet s (handle s iop)) →
      ∃ done, (done = [] ∨ done = [iop.id]) ∧ Drained s [] iop done (s.traceWith bal iop type handle) := by
    intro type handle htype hhandle
    refine ⟨_, .inr rfl, drained_traceWith h htype List.not_mem_nil (fun _ => ⟨rfl, rfl⟩) fun root => ?_⟩
    exact (hhandle _).drained iop
  have hwith : ∀ {type : IopType} {handle : State → Iop → State}, type ≠ .q →
      (∀ s, Quiet s (handle s iop)) → ∃ done, (done = [] ∨ done = [iop.id]) ∧
        Drained s [] iop done (if iop.t.bytes = 0 then s else s.traceWith bal iop type handle) := by
    intro type handle htype hhandle
    split_ifs
    · exact hnone
    · exact hlinked htype hhandle
  unfold State.analyse at hrun
  split at hrun
  case h_1 haction =>
    obtain rfl := Option.some.inj hrun
    rw [State.traceQueue, if_pos (hq haction)]
    exact hnone
  case h_2 haction =>
    unfold State.traceRemap at hrun
    split_ifs at hrun with hignore hshort
    · obtain rfl := Option.some.inj hrun
      exact hrelease (.refl s)
    · obtain rfl := Option.some.inj hrun
      exact hlinked (by decide) fun s => Quiet.handleRemap s _ _ iop
  case h_3 haction =>
    obtain rfl := Option.some.inj hrun
    exact hwith (by decide) fun s => Quiet.handleI s iop
  case h_4 haction =>
    obtain rfl := Option.some.inj hrun
    exact hwith (by decide) fun s => Quiet.handleG s iop
  case h_5 haction =>
    obtain rfl := Option.some.inj hrun
    exact hwith (by decide) fun s => Quiet.handleM s iop
  case h_6 haction =>
    obtain rfl := Option.some.inj hrun
    exact hwith (by decide) fun s => Quiet.handleM s iop
  case h_7 haction =>
    obtain rfl := Option.some.inj hrun
    exact hlinked (by decide) fun s => Quiet.activate s iop
  case h_8 haction =>
    obtain rfl := Option.some.inj hrun
    exact hwith (by decide) fun s => Quiet.handleIssue s _ iop
  case h_9 haction =>
    obtain rfl := Option.some.inj hrun
    rw [State.traceComplete, if_pos (hc haction)]
    exact hnone
  case h_10 haction =>
    obtain rfl := Option.some.inj hrun
    exact hrelease (.dipPlug s iop.t.device)
  case h_11 haction =>
    obtain ⟨nios, -, rfl⟩ := Option.map_eq_some_iff.mp hrun
    exact hrelease ((Quiet.unplugHistAdd s iop nios).trans (.dipUnplug _ iop.t.device nios))
  case h_12 haction =>
    obtain ⟨nios, -, rfl⟩ := Option.map_eq_some_iff.mp hrun
    exact hrelease (.dipUnplugTm s iop.t.device nios)
  case h_13 haction =>
    obtain rfl := Option.some.inj hrun
    exact hwith (by decide) fun s => Quiet.handleS s iop
  case h_14 =>
    obtain rfl := Option.some.inj hrun
    exact hrelease (.refl s)

/-- A record that the tree of queued ones takes stays in it. -/
theorem traceQueue_linked (hbytes : iop.t.bytes ≠ 0)
    (hroot : rbInsert bal ((s.dip iop.t.device).heads .q) iop = some root) :
    s.traceQueue bal iop = (s.link iop .q root).handleQueue iop := by
  dsimp only [State.traceQueue]
  rw [if_neg hbytes, ioSetup_linked (fun h => h.2.1 rfl) hroot, if_pos isLinked_link]

end

/-! ## Completions -/

section

variable {s : State} {c q : Iop}

/-- Only the first thing that is handed over is a time from Q to C. -/
theorem quiet_completed (s : State) (c q : Iop) :
    Quiet (s.updateQ2c q (tdelta q.t.time c.t.time)) (State.completed c s q) := by
  dsimp only [State.completed]
  refine .ite (.trans ?_ (.iostatComplete _ q c)) (.report _ (by decide) _ _)
  refine .trans ?_ (.report _ (by decide) _ _)
  refine .trans ?_ (.report _ (by decide) _ _)
  exact .report _ (by decide) _ _

theorem q2cs_updateQ2c (s : State) (c q : Iop) :
    (s.updateQ2c q (tdelta q.t.time c.t.time)).q2cs = s.q2cs ++ [q2cSample c q] := by
  show (s.samples ++ [q2cSample c q]).filter _ = _
  rw [List.filter_append, List.filter_cons_of_pos (by simpa using isQ2c_q2cSample c q)]
  rfl

/-- One of the queued records. -/
theorem drained_one (hdevice : q.t.device = c.t.device) (hlinked : s.linked q.id = some .q)
    (htree : ((s.dip c.t.device).heads .q).toList.Nodup) :
    Drained s [q] c [q.id] ((State.completed c s q).ioRelease bal q) := by
  have hquiet := quiet_completed s c q
  have hheads : ∀ d, ((State.completed c s q).dip d).heads = (s.dip d).heads := hquiet.heads
  have hroot : (((State.completed c s q).dip q.t.device).heads .q) = (s.dip c.t.device).heads .q := by
    rw [hheads, hdevice]
  rw [ioRelease_linked (hquiet.linked ▸ hlinked), hroot]
  refine ⟨?_, fun d type hd => ?_, fun d hd => ?_, fun id => ?_, hquiet.ios, ?_, ?_⟩
  · show (((State.unlink _ q .q _).dip c.t.device).heads .q).toList = _
    rw [← hdevice, heads_unlink_self, Function.update_self, hdevice, bal.toList_erase _ _ htree,
      List.diff_cons, List.diff_nil]
  · show ((State.unlink _ q .q _).dip d).heads type = _
    by_cases hself : d = q.t.device
    · have htype : type ≠ .q := hd.resolve_left fun hne => hne (hself.trans hdevice)
      rw [hself, heads_unlink_self, Function.update_of_ne htype, hheads]
    · rw [dip_unlink_of_ne hself, hheads]
  · have hd : ((State.completed c s q).dip d).preCulling = true := by
      rw [← preCulling_unlink d]
      exact hd
    exact (hquiet.culling d).symm.trans hd
  · show (State.unlink _ q .q _).linked id = _
    rw [linked_unlink, hquiet.linked, Function.update_apply]
    simp only [List.map_cons, List.map_nil, List.mem_singleton]
    rfl
  · exact congrArg (q.id :: ·) hquiet.released
  · exact hquiet.q2cs.trans (q2cs_updateQ2c s c q)

/-- **The loop of `handle_complete`.** -/
theorem drained_foldl {qs : List Iop} (hdevice : ∀ q ∈ qs, q.t.device = c.t.device)
    (hlinked : ∀ q ∈ qs, s.linked q.id = some .q) (hids : (qs.map Iop.id).Nodup)
    (htree : ((s.dip c.t.device).heads .q).toList.Nodup) :
    Drained s qs c (qs.map Iop.id).reverse
      (qs.foldl (fun s q => (State.completed c s q).ioRelease bal q) s) := by
  induction qs generalizing s with
  | nil => exact .nil
  | cons q qs ih =>
    obtain ⟨hq, hqs⟩ := List.forall_mem_cons.mp hlinked
    obtain ⟨hd, hds⟩ := List.forall_mem_cons.mp hdevice
    obtain ⟨hfresh, hids⟩ := List.nodup_cons.mp hids
    have hone := @drained_one bal s c q hd hq htree
    rw [List.foldl_cons, List.map_cons, List.reverse_cons]
    refine hone.append (ih hds (fun p hp => ?_) hids ?_)
    · rw [hone.linked, if_neg]
      · exact hqs p hp
      · intro hmem
        have hsame : p.id = q.id := List.mem_singleton.mp hmem
        exact hfresh (hsame ▸ List.mem_map_of_mem hp)
    · rw [hone.tree]
      exact htree.diff

/-- **A C** takes the queued records inside it out of the tree. -/
theorem drained_traceComplete (h : Ready s c) (hbytes : c.t.bytes ≠ 0)
    (hculled : (s.dip c.t.device).preCulling = true → (s.dip c.t.device).heads .q = .nil)
    (hdevice : ∀ q ∈ s.dipForeachList c .q, q.t.device = c.t.device)
    (hlinked : ∀ q ∈ s.dipForeachList c .q, s.linked q.id = some .q)
    (hids : ((s.dipForeachList c .q).map Iop.id).Nodup)
    (htree : ((s.dip c.t.device).heads .q).toList.Nodup) :
    Drained s (s.dipForeachList c .q) c (c.id :: ((s.dipForeachList c .q).map Iop.id).reverse)
      (s.traceComplete bal c) := by
  have hnot : c.id ∉ (s.dipForeachList c .q).map Iop.id := by
    intro hmem
    obtain ⟨q, hq, hid⟩ := List.mem_map.mp hmem
    have hsome := hlinked q hq
    rw [hid, h.unlinked] at hsome
    exact absurd hsome (by simp)
  rw [State.traceComplete, if_neg hbytes]
  refine drained_traceWith h (by decide) hnot (fun hcull => ?_) fun root => ?_
  · have hempty : s.dipForeachList c .q = [] := by
      rw [State.dipForeachList, hculled hcull]
      rfl
    rw [hempty]
    exact ⟨rfl, rfl⟩
  have hhead : ((s.link c .c root).dip c.t.device).heads .q = (s.dip c.t.device).heads .q := by
    rw [heads_link_self, Function.update_of_ne (by decide)]
  have hquiet := Quiet.report (s.link c .c root) (by decide : Report.avg .blks ≠ .avg .q2c ∧
    Report.avg .blks ≠ .avg .q2cDm) c.t.device c.t.tSec.toUInt64
  have hlist : State.dipForeachList ((s.link c .c root).report (.avg .blks) c.t.device
      c.t.tSec.toUInt64) c .q = s.dipForeachList c .q := congrArg (rbForeach · c) hhead
  refine .of_quiet hquiet ?_
  dsimp only [State.handleComplete]
  rw [hlist]
  refine drained_foldl hdevice (fun q hq => ?_) hids ?_
  · show (s.link c .c root).linked q.id = some .q
    have hne : q.id ≠ c.id := fun hid => hnot (hid ▸ List.mem_map_of_mem hq)
    rw [linked_link, Function.update_of_ne hne]
    exact hlinked q hq
  · show (((s.link c .c root).dip c.t.device).heads .q).toList.Nodup
    rw [hhead]
    exact htree

end

/-! ## `add_trace` -/

section

variable {τ : Type*} [LinearOrder τ] (clock : BitTime τ) (opts : Options τ)

/-- A record of the given action that is analysed, and is not empty. -/
def Accepted (ta : BlkTa) (t : BlkIoTrace) : Prop :=
  addTrace clock opts.bounds t = .analysed ∧ BlkTa.ofAction t.action = some ta ∧ t.bytes ≠ 0

instance (ta : BlkTa) : DecidablePred (Accepted clock opts ta) :=
  fun _ => inferInstanceAs (Decidable (_ ∧ _ ∧ _))

variable {clock opts} {s s' : State} {t : BlkIoTrace}

/-- A message is linked and taken out; all else that is not analysed is released. -/
theorem drained_noted {iop : Iop} (h : Ready s iop) :
    Drained s [] iop [iop.id] (if t.isMessage then s.traceMessage bal iop else s.ioRelease bal iop) := by
  split_ifs
  · have hwith : s.traceMessage bal iop = s.traceWith bal iop .m fun s _ => s := by
      dsimp only [State.traceMessage, State.traceWith]
      rw [ite_self]
    rw [hwith]
    exact drained_traceWith h (by decide) List.not_mem_nil (fun _ => ⟨rfl, rfl⟩) fun _ => .nil
  · exact drained_ioRelease h.unlinked

/-- What `add_trace` does with the record that `io_alloc` made for it. -/
theorem addTrace_cases (h : Ready s ⟨s.ios, t⟩) (hrun : s.addTrace bal opts clock t = some s') :
    (Accepted clock opts .queue t ∧ s' = { s with ios := s.ios + 1 }.traceQueue bal ⟨s.ios, t⟩) ∨
      (Accepted clock opts .complete t ∧ s' = { s with ios := s.ios + 1 }.traceComplete bal ⟨s.ios, t⟩) ∨
      (¬ Accepted clock opts .queue t ∧ ¬ Accepted clock opts .complete t ∧
        ∃ done, (done = [] ∨ done = [s.ios]) ∧
          Drained { s with ios := s.ios + 1 } [] ⟨s.ios, t⟩ done s') := by
  have hready : Ready { s with ios := s.ios + 1 } ⟨s.ios, t⟩ := ⟨h.others, h.unlinked⟩
  dsimp only [State.addTrace] at hrun
  cases hfate : addTrace clock opts.bounds t with
  | analysed =>
    rw [hfate] at hrun
    by_cases hq : Accepted clock opts .queue t
    · refine .inl ⟨hq, ?_⟩
      dsimp only [State.analyse] at hrun
      rw [hq.2.1] at hrun
      exact (Option.some.inj hrun).symm
    by_cases hc : Accepted clock opts .complete t
    · refine .inr (.inl ⟨hc, ?_⟩)
      dsimp only [State.analyse] at hrun
      rw [hc.2.1] at hrun
      exact (Option.some.inj hrun).symm
    refine .inr (.inr ⟨hq, hc, drained_analyse hready hrun (fun ha => ?_) fun ha => ?_⟩)
    · by_contra hbytes
      exact hq ⟨hfate, ha, hbytes⟩
    · by_contra hbytes
      exact hc ⟨hfate, ha, hbytes⟩
  | released | done =>
    all_goals
      rw [hfate] at hrun
      obtain rfl := Option.some.inj hrun
      refine .inr (.inr ⟨fun hq => ?_, fun hc => ?_, _, .inr rfl, drained_noted hready⟩)
      · exact absurd (hfate.symm.trans hq.1) (by decide)
      · exact absurd (hfate.symm.trans hc.1) (by decide)

end

end Blktrace.Btt
