import Blktrace.Btt.Output

/-!
# `btt`: what a section changes, and what it looks at

Four parts of the state are looked at by one section and changed by one: the counts of queued requests, and three
of the totals. The averages that are computed on the way are looked at by none, and the totals of the seeks begin
anew in each section that has them. All else stays as it is.
-/

namespace Blktrace.Btt

open Sections

/-! ## Views of the state -/

/-- A part of the state that is not just kept. -/
inductive Part
  | qs | merges | plugs | actQs
deriving DecidableEq

/-- The parts that a section looks at. -/
def Sec.looks : Sec → Part → Bool
  | .mergeRatio, .qs => true
  | .mergeRatio, .merges => true
  | .plug, .plugs => true
  | .actQ, .qs => true
  | .actQ, .actQs => true
  | _, _ => false

/-- The parts that it changes. -/
def Sec.changes : Sec → Part → Bool
  | .mergeRatio, .qs => true
  | .mergeRatio, .merges => true
  | .plug, .plugs => true
  | .actQ, .actQs => true
  | _, _ => false

section

variable (look : Part → Bool)

/-- A device with those parts only that are looked at. -/
def DipOut.view (dip : DipOut) : DipOut :=
  { dip with
    avgs := fun a => { dip.avgs a with avg := 0 }
    nQs := bif look .qs then dip.nQs else 0
    isPlugged := bif look .plugs then dip.isPlugged else false
    nplugs := bif look .plugs then dip.nplugs else 0
    niosUp := bif look .plugs then dip.niosUp else 0
    pluggedTime := bif look .plugs then dip.pluggedTime else 0 }

/-- The state with those parts only. -/
def Out.view (s : Out) : Out :=
  { s with
    dips := fun d => (s.dips d).view look
    pips := fun i a => { s.pips i a with avg := 0 }
    allAvgs := fun a => { s.allAvgs a with avg := 0 }
    nSeeks := 0
    seekInfo := {}
    nMerges := bif look .merges then s.nMerges else 0
    mergeData := bif look .merges then s.mergeData else {}
    nPlugs := bif look .plugs then s.nPlugs else 0
    plugInfo := bif look .plugs then s.plugInfo else {}
    niosPlugInfo := bif look .plugs then s.niosPlugInfo else {}
    nActQs := bif look .actQs then s.nActQs else 0
    actQInfo := bif look .actQs then s.actQInfo else {} }

end

variable {look : Part → Bool} {s s' : Out}

/-- What is written over is not seen. -/
theorem fun_update {ι β γ : Type*} [DecidableEq ι] {f : ι → β} {g : β → γ} {i : ι} {x : β} (h : g x = g (f i)) :
    (fun j => g (Function.update f i x j)) = fun j => g (f j) := by
  funext j
  by_cases hj : j = i
  · subst hj
    rw [Function.update_self, h]
  · rw [Function.update_of_ne hj]

theorem setDip_self (d : UInt32) : s.setDip d (s.dips d) = s := by
  rw [Out.setDip, Function.update_eq_self]

/-- A device that is written is written in the view. -/
theorem view_setDip (d : UInt32) (dip : DipOut) :
    (s.setDip d dip).view look = (s.view look).setDip d (dip.view look) :=
  congrArg (fun dips => { s.view look with dips := dips }) (Function.comp_update (DipOut.view look) s.dips d dip)

theorem view_setDip_of_eq {d : UInt32} {dip : DipOut} (h : dip.view look = (s.dips d).view look) :
    (s.setDip d dip).view look = s.view look := by
  rw [view_setDip, h]
  exact setDip_self d

theorem cond_again {β : Type} (c : Bool) (x y : β) :
    (bif c then bif c then x else y else y) = bif c then x else y := by
  cases c <;> rfl

theorem view_view (s : Out) : (s.view look).view look = s.view look := by
  simp only [Out.view, DipOut.view, cond_again]

theorem view_setDip_view {d : UInt32} {dip dip' : DipOut} (h : dip'.view look = dip.view look) :
    ((s.view look).setDip d dip').view look = (s.setDip d dip).view look := by
  rw [view_setDip, view_view, h, view_setDip]

/-! ## Averages -/

theorem outputAvg_info (ttl : Title) (ap : AvgOut) : (outputAvg ttl ap).1.toAvgInfo = ap.toAvgInfo := by
  unfold outputAvg
  split_ifs <;> rfl

theorem outputAvgOf_info (ttl : Title) (ap : AvgOut) : (outputAvgOf ttl ap).1.toAvgInfo = ap.toAvgInfo := by
  unfold outputAvgOf
  split_ifs
  · exact outputAvg_info ttl _
  · rfl

/-- The average that was there before is not looked at. -/
theorem outputAvg_lines (ttl : Title) (ap : AvgOut) :
    (outputAvg ttl { ap with avg := 0 }).2 = (outputAvg ttl ap).2 := by
  unfold outputAvg
  split_ifs <;> rfl

theorem outputAvgOf_lines (ttl : Title) (ap : AvgOut) :
    (outputAvgOf ttl { ap with avg := 0 }).2 = (outputAvgOf ttl ap).2 := by
  unfold outputAvgOf
  split_ifs <;> rfl

theorem noAvg_eq {ap ap' : AvgOut} (h : ap.toAvgInfo = ap'.toAvgInfo) :
    ({ ap with avg := 0 } : AvgOut) = { ap' with avg := 0 } := congrArg (AvgOut.mk · 0) h

theorem preserves_outputDipAvgAt (a : Avg) (d : UInt32) : Preserves (Out.view look) (outputDipAvgAt a d) := by
  intro s
  apply view_setDip_of_eq
  have havgs := fun_update (f := (s.dips d).avgs) (g := fun ap : AvgOut => { ap with avg := 0 })
    (noAvg_eq (outputAvgOf_info (.dip d) ((s.dips d).avgs a)))
  exact congrArg (fun avgs => { (s.dips d).view look with avgs := avgs }) havgs

theorem seesOnly_outputDipAvg (devices : List UInt32) (a : Avg) :
    SeesOnly (Out.view look) (outputDipAvg devices a) := by
  apply SeesOnly.each view_view
  intro d
  apply SeesOnly.of_preserves (preserves_outputDipAvgAt a d) view_view
  intro s
  exact outputAvgOf_lines (.dip d) ((s.dips d).avgs a)

theorem preserves_outputPipAvgAt (a : Avg) (i : ℕ) : Preserves (Out.view look) (outputPipAvgAt a i) := by
  intro s
  have havgs := fun_update (f := s.pips i) (g := fun ap : AvgOut => { ap with avg := 0 })
    (noAvg_eq (outputAvgOf_info (.pip i) (s.pips i a)))
  have hpips := fun_update (f := s.pips) (g := fun avgs : Avg → AvgOut => fun a => { avgs a with avg := 0 }) havgs
  exact congrArg (fun pips => { s.view look with pips := pips }) hpips

theorem seesOnly_outputPipAvg (procs : List ℕ) (a : Avg) : SeesOnly (Out.view look) (outputPipAvg procs a) := by
  apply SeesOnly.each view_view
  intro i
  apply SeesOnly.of_preserves (preserves_outputPipAvgAt a i) view_view
  intro s
  exact outputAvgOf_lines (.pip i) (s.pips i a)

theorem preserves_outputAllAvg (a : Avg) : Preserves (Out.view look) (outputAllAvg a) := by
  intro s
  have havgs := fun_update (f := s.allAvgs) (g := fun ap : AvgOut => { ap with avg := 0 })
    (noAvg_eq (outputAvg_info (.avg a) (s.allAvgs a)))
  exact congrArg (fun avgs => { s.view look with allAvgs := avgs }) havgs

theorem seesOnly_outputAllAvgs : SeesOnly (Out.view look) outputAllAvgs := by
  apply SeesOnly.each view_view
  intro a
  apply SeesOnly.of_preserves (preserves_outputAllAvg a) view_view
  intro s
  exact outputAvg_lines (.avg a) (s.allAvgs a)

/-! ## Sections with totals of their own, or none -/

theorem preserves_outputDipPrepOhead (devices : List UInt32) :
    Preserves (Out.view look) (outputDipPrepOhead devices) := by
  apply Preserves.withLocal
  apply Preserves.seq (Preserves.each _ devices) (Preserves.write _)
  intro d
  exact Preserves.onlyIf fun x => rfl

theorem seesOnly_outputDipPrepOhead (devices : List UInt32) :
    SeesOnly (Out.view look) (outputDipPrepOhead devices) := by
  apply SeesOnly.of_preserves (preserves_outputDipPrepOhead devices) view_view
  intro s
  let view (x : Out × Oheads) : Out × Oheads := (x.1.view look, x.2)
  have hview : ∀ x, view (view x) = view x := by
    intro x
    exact congrArg (·, x.2) (view_view x.1)
  suffices hsees : SeesOnly view (seq (each outputDipPrepOheadAt devices)
      (write fun x => outputOheadAll x.2)) from (hsees (s, _)).1
  apply SeesOnly.seq (SeesOnly.each hview _ devices) (SeesOnly.write hview fun x => rfl)
  intro d
  refine SeesOnly.onlyIf ?_ hview ?_
  · exact fun x => Iff.rfl
  · exact fun x => ⟨rfl, congrArg (fun s : Out => (s, _)) (view_view x.1)⟩

theorem preserves_outputQ2dHisto (devices : List UInt32) :
    Preserves (Out.view look) (outputQ2dHisto devices) := by
  apply Preserves.withLocal
  apply Preserves.seq (Preserves.each _ devices) (Preserves.write _)
  intro d
  exact Preserves.onlyIf fun x => rfl

theorem seesOnly_outputQ2dHisto (devices : List UInt32) : SeesOnly (Out.view look) (outputQ2dHisto devices) := by
  apply SeesOnly.of_preserves (preserves_outputQ2dHisto devices) view_view
  intro s
  let view (x : Out × Q2dAll) : Out × Q2dAll := (x.1.view look, x.2)
  have hview : ∀ x, view (view x) = view x := by
    intro x
    exact congrArg (·, x.2) (view_view x.1)
  suffices hsees : SeesOnly view (seq (each outputQ2dHistoAt devices)
      (write fun x => if 0 < x.2.n then [q2dDisplay .total x.2.q2dAll] else [])) from (hsees (s, _)).1
  apply SeesOnly.seq (SeesOnly.each hview _ devices) (SeesOnly.write hview fun x => rfl)
  intro d
  refine SeesOnly.onlyIf ?_ hview ?_
  · exact fun x => Iff.rfl
  · exact fun x => ⟨rfl, congrArg (fun s : Out => (s, _)) (view_view x.1)⟩

theorem preserves_outputPLive (devices : List UInt32) : Preserves (Out.view look) (outputPLive devices) :=
  (Preserves.each (fun _ => .write _) devices).seq (.write _)

theorem seesOnly_outputPLive (devices : List UInt32) : SeesOnly (Out.view look) (outputPLive devices) := by
  apply SeesOnly.seq
  · apply SeesOnly.each view_view
    intro d
    exact SeesOnly.write view_view fun _ => rfl
  · exact SeesOnly.write view_view fun _ => rfl

theorem seesOnly_outputHistos (named : Bool) : SeesOnly (Out.view look) (outputHistos named) :=
  SeesOnly.write view_view fun _ => rfl

/-! ## Seeks -/

theorem preserves_outputDipSeekInfo (devices : List UInt32) (handle : DipOut → SeekHandle) :
    Preserves (Out.view look) (outputDipSeekInfo devices handle) := by
  refine Preserves.seq (Preserves.update ?_) (Preserves.seq (Preserves.each ?_ devices)
    (Preserves.seq (Preserves.write _) (Preserves.update ?_)))
  · exact fun s => rfl
  · intro d
    exact Preserves.onlyIf fun s => rfl
  · intro s
    split_ifs <;> rfl

/-- What the sections about seeks look at between two lines. -/
def seekView (look : Part → Bool) (s : Out) : Out :=
  { s.view look with nSeeks := s.nSeeks, seekInfo := s.seekInfo }

theorem seekView_seekView (s : Out) : seekView look (seekView look s) = seekView look s :=
  congrArg (fun x : Out => { x with nSeeks := s.nSeeks, seekInfo := s.seekInfo }) (view_view s)

theorem seekView_seeks (s : Out) (n : ℕ) (info : SeekInfo) :
    seekView look { seekView look s with nSeeks := n, seekInfo := info } =
      seekView look { s with nSeeks := n, seekInfo := info } :=
  congrArg (fun x : Out => { x with nSeeks := n, seekInfo := info }) (view_view s)

/-- **The sections about seeks** look at the handles only, as their totals begin anew. -/
theorem seesOnly_outputDipSeekInfo (devices : List UInt32) {handle : DipOut → SeekHandle}
    (hhandle : ∀ dip, handle (dip.view look) = handle dip) :
    SeesOnly (Out.view look) (outputDipSeekInfo devices handle) := by
  apply SeesOnly.of_preserves (preserves_outputDipSeekInfo devices handle) view_view
  have hreset : ∀ s : Out, seekView look { s.view look with nSeeks := 1, seekInfo := {} } =
      seekView look { s with nSeeks := 1, seekInfo := {} } := fun s => seekView_seeks s 1 {}
  apply SeesOnly.seq_update hreset
  have hsip : ∀ s d, handle ((seekView look s).dips d) = handle (s.dips d) := fun s d => hhandle (s.dips d)
  apply SeesOnly.seq
  · apply SeesOnly.each seekView_seekView
    intro d
    apply SeesOnly.onlyIf _ seekView_seekView
    · intro s
      dsimp only
      rw [hsip]
      exact ⟨rfl, seekView_seeks s _ _⟩
    · intro s
      rw [hsip]
  · apply SeesOnly.seq (SeesOnly.write seekView_seekView fun _ => rfl)
    apply SeesOnly.update
    intro s
    dsimp only [seekView]
    split_ifs
    · exact seekView_seeks s _ _
    · exact seekView_seekView s

/-! ## Merges -/

/-- What the section makes of `n_qs`. -/
def DipOut.raised (dip : DipOut) : DipOut :=
  if dip.nQs = 0 ∨ dip.nDs = 0 then dip
  else if dip.nQs < dip.nDs then { dip with nQs := dip.nDs } else dip

theorem view_raised (hqs : look .qs = false) (dip : DipOut) : dip.raised.view look = dip.view look := by
  unfold DipOut.raised
  split_ifs with h hlt
  · rfl
  · simp [DipOut.view, hqs]
  · rfl

/-- **The section about merges** raises a device, and adds to its totals. -/
theorem outputDipMergeRatioAt_state (d : UInt32) (s : Out) : ∃ n m, (outputDipMergeRatioAt d s).1 =
    { s.setDip d (s.dips d).raised with nMerges := n, mergeData := m } := by
  unfold outputDipMergeRatioAt onlyIf DipOut.raised
  by_cases hnone : (s.dips d).nQs = 0 ∨ (s.dips d).nDs = 0
  · rw [if_neg (not_not.mpr hnone), if_pos hnone, setDip_self]
    exact ⟨_, _, rfl⟩
  · rw [if_pos hnone, if_neg hnone]
    dsimp only [seq, update]
    split_ifs
    · exact ⟨_, _, rfl⟩
    · exact ⟨_, _, rfl⟩
    · exact ⟨_, _, rfl⟩
    · exact ⟨_, _, rfl⟩

theorem preserves_outputDipMergeRatio (hqs : look .qs = false) (hmerges : look .merges = false)
    (devices : List UInt32) : Preserves (Out.view look) (outputDipMergeRatio devices) := by
  apply Preserves.seq (Preserves.each _ devices) (Preserves.write _)
  intro d s
  obtain ⟨n, m, hstate⟩ := outputDipMergeRatioAt_state d s
  have hview : (s.setDip d (s.dips d).raised).view look = s.view look := view_setDip_of_eq (view_raised hqs _)
  rw [hstate, ← hview]
  simp [Out.view, hmerges]

theorem seesOnly_outputDipMergeRatio (devices : List UInt32) :
    SeesOnly (Out.view Sec.mergeRatio.looks) (outputDipMergeRatio devices) := by
  apply SeesOnly.seq
  · apply SeesOnly.each view_view
    intro d
    refine SeesOnly.onlyIf ?_ view_view (SeesOnly.seq (SeesOnly.update ?_) (SeesOnly.onlyIf ?_ view_view ?_))
    · exact fun s => Iff.rfl
    · intro s
      apply view_setDip_view
      by_cases hlt : (s.dips d).nQs < (s.dips d).nDs
      · have hlt' : ((s.view Sec.mergeRatio.looks).dips d).nQs < ((s.view Sec.mergeRatio.looks).dips d).nDs := hlt
        rw [if_pos hlt, if_pos hlt']
        rfl
      · have hlt' : ¬ ((s.view Sec.mergeRatio.looks).dips d).nQs <
            ((s.view Sec.mergeRatio.looks).dips d).nDs := hlt
        rw [if_neg hlt, if_neg hlt']
        rfl
    · exact fun s => Iff.rfl
    · exact fun s => ⟨rfl, rfl⟩
  · exact SeesOnly.write view_view fun s => rfl

/-! ## Plugs -/

/-- A device that is unplugged is another in the part of the plugs only. -/
theorem view_dipUnplug (hplugs : look .plugs = false) (dip : DipOut) (curTime : ℚ) (niosUp : UInt64) :
    (dip.dipUnplug curTime niosUp).view look = dip.view look := by
  unfold DipOut.dipUnplug DipOut.unplug
  split_ifs
  · simp [DipOut.view, hplugs]
  · rfl

theorem preserves_outputPlugInfo (hplugs : look .plugs = false) (devices : List UInt32) :
    Preserves (Out.view look) (outputPlugInfo devices) := by
  refine Preserves.seq (Preserves.each ?_ devices) (Preserves.seq (Preserves.write _)
    (Preserves.seq (Preserves.each ?_ devices) (Preserves.write _)))
  · intro d
    apply Preserves.seq
    · apply Preserves.update
      intro s
      apply view_setDip_of_eq
      split_ifs
      · exact view_dipUnplug hplugs _ _ _
      · rfl
    · apply Preserves.onlyIf
      intro s
      simp [outputPlugLine, Out.view, hplugs]
  · intro d s
    simp [dipOutputPlugNiosAt, Out.view, hplugs]

theorem dipUnplug_view (dip : DipOut) (niosUp : UInt64) :
    ((dip.view Sec.plug.looks).dipUnplug dip.endTime niosUp).view Sec.plug.looks =
      (dip.dipUnplug dip.endTime niosUp).view Sec.plug.looks := by
  have hplugged : (dip.view Sec.plug.looks).isPlugged = dip.isPlugged := rfl
  unfold DipOut.dipUnplug
  rw [hplugged]
  split_ifs
  · rfl
  · rfl

theorem seesOnly_outputPlugInfo (devices : List UInt32) :
    SeesOnly (Out.view Sec.plug.looks) (outputPlugInfo devices) := by
  refine SeesOnly.seq (SeesOnly.each view_view ?_ devices) (SeesOnly.seq (SeesOnly.write view_view ?_)
    (SeesOnly.seq (SeesOnly.each view_view ?_ devices) (SeesOnly.write view_view ?_)))
  · intro d
    refine SeesOnly.seq (SeesOnly.update ?_) (SeesOnly.onlyIf ?_ view_view ?_)
    · intro s
      apply view_setDip_view
      have hplugged : ((s.view Sec.plug.looks).dips d).isPlugged = (s.dips d).isPlugged := rfl
      rw [hplugged]
      split_ifs
      · exact dipUnplug_view (s.dips d) 0
      · rfl
    · exact fun s => Iff.rfl
    · exact fun s => ⟨rfl, rfl⟩
  · exact fun s => rfl
  · exact fun d s => ⟨rfl, rfl⟩
  · exact fun s => rfl

/-! ## Active requests -/

theorem preserves_outputActQInfo (hactQs : look .actQs = false) (devices : List UInt32) :
    Preserves (Out.view look) (outputActQInfo devices) := by
  apply Preserves.seq (Preserves.each _ devices) (Preserves.write _)
  intro d
  apply Preserves.onlyIf
  intro s
  simp [Out.view, hactQs]

theorem seesOnly_outputActQInfo (devices : List UInt32) :
    SeesOnly (Out.view Sec.actQ.looks) (outputActQInfo devices) := by
  apply SeesOnly.seq (SeesOnly.each view_view _ devices) (SeesOnly.write view_view fun s => rfl)
  intro d
  refine SeesOnly.onlyIf ?_ view_view ?_
  · exact fun s => Iff.rfl
  · exact fun s => ⟨rfl, rfl⟩

/-! ## All sections -/

variable (o : OutOptions)

/-- **What a section keeps**: all but the parts that it changes. -/
theorem preserves_print (k : Sec) (h : ∀ p, look p = true → k.changes p = false) :
    Preserves (Out.view look) (o.print k) := by
  have hout : ∀ p, k.changes p = true → look p = false := by
    intro p hp
    by_contra hlook
    rw [h p (by simpa using hlook)] at hp
    nomatch hp
  cases k with
  | pipAvg a => exact Preserves.each (preserves_outputPipAvgAt a) o.procs
  | dipAvg a => exact Preserves.each (preserves_outputDipAvgAt a) o.devices
  | allAvgs => exact Preserves.each preserves_outputAllAvg _
  | prepOhead => exact preserves_outputDipPrepOhead o.devices
  | mergeRatio => exact preserves_outputDipMergeRatio (hout .qs rfl) (hout .merges rfl) o.devices
  | q2qSeek => exact preserves_outputDipSeekInfo o.devices _
  | dipSeek => exact preserves_outputDipSeekInfo o.devices _
  | plug => exact preserves_outputPlugInfo (hout .plugs rfl) o.devices
  | actQ => exact preserves_outputActQInfo (hout .actQs rfl) o.devices
  | pLive => exact preserves_outputPLive o.devices
  | histos => exact Preserves.write _
  | q2dHisto => exact preserves_outputQ2dHisto o.devices

/-- **What a section looks at**: its parts, and all that no section changes. -/
theorem seesOnly_print (k : Sec) : SeesOnly (Out.view k.looks) (o.print k) := by
  cases k with
  | pipAvg a => exact seesOnly_outputPipAvg o.procs a
  | dipAvg a => exact seesOnly_outputDipAvg o.devices a
  | allAvgs => exact seesOnly_outputAllAvgs
  | prepOhead => exact seesOnly_outputDipPrepOhead o.devices
  | mergeRatio => exact seesOnly_outputDipMergeRatio o.devices
  | q2qSeek => exact seesOnly_outputDipSeekInfo o.devices fun _ => rfl
  | dipSeek => exact seesOnly_outputDipSeekInfo o.devices fun _ => rfl
  | plug => exact seesOnly_outputPlugInfo o.devices
  | actQ => exact seesOnly_outputActQInfo o.devices
  | pLive => exact seesOnly_outputPLive o.devices
  | histos => exact seesOnly_outputHistos o.named
  | q2dHisto => exact seesOnly_outputQ2dHisto o.devices

/-- Which section changes what another looks at. -/
theorem looks_changes {k k' : Sec} {p : Part} (hlooks : k.looks p = true) (hchanges : k'.changes p = true) :
    k' = k ∨ k = .actQ ∧ k' = .mergeRatio := by
  cases p with
  | qs =>
    obtain rfl : k' = .mergeRatio := by cases k' <;> first | rfl | nomatch hchanges
    cases k with
    | mergeRatio => exact Or.inl rfl
    | actQ => exact Or.inr ⟨rfl, rfl⟩
    | _ => nomatch hlooks
  | merges =>
    obtain rfl : k' = .mergeRatio := by cases k' <;> first | rfl | nomatch hchanges
    cases k with
    | mergeRatio => exact Or.inl rfl
    | _ => nomatch hlooks
  | plugs =>
    obtain rfl : k' = .plug := by cases k' <;> first | rfl | nomatch hchanges
    cases k with
    | plug => exact Or.inl rfl
    | _ => nomatch hlooks
  | actQs =>
    obtain rfl : k' = .actQ := by cases k' <;> first | rfl | nomatch hchanges
    cases k with
    | actQ => exact Or.inl rfl
    | _ => nomatch hlooks

/-- Others keep what a section looks at, but the one about merges what the one about active requests does. -/
theorem preserves_others {k : Sec} {ks : List Sec} (hk : k ∉ ks) (hmerge : k = .actQ → .mergeRatio ∉ ks) :
    ∀ k' ∈ ks, Preserves (Out.view k.looks) (o.print k') := by
  intro k' hk'
  apply preserves_print
  intro p hlooks
  by_contra hchanges
  rcases looks_changes hlooks (by simpa using hchanges) with rfl | ⟨hactQ, rfl⟩
  · exact hk hk'
  · exact hmerge hactQ hk'

/-- **No section is disturbed by another** then. -/
theorem print_undisturbed {k : Sec} {ks : List Sec} (hk : k ∉ ks) (hmerge : k = .actQ → .mergeRatio ∉ ks)
    (s : Out) : (o.print k (after o.print ks s)).2 = (o.print k s).2 :=
  (seesOnly_print o k).undisturbed (preserves_others o hk hmerge) s

end Blktrace.Btt
