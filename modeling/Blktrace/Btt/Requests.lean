import Blktrace.Btt.Iostat

/-!
# `btt`: requests and the counters

A sequence of records is well-formed when each of them is the next thing that can happen to a request of the
device: a record is queued, a request is allocated for it or it is merged into one, the request is
inserted, dispatched and completed, each time with the whole of its extent.

What is merged into a request goes along with it from then on (`Layout`), so that a completion finds as many
queued records as the request has parts.
-/

namespace Blktrace.Btt

open SearchTree

/-! ## Well-formed sequences -/

/-- How far a request is. A queued record `waits` for the request that it is to be part of. -/
inductive Stage
  | waits
  | allocated
  | issued (time : UInt64)
deriving DecidableEq

/-- A request, by its extent and the number of queued records in it. -/
structure Request where
  first : ℕ
  stop : ℕ
  parts : ℕ
  stage : Stage
deriving DecidableEq

namespace Request

/-- A record gives the extent of the request. -/
def IsOf (r : Request) (t : BlkIoTrace) : Prop := r.first = t.sector.toNat ∧ r.stop = extentEnd t

instance (r : Request) (t : BlkIoTrace) : Decidable (r.IsOf t) := inferInstanceAs (Decidable (_ ∧ _))

/-- Two requests do not overlap. -/
def Apart (r r' : Request) : Prop := r.stop ≤ r'.first ∨ r'.stop ≤ r.first

instance (r r' : Request) : Decidable (r.Apart r') := inferInstanceAs (Decidable (_ ∨ _))

theorem Apart.symm {r r' : Request} (h : r.Apart r') : r'.Apart r := Or.symm h

/-- A queued record that is not part of a request yet. -/
def ofQueued (t : BlkIoTrace) : Request := ⟨t.sector.toNat, extentEnd t, 1, .waits⟩

def IsIssued (r : Request) : Prop := r.stage ≠ .waits ∧ r.stage ≠ .allocated

instance : DecidablePred IsIssued := fun _ => inferInstanceAs (Decidable (_ ∧ _))

end Request

/-- A request to go on with, and the others. -/
def pick (rs : List Request) (p : Request → Bool) : Option (Request × List Request) :=
  (rs.find? p).map fun r => (r, rs.erase r)

/-- What a record makes of the requests of its device, if it may come next. -/
def nextEvent (rs : List Request) (t : BlkIoTrace) : Option (List Request) :=
  match BlkTa.ofAction t.action with
  | some .queue =>
    if 512 ≤ t.bytes.toNat ∧ extentEnd t < 2 ^ 64 ∧ ∀ r ∈ rs, (Request.ofQueued t).Apart r then
      some (Request.ofQueued t :: rs)
    else none
  | some .getrq =>
    (pick rs fun r => r.stage = .waits ∧ r.IsOf t).map fun x => { x.1 with stage := .allocated } :: x.2
  | some .backmerge =>
    (pick rs fun w => w.stage = .waits ∧ w.IsOf t).bind fun w =>
      (pick w.2 fun r => r.stage = .allocated ∧ r.stop = w.1.first).map fun x =>
        { x.1 with stop := w.1.stop, parts := x.1.parts + w.1.parts } :: x.2
  | some .frontmerge =>
    (pick rs fun w => w.stage = .waits ∧ w.IsOf t).bind fun w =>
      (pick w.2 fun r => r.stage = .allocated ∧ r.first = w.1.stop).map fun x =>
        { x.1 with first := w.1.first, parts := x.1.parts + w.1.parts } :: x.2
  | some .insert => (pick rs fun r => r.stage = .allocated ∧ r.IsOf t).map fun x => x.1 :: x.2
  | some .issue =>
    (pick rs fun r => r.stage = .allocated ∧ r.IsOf t).map fun x => { x.1 with stage := .issued t.time } :: x.2
  | some .complete => (pick rs fun r => r.IsIssued ∧ r.IsOf t).map Prod.snd
  | _ => none

theorem pick_eq_some {rs rest : List Request} {p : Request → Bool} {r : Request}
    (h : pick rs p = some (r, rest)) : p r = true ∧ rs.Perm (r :: rest) := by
  obtain ⟨r', hfind, heq⟩ := Option.map_eq_some_iff.mp h
  obtain ⟨rfl, rfl⟩ := Prod.mk.inj heq
  exact ⟨List.find?_some hfind, List.perm_cons_erase (List.mem_of_find?_eq_some hfind)⟩

/-! ## The queued records in the requests -/

namespace Request

/-- A queued record is in the request. -/
def Holds (r : Request) (p : Iop) : Prop := r.first ≤ p.t.sector.toNat ∧ extentEnd p.t ≤ r.stop

instance (r : Request) : DecidablePred r.Holds := fun _ => inferInstanceAs (Decidable (_ ∧ _))

/-- The time of dispatch of what is in the request. -/
def dTime (r : Request) : UInt64 :=
  match r.stage with
  | .issued time => time
  | _ => noTime

theorem IsOf.holds_iff {r : Request} {t : BlkIoTrace} (h : r.IsOf t) (p : Iop) : r.Holds p ↔ Inside p.t t := by
  unfold Holds Inside
  rw [h.1, h.2]

end Request

/-- Queued records that do not overlap. -/
structure Extents (ps : List Iop) : Prop where
  nonempty : ∀ p ∈ ps, p.t.sector.toNat < extentEnd p.t
  apart : ps.Pairwise fun p q => Btt.Apart p.t q.t

/-- The queued records `ps` are the parts of the requests. -/
structure Layout (rs : List Request) (ps : List Iop) (dTime : ℕ → UInt64) : Prop where
  nonempty : ∀ r ∈ rs, r.first < r.stop
  inRange : ∀ r ∈ rs, r.stop < 2 ^ 64
  apart : rs.Pairwise Request.Apart
  inside : ∀ p ∈ ps, ∃ r ∈ rs, r.Holds p
  parts : ∀ r ∈ rs, ps.countP (r.Holds ·) = r.parts
  pos : ∀ r ∈ rs, 0 < r.parts
  dTimes : ∀ r ∈ rs, ∀ p ∈ ps, r.Holds p → dTime p.id = r.dTime

section

variable {rs rs' : List Request} {ps ps' : List Iop} {dTime dTime' : ℕ → UInt64} {r w : Request}

theorem Layout.nil {dTime : ℕ → UInt64} : Layout [] [] dTime :=
  ⟨nofun, nofun, .nil, nofun, nofun, nofun, nofun⟩

/-- The order does not matter. -/
theorem Layout.perm (h : Layout rs ps dTime) (hrs : rs.Perm rs') (hps : ps.Perm ps') :
    Layout rs' ps' dTime where
  nonempty r hr := h.nonempty r (hrs.mem_iff.mpr hr)
  inRange r hr := h.inRange r (hrs.mem_iff.mpr hr)
  apart := (hrs.pairwise_iff Request.Apart.symm).mp h.apart
  inside p hp := by
    obtain ⟨r, hr, hin⟩ := h.inside p (hps.mem_iff.mpr hp)
    exact ⟨r, hrs.mem_iff.mp hr, hin⟩
  parts r hr := (hps.countP_eq _).symm.trans (h.parts r (hrs.mem_iff.mpr hr))
  pos r hr := h.pos r (hrs.mem_iff.mpr hr)
  dTimes r hr p hp := h.dTimes r (hrs.mem_iff.mpr hr) p (hps.mem_iff.mpr hp)

/-- A record is in one request only. -/
theorem Request.Apart.not_holds {r r' : Request} (h : r.Apart r') {p : Iop}
    (hne : p.t.sector.toNat < extentEnd p.t) (hr : r.Holds p) : ¬ r'.Holds p := by
  intro hr'
  have hlo := hr.1
  have hhi := hr.2
  have hlo' := hr'.1
  have hhi' := hr'.2
  rcases h with h | h <;> omega

/-- A record is queued. -/
theorem Layout.queue {p : Iop} (h : Layout rs ps dTime) (hps : Extents ps)
    (hne : p.t.sector.toNat < extentEnd p.t) (hrange : extentEnd p.t < 2 ^ 64)
    (haway : ∀ r ∈ rs, (Request.ofQueued p.t).Apart r) (hnew : dTime' p.id = noTime)
    (hold : ∀ q ∈ ps, dTime' q.id = dTime q.id) :
    Layout (Request.ofQueued p.t :: rs) (p :: ps) dTime' := by
  have hself : (Request.ofQueued p.t).Holds p := ⟨le_refl _, le_refl _⟩
  have hno : ∀ q ∈ ps, ¬ (Request.ofQueued p.t).Holds q := by
    intro q hq hin
    obtain ⟨r, hr, hrq⟩ := h.inside q hq
    exact (haway r hr).not_holds (hps.nonempty q hq) hin hrq
  have hnot : ∀ r ∈ rs, ¬ r.Holds p := fun r hr => (haway r hr).not_holds hne hself
  refine ⟨?_, ?_, List.pairwise_cons.mpr ⟨haway, h.apart⟩, ?_, ?_, ?_, ?_⟩
  · exact List.forall_mem_cons.mpr ⟨hne, h.nonempty⟩
  · exact List.forall_mem_cons.mpr ⟨hrange, h.inRange⟩
  · refine List.forall_mem_cons.mpr ⟨⟨_, List.mem_cons_self, hself⟩, fun q hq => ?_⟩
    obtain ⟨r, hr, hin⟩ := h.inside q hq
    exact ⟨r, List.mem_cons_of_mem _ hr, hin⟩
  · refine List.forall_mem_cons.mpr ⟨?_, fun r hr => ?_⟩
    · rw [List.countP_cons_of_pos (by simpa using hself), List.countP_eq_zero.mpr fun q hq => by
        simpa using hno q hq]
      rfl
    · rw [List.countP_cons_of_neg (by simpa using hnot r hr)]
      exact h.parts r hr
  · exact List.forall_mem_cons.mpr ⟨Nat.one_pos, h.pos⟩
  · refine List.forall_mem_cons.mpr ⟨List.forall_mem_cons.mpr ⟨fun _ => hnew, fun q hq hin => ?_⟩,
      fun r hr => List.forall_mem_cons.mpr ⟨fun hin => absurd hin (hnot r hr), fun q hq hin => ?_⟩⟩
    · exact absurd hin (hno q hq)
    · exact (hold q hq).trans (h.dTimes r hr q hq hin)

/-- A request goes on: what is in it may be dispatched. -/
theorem Layout.advance {stage : Stage} (h : Layout (r :: rs) ps dTime) (hps : Extents ps)
    (hin : ∀ p ∈ ps, r.Holds p → dTime' p.id = { r with stage := stage }.dTime)
    (hout : ∀ p ∈ ps, ¬ r.Holds p → dTime' p.id = dTime p.id) :
    Layout ({ r with stage := stage } :: rs) ps dTime' := by
  obtain ⟨hap, haps⟩ := List.pairwise_cons.mp h.apart
  refine ⟨?_, ?_, List.pairwise_cons.mpr ⟨hap, haps⟩, fun p hp => ?_, ?_, ?_, ?_⟩
  · exact List.forall_mem_cons.mpr (List.forall_mem_cons.mp h.nonempty)
  · exact List.forall_mem_cons.mpr (List.forall_mem_cons.mp h.inRange)
  · obtain ⟨r', hr', hin'⟩ := h.inside p hp
    rcases List.mem_cons.mp hr' with rfl | hr'
    · exact ⟨_, List.mem_cons_self, hin'⟩
    · exact ⟨r', List.mem_cons_of_mem _ hr', hin'⟩
  · exact List.forall_mem_cons.mpr (List.forall_mem_cons.mp h.parts)
  · exact List.forall_mem_cons.mpr (List.forall_mem_cons.mp h.pos)
  · refine List.forall_mem_cons.mpr ⟨hin, fun r' hr' p hp hin' => ?_⟩
    have hnot : ¬ r.Holds p := (hap r' hr').symm.not_holds (hps.nonempty p hp) hin'
    exact (hout p hp hnot).trans (h.dTimes r' (List.mem_cons_of_mem _ hr') p hp hin')

/-- What is in a request goes with it. -/
theorem Layout.complete (h : Layout (r :: rs) ps dTime) (hps : Extents ps) :
    Layout rs (ps.filter fun p => ¬ r.Holds p) dTime := by
  obtain ⟨hap, haps⟩ := List.pairwise_cons.mp h.apart
  refine ⟨(List.forall_mem_cons.mp h.nonempty).2, (List.forall_mem_cons.mp h.inRange).2, haps,
    fun p hp => ?_, fun r' hr' => ?_, (List.forall_mem_cons.mp h.pos).2, fun r' hr' p hp => ?_⟩
  · obtain ⟨hp, hnot⟩ := List.mem_filter.mp hp
    obtain ⟨r', hr', hin⟩ := h.inside p hp
    rcases List.mem_cons.mp hr' with rfl | hr'
    · exact absurd hin (of_decide_eq_true hnot)
    · exact ⟨r', hr', hin⟩
  · rw [List.countP_filter, ← h.parts r' (List.mem_cons_of_mem _ hr')]
    refine List.countP_congr fun p hp => ?_
    simp only [Bool.and_eq_true, decide_eq_true_eq]
    refine and_iff_left_of_imp fun hin => ?_
    exact (hap r' hr').symm.not_holds (hps.nonempty p hp) hin
  · exact h.dTimes r' (List.mem_cons_of_mem _ hr') p (List.mem_filter.mp hp).1

theorem countP_or {α : Type*} {p q : α → Prop} [DecidablePred p] [DecidablePred q] {l : List α}
    (h : ∀ a ∈ l, p a → ¬ q a) : l.countP (fun a => p a ∨ q a) = l.countP (p ·) + l.countP (q ·) := by
  induction l with
  | nil => rfl
  | cons a l ih =>
    obtain ⟨ha, hl⟩ := List.forall_mem_cons.mp h
    rw [List.countP_cons, List.countP_cons, List.countP_cons, ih hl]
    by_cases hp : p a
    · simp [hp, ha hp]
      omega
    · simp [hp]
      omega

/-- A queued record becomes part of a request next to it. -/
theorem Layout.merge {first stop : ℕ} (h : Layout (w :: r :: rs) ps dTime) (hps : Extents ps)
    (hw : w.dTime = noTime) (hr : r.dTime = noTime)
    (hjoin : first = r.first ∧ stop = w.stop ∧ r.stop = w.first ∨
      first = w.first ∧ stop = r.stop ∧ r.first = w.stop) :
    Layout ({ r with first := first, stop := stop, parts := r.parts + w.parts } :: rs) ps dTime := by
  obtain ⟨hwap, hrest⟩ := List.pairwise_cons.mp h.apart
  obtain ⟨hrap, haps⟩ := List.pairwise_cons.mp hrest
  have hwr : w.Apart r := hwap r List.mem_cons_self
  have hwne := h.nonempty w List.mem_cons_self
  have hrne := h.nonempty r (List.mem_cons_of_mem _ List.mem_cons_self)
  have hold : ∀ {r'}, r' ∈ rs → r' ∈ w :: r :: rs :=
    fun hr' => List.mem_cons_of_mem _ (List.mem_cons_of_mem _ hr')
  -- nothing is left between the two
  have haway : ∀ r' ∈ rs, Request.Apart { r with first := first, stop := stop, parts := r.parts + w.parts } r' := by
    intro r' hr'
    have hne := h.nonempty r' (hold hr')
    rcases hwap r' (List.mem_cons_of_mem _ hr') with h1 | h1 <;> rcases hrap r' hr' with h2 | h2 <;>
      rcases hjoin with ⟨rfl, rfl, h3⟩ | ⟨rfl, rfl, h3⟩ <;> unfold Request.Apart <;> simp only <;> omega
  have hsub : ∀ p, r.Holds p ∨ w.Holds p →
      Request.Holds { r with first := first, stop := stop, parts := r.parts + w.parts } p := by
    rintro p (⟨h1, h2⟩ | ⟨h1, h2⟩) <;> rcases hjoin with ⟨rfl, rfl, h3⟩ | ⟨rfl, rfl, h3⟩ <;>
      constructor <;> simp only <;> omega
  have hiff : ∀ p ∈ ps, Request.Holds { r with first := first, stop := stop, parts := r.parts + w.parts } p ↔
      r.Holds p ∨ w.Holds p := by
    intro p hp
    refine ⟨fun hin => ?_, hsub p⟩
    obtain ⟨r', hr', hin'⟩ := h.inside p hp
    rcases List.mem_cons.mp hr' with rfl | hr'
    · exact .inr hin'
    rcases List.mem_cons.mp hr' with rfl | hr'
    · exact .inl hin'
    · exact absurd hin' ((haway r' hr').not_holds (hps.nonempty p hp) hin)
  refine ⟨?_, ?_, List.pairwise_cons.mpr ⟨haway, haps⟩, fun p hp => ?_, ?_, ?_, ?_⟩
  · refine List.forall_mem_cons.mpr ⟨?_, fun r' hr' => h.nonempty r' (hold hr')⟩
    rcases hjoin with ⟨rfl, rfl, h3⟩ | ⟨rfl, rfl, h3⟩ <;> simp only <;> omega
  · refine List.forall_mem_cons.mpr ⟨?_, fun r' hr' => h.inRange r' (hold hr')⟩
    rcases hjoin with ⟨-, rfl, -⟩ | ⟨-, rfl, -⟩
    · exact h.inRange w List.mem_cons_self
    · exact h.inRange r (List.mem_cons_of_mem _ List.mem_cons_self)
  · obtain ⟨r', hr', hin⟩ := h.inside p hp
    rcases List.mem_cons.mp hr' with rfl | hr'
    · exact ⟨_, List.mem_cons_self, hsub p (.inr hin)⟩
    rcases List.mem_cons.mp hr' with rfl | hr'
    · exact ⟨_, List.mem_cons_self, hsub p (.inl hin)⟩
    · exact ⟨r', List.mem_cons_of_mem _ hr', hin⟩
  · refine List.forall_mem_cons.mpr ⟨?_, fun r' hr' => h.parts r' (hold hr')⟩
    have hcount := countP_or (fun p hp (hin : r.Holds p) => hwr.symm.not_holds (hps.nonempty p hp) hin)
    rw [h.parts r (List.mem_cons_of_mem _ List.mem_cons_self), h.parts w List.mem_cons_self] at hcount
    refine .trans (List.countP_congr fun p hp => ?_) hcount
    simpa using hiff p hp
  · refine List.forall_mem_cons.mpr ⟨?_, fun r' hr' => h.pos r' (hold hr')⟩
    exact Nat.add_pos_right _ (h.pos w List.mem_cons_self)
  · refine List.forall_mem_cons.mpr ⟨fun p hp hin => ?_, fun r' hr' => h.dTimes r' (hold hr')⟩
    have hsame : Request.dTime { r with first := first, stop := stop, parts := r.parts + w.parts } = r.dTime :=
      rfl
    rcases (hiff p hp).mp hin with hin | hin
    · exact (h.dTimes r (List.mem_cons_of_mem _ List.mem_cons_self) p hp hin).trans hsame.symm
    · exact (h.dTimes w List.mem_cons_self p hp hin).trans (hw.trans (hr.symm.trans hsame.symm))

end

/-! ## The counters along a sequence -/

section

variable {τ : Type*} [LinearOrder τ] (bal : Balancer Iop) (clock : BitTime τ) (opts : Options τ) (d : UInt32)

/-- A record of the device, if it may come next. -/
def step (x : List Request × State) (t : BlkIoTrace) : Option (List Request × State) :=
  if t.device = d ∧ addTrace clock opts.bounds t = .analysed ∧ t.bytes ≠ 0 then
    (nextEvent x.1 t).bind fun rs => (x.2.addTrace bal opts clock t).map fun s => (rs, s)
  else none

/-- A sequence of records, if it is well-formed. -/
def follow (ts : List BlkIoTrace) : Option (List Request × State) := ts.foldlM (step bal clock opts d) ([], {})

/-- `cur_qusz` and `cur_dev` count the requests that are allocated, and those that are issued. -/
def Counts (x : List Request × State) : Prop :=
  (x.2.dip d).stats.curQusz = x.1.countP (·.stage ≠ .waits) ∧
    (x.2.dip d).stats.curDev = x.1.countP (·.IsIssued)

/-- What is completed is one queued record, dispatched at a time that a word can tell from none. -/
def Single (x : List Request × State) (t : BlkIoTrace) : Prop :=
  BlkTa.ofAction t.action = some .complete →
    ∀ r ∈ x.1, r.IsIssued → r.IsOf t → r.parts = 1 ∧ r.dTime ≠ noTime

/-- The requests and what `btt` has of them. -/
structure Follows (ts : List BlkIoTrace) (rs : List Request) (s : State) : Prop where
  keeps : Keeps clock opts ts s
  well : WellQueued clock opts ts
  range : InRange clock opts ts
  layout : Layout rs ((s.dip d).heads .q).toList (s.watch d).dTime

variable {bal clock opts d} {ts : List BlkIoTrace} {t : BlkIoTrace} {rs : List Request} {s s' : State}

theorem Keeps.extents (h : Keeps clock opts ts s) (hwell : WellQueued clock opts ts)
    (hrange : InRange clock opts ts) (d : UInt32) : Extents ((s.dip d).heads .q).toList := by
  refine ⟨fun p hp => ?_, (h.sorted d).imp_of_mem fun {a b} ha hb hab => ?_⟩
  · have hbytes := (hwell p.id p.t ((h.queued d p).mp hp).1.record ((h.queued d p).mp hp).1.queued).1
    exact Nat.lt_add_of_pos_right (Nat.div_pos hbytes (by decide))
  · refine (apart_iff (((h.queued d a).mp ha).1.inRange hrange) (((h.queued d b).mp hb).1.inRange hrange)).mpr ?_
    exact .inl hab

theorem follows_nil : Follows clock opts d [] [] {} :=
  ⟨keeps_nil, nofun, nofun, .nil⟩

namespace Follows

variable (h : Follows clock opts d ts rs s)

include h

/-- A device with a request is past its first Q. -/
theorem preCulling {r : Request} (hr : r ∈ rs) : (s.dip d).preCulling = false := by
  by_contra hcull
  have hpos := h.layout.pos r hr
  rw [← h.layout.parts r hr, h.keeps.culled d (by simpa using hcull)] at hpos
  exact absurd hpos (Nat.lt_irrefl 0)

/-- Unless a record is queued or completed, the queued records stay. -/
theorem perm_of_other (h' : Keeps clock opts (ts ++ [t]) s') (hwell : WellQueued clock opts (ts ++ [t]))
    (hrange : InRange clock opts (ts ++ [t])) (hq : ¬ Accepted clock opts .queue t)
    (hc : ¬ Accepted clock opts .complete t) :
    ((s.dip d).heads .q).toList.Perm ((s'.dip d).heads .q).toList := by
  rw [List.perm_ext_iff_of_nodup (h.keeps.nodup h.well h.range d) (h'.nodup hwell hrange d)]
  intro p
  rw [h.keeps.queued, h'.queued, pending_snoc]
  refine and_congr_left fun _ => ⟨fun hp => .inr ⟨hp, fun hcovers => hc hcovers.1⟩, ?_⟩
  rintro (⟨-, hnew⟩ | ⟨hp, -⟩)
  · exact absurd hnew hq
  · exact hp

/-- A record that is queued is one more. -/
theorem perm_of_queue (h' : Keeps clock opts (ts ++ [t]) s') (hwell : WellQueued clock opts (ts ++ [t]))
    (hrange : InRange clock opts (ts ++ [t])) (hq : Accepted clock opts .queue t) (hd : t.device = d) :
    (⟨s.ios, t⟩ :: ((s.dip d).heads .q).toList).Perm ((s'.dip d).heads .q).toList := by
  have hnew : (⟨s.ios, t⟩ : Iop) ∉ ((s.dip d).heads .q).toList := by
    intro hmem
    exact absurd ((h.keeps.queued d _).mp hmem).1.lt (by rw [h.keeps.ios]; exact lt_irrefl _)
  rw [List.perm_ext_iff_of_nodup (List.nodup_cons.mpr ⟨hnew, h.keeps.nodup h.well h.range d⟩)
    (h'.nodup hwell hrange d)]
  intro p
  rw [List.mem_cons, h.keeps.queued, h'.queued, pending_snoc, h.keeps.ios, and_iff_left hq,
    and_iff_left (Keeps.not_covers hq p.t), or_and_right]
  exact or_congr_left ⟨fun hp => ⟨hp, by rw [hp]; exact hd⟩, And.left⟩

/-- What is inside a completion goes. -/
theorem perm_of_complete (h' : Keeps clock opts (ts ++ [t]) s') (hwell : WellQueued clock opts (ts ++ [t]))
    (hrange : InRange clock opts (ts ++ [t])) (hc : Accepted clock opts .complete t) (hd : t.device = d)
    {r : Request} (hr : r.IsOf t) :
    (((s.dip d).heads .q).toList.filter fun p => ¬ r.Holds p).Perm ((s'.dip d).heads .q).toList := by
  have hq : ¬ Accepted clock opts .queue t := fun hq => absurd
    (Option.some.inj (hc.2.1.symm.trans hq.2.1)) (by decide)
  rw [List.perm_ext_iff_of_nodup ((h.keeps.nodup h.well h.range d).filter _) (h'.nodup hwell hrange d)]
  intro p
  rw [List.mem_filter, h.keeps.queued, h'.queued, pending_snoc, decide_eq_true_iff, hr.holds_iff]
  constructor
  · rintro ⟨⟨hp, hdev⟩, hnot⟩
    exact ⟨.inr ⟨hp, fun hcovers => hnot hcovers.2.2⟩, hdev⟩
  · rintro ⟨⟨-, hnew⟩ | ⟨hp, hnot⟩, hdev⟩
    · exact absurd hnew hq
    · exact ⟨⟨hp, hdev⟩, fun hin => hnot ⟨hc, hd.trans hdev.symm, hin⟩⟩

/-! ### The counters, record by record -/

variable {r : Request}

theorem watch_queue (hwell : WellQueued clock opts (ts ++ [t])) (hrange : InRange clock opts (ts ++ [t]))
    (hq : Accepted clock opts .queue t) :
    ({ s with ios := s.ios + 1 }.traceQueue bal ⟨s.ios, t⟩).watch d = (s.watch d).dispatch [s.ios] noTime := by
  obtain ⟨root, hroot, -⟩ := @Keeps.exists_root _ _ _ _ _ _ bal _ h.keeps hwell hrange hq
  have hlink : { s with ios := s.ios + 1 }.traceQueue bal ⟨s.ios, t⟩ =
      ({ s with ios := s.ios + 1 }.link ⟨s.ios, t⟩ .q root).handleQueue ⟨s.ios, t⟩ :=
    traceQueue_linked hq.2.2 hroot
  rw [hlink, watch_handleQueue, watch_link]
  rfl

theorem watch_with {handle : State → Iop → State} {type : IopType} (htype : type ≠ .q) (hr : r ∈ rs)
    (hd : t.device = d) :
    ∃ s', s'.watch d = s.watch d ∧ s'.dipForeachList ⟨s.ios, t⟩ .q = s.dipForeachList ⟨s.ios, t⟩ .q ∧
      ({ s with ios := s.ios + 1 }.traceWith bal ⟨s.ios, t⟩ type handle).watch d =
        (handle s' ⟨s.ios, t⟩).watch d := by
  have hready : Ready { s with ios := s.ios + 1 } ⟨s.ios, t⟩ := ⟨h.keeps.others, h.keeps.ready.unlinked⟩
  obtain ⟨s', hwatch, hheads, htrace⟩ := @watch_traceWith { s with ios := s.ios + 1 } d bal ⟨s.ios, t⟩ handle
    type hready htype (hd ▸ h.preCulling hr)
  exact ⟨s', hwatch, congrArg (rbForeach · ⟨s.ios, t⟩) hheads, htrace⟩

/-- The queued records in the extent of a request. -/
theorem mem_covered (hr : r ∈ rs) (hd : t.device = d) (hof : r.IsOf t) (p : Iop) :
    p ∈ s.dipForeachList ⟨s.ios, t⟩ .q ↔ p ∈ ((s.dip d).heads .q).toList ∧ r.Holds p := by
  have hend : extentEnd t < 2 ^ 64 := hof.2 ▸ h.layout.inRange r hr
  rw [h.keeps.mem_dipForeachList h.well h.range hend, h.keeps.queued, hof.holds_iff, hd]

theorem covered_perm (hr : r ∈ rs) (hd : t.device = d) (hof : r.IsOf t) :
    (s.dipForeachList ⟨s.ios, t⟩ .q).Perm (((s.dip d).heads .q).toList.filter (r.Holds ·)) := by
  rw [List.perm_ext_iff_of_nodup (h.keeps.nodup_dipForeachList h.well h.range _)
    ((h.keeps.nodup h.well h.range d).filter _)]
  intro p
  rw [h.mem_covered hr hd hof, List.mem_filter, decide_eq_true_iff]

/-- A completion takes as many from the counters as there are parts that were dispatched. -/
theorem dispatched_covered (hr : r ∈ rs) (hd : t.device = d) (hof : r.IsOf t) :
    (s.watch d).dispatched (s.dipForeachList ⟨s.ios, t⟩ .q) = if r.dTime ≠ noTime then r.parts else 0 := by
  unfold Watch.dispatched
  rw [(h.covered_perm hr hd hof).countP_eq, List.countP_filter]
  have hsame : ∀ p ∈ ((s.dip d).heads .q).toList,
      (decide ((s.watch d).dTime p.id ≠ noTime) && decide (r.Holds p)) =
        (decide (r.dTime ≠ noTime) && decide (r.Holds p)) := by
    intro p hp
    by_cases hin : r.Holds p
    · rw [h.layout.dTimes r hr p hp hin]
    · rw [decide_eq_false hin, Bool.and_false, Bool.and_false]
  rw [List.countP_congr fun p hp => by rw [hsame p hp]]
  split_ifs with htime
  · rw [decide_eq_true htime, ← h.layout.parts r hr]
    simp only [Bool.true_and]
  · rw [decide_eq_false htime]
    simp only [Bool.false_and]
    exact congrFun List.countP_false _

/-! ### Step by step -/

/-- The counters go on counting, unless a completion is not of a single record. -/
def Next (d : UInt32) (t : BlkIoTrace) (x x' : List Request × State) : Prop :=
  Counts d x → (Counts d x' ↔ Single x t)

omit h in
theorem addTrace_of_analysed (ht : Btt.addTrace clock opts.bounds t = .analysed) :
    s.addTrace bal opts clock t = { s with ios := s.ios + 1 }.analyse bal opts ⟨s.ios, t⟩ := by
  dsimp only [State.addTrace]
  rw [ht]

omit h in
/-- Where nothing is completed the counters only have to go along. -/
theorem next_of_counts {x x' : List Request × State} (haction : BlkTa.ofAction t.action ≠ some .complete)
    (hcounts : Counts d x → Counts d x') : Next d t x x' :=
  fun hx => ⟨fun _ hc => absurd hc haction, fun _ => hcounts hx⟩

/-- A record other than a Q or C, that makes one request another. -/
theorem other {rest : List Request} {r' : Request} {dTime : ℕ → UInt64} {qusz dev : ℤ}
    (hrun : s.addTrace bal opts clock t = some s')
    (hq : BlkTa.ofAction t.action ≠ some .queue) (hc : BlkTa.ofAction t.action ≠ some .complete)
    (hlayout : Layout (r' :: rest) ((s.dip d).heads .q).toList dTime)
    (hwatch : s'.watch d = { (s.watch d).count qusz dev with dTime := dTime })
    (hqusz : ((r' :: rest).countP (·.stage ≠ .waits) : ℤ) = rs.countP (·.stage ≠ .waits) + qusz)
    (hdev : ((r' :: rest).countP (·.IsIssued) : ℤ) = rs.countP (·.IsIssued) + dev) :
    Follows clock opts d (ts ++ [t]) (r' :: rest) s' ∧ Next d t (rs, s) (r' :: rest, s') := by
  have hnq : ¬ Accepted clock opts .queue t := fun h => hq h.2.1
  have hnc : ¬ Accepted clock opts .complete t := fun h => hc h.2.1
  have hwell := h.well.snoc (t := t) fun h => absurd h hnq
  have hrange := h.range.snoc (t := t) fun h => absurd h (not_or.mpr ⟨hnq, hnc⟩)
  have hkeeps := h.keeps.addTrace hwell hrange hrun
  refine ⟨⟨hkeeps, hwell, hrange, ?_⟩, next_of_counts hc fun hcounts => ⟨?_, ?_⟩⟩
  · rw [hwatch]
    exact hlayout.perm (.refl _) (h.perm_of_other hkeeps hwell hrange hnq hnc)
  · show (s'.watch d).curQusz = _
    rw [hwatch, hqusz, ← hcounts.1]
    rfl
  · show (s'.watch d).curDev = _
    rw [hwatch, hdev, ← hcounts.2]
    rfl

theorem queued (hrun : s.addTrace bal opts clock t = some s') (hq : Accepted clock opts .queue t)
    (hd : t.device = d) (hbytes : 512 ≤ t.bytes.toNat) (hend : extentEnd t < 2 ^ 64)
    (haway : ∀ r ∈ rs, (Request.ofQueued t).Apart r) :
    Follows clock opts d (ts ++ [t]) (Request.ofQueued t :: rs) s' ∧
      Next d t (rs, s) (Request.ofQueued t :: rs, s') := by
  have hapart : ∀ p, Pending clock opts ts p → p.t.device = t.device → Apart p.t t := by
    intro p hp hdev
    obtain ⟨r, hr, hlo, hhi⟩ := h.layout.inside p ((h.keeps.queued d p).mpr ⟨hp, hdev.trans hd⟩)
    rcases haway r hr with hbelow | habove
    · exact .inr (le_trans hbelow hlo)
    · exact .inl (le_trans hhi habove)
  have hwell := h.well.snoc fun _ => ⟨hbytes, hapart⟩
  have hrange := h.range.snoc (t := t) fun _ => hend
  have hkeeps := h.keeps.addTrace hwell hrange hrun
  have hwatch : s'.watch d = (s.watch d).dispatch [s.ios] noTime := by
    rw [addTrace_of_analysed hq.1] at hrun
    dsimp only [State.analyse] at hrun
    rw [hq.2.1] at hrun
    rw [← Option.some.inj hrun]
    exact h.watch_queue hwell hrange hq
  have hne : t.sector.toNat < extentEnd t := Nat.lt_add_of_pos_right (Nat.div_pos hbytes (by decide))
  have hlayout : Layout (Request.ofQueued t :: rs) (⟨s.ios, t⟩ :: ((s.dip d).heads .q).toList)
      (s'.watch d).dTime := by
    rw [hwatch]
    refine @Layout.queue _ _ (s.watch d).dTime _ ⟨s.ios, t⟩ h.layout (h.keeps.extents h.well h.range d) hne hend
      haway ?_ fun q hq => ?_
    · exact if_pos (List.mem_singleton_self _)
    · have hlt := ((h.keeps.queued d q).mp hq).1.lt
      refine if_neg fun hmem => ?_
      rw [List.mem_singleton.mp hmem, h.keeps.ios] at hlt
      exact absurd hlt (lt_irrefl _)
  refine ⟨⟨hkeeps, hwell, hrange, hlayout.perm (.refl _) (h.perm_of_queue hkeeps hwell hrange hq hd)⟩,
    next_of_counts (by rw [hq.2.1]; decide) fun hcounts => ⟨?_, ?_⟩⟩
  · show (s'.watch d).curQusz = _
    rw [hwatch, List.countP_cons_of_neg (by simp [Request.ofQueued]), ← hcounts.1]
    rfl
  · show (s'.watch d).curDev = _
    rw [hwatch, List.countP_cons_of_neg (by simp [Request.ofQueued, Request.IsIssued]), ← hcounts.2]
    rfl

theorem completed {rest : List Request} (hrun : s.addTrace bal opts clock t = some s')
    (hc : Accepted clock opts .complete t) (hd : t.device = d) (hperm : rs.Perm (r :: rest))
    (hissued : r.IsIssued) (hof : r.IsOf t) :
    Follows clock opts d (ts ++ [t]) rest s' ∧ Next d t (rs, s) (rest, s') := by
  have hr : r ∈ rs := hperm.mem_iff.mpr List.mem_cons_self
  have hend : extentEnd t < 2 ^ 64 := hof.2 ▸ h.layout.inRange r hr
  have hnq : ¬ Accepted clock opts .queue t := fun hq => absurd
    (Option.some.inj (hc.2.1.symm.trans hq.2.1)) (by decide)
  have hwell := h.well.snoc (t := t) fun h => absurd h hnq
  have hrange := h.range.snoc (t := t) fun _ => hend
  have hkeeps := h.keeps.addTrace hwell hrange hrun
  have hlayout := h.layout.perm hperm (.refl _)
  have hdevice : ∀ p ∈ s.dipForeachList ⟨s.ios, t⟩ .q, p.t.device = t.device := by
    intro p hp
    exact ((h.keeps.queued d p).mp ((h.mem_covered hr hd hof p).mp hp).1).2.trans hd.symm
  have hwatch : s'.watch d = (s.watch d).count (-((if r.dTime ≠ noTime then r.parts else 0 : ℕ) : ℤ))
      (-((if r.dTime ≠ noTime then r.parts else 0 : ℕ) : ℤ)) := by
    rw [addTrace_of_analysed hc.1] at hrun
    dsimp only [State.analyse] at hrun
    rw [hc.2.1] at hrun
    rw [← Option.some.inj hrun, ← h.dispatched_covered hr hd hof, ← hd]
    exact @watch_traceComplete { s with ios := s.ios + 1 } bal ⟨s.ios, t⟩
      ⟨h.keeps.others, h.keeps.ready.unlinked⟩ hc.2.2 (hd ▸ h.preCulling hr) hdevice
  have hsingle : Single (rs, s) t ↔ r.parts = 1 ∧ r.dTime ≠ noTime := by
    constructor
    · exact fun hall => hall hc.2.1 r hr hissued hof
    · intro hr _ r' hr' _ hof'
      rcases List.mem_cons.mp (hperm.mem_iff.mp hr') with rfl | hr'
      · exact hr
      · -- another request of the same extent would overlap it
        have hne := hlayout.nonempty r List.mem_cons_self
        have hap := (List.pairwise_cons.mp hlayout.apart).1 r' hr'
        rw [Request.Apart, hof'.1, hof'.2, ← hof.1, ← hof.2] at hap
        exact absurd hne (not_lt.mpr (hap.elim id id))
  refine ⟨⟨hkeeps, hwell, hrange, ?_⟩, fun hcounts => ?_⟩
  · have hrest := hlayout.complete (h.keeps.extents h.well h.range d)
    rw [hwatch]
    exact hrest.perm (.refl _) (h.perm_of_complete hkeeps hwell hrange hc hd hof)
  · have hqusz : (s.watch d).curQusz = (rest.countP (·.stage ≠ .waits) : ℤ) + 1 := by
      refine hcounts.1.trans ?_
      rw [hperm.countP_eq, List.countP_cons_of_pos (by simpa using hissued.1)]
      push_cast
      rfl
    have hdev : (s.watch d).curDev = (rest.countP (·.IsIssued) : ℤ) + 1 := by
      refine hcounts.2.trans ?_
      rw [hperm.countP_eq, List.countP_cons_of_pos (by simpa using hissued)]
      push_cast
      rfl
    rw [hsingle]
    unfold Counts
    show (s'.watch d).curQusz = _ ∧ (s'.watch d).curDev = _ ↔ _
    rw [hwatch]
    show (s.watch d).curQusz + _ = ((rest.countP (·.stage ≠ .waits) : ℕ) : ℤ) ∧
      (s.watch d).curDev + _ = ((rest.countP (·.IsIssued) : ℕ) : ℤ) ↔ _
    rw [hqusz, hdev]
    split_ifs with htime
    · rw [and_iff_left htime]
      omega
    · rw [iff_false_intro (fun h : r.parts = 1 ∧ r.dTime ≠ noTime => htime h.2), iff_false]
      omega

section

variable {rest : List Request} (hrun : s.addTrace bal opts clock t = some s')
  (hfate : addTrace clock opts.bounds t = .analysed) (hbytes : t.bytes ≠ 0) (hd : t.device = d)
  (hperm : rs.Perm (r :: rest))

include hrun hfate hbytes hd hperm

theorem allocated (haction : BlkTa.ofAction t.action = some .getrq) (hstage : r.stage = .waits) :
    Follows clock opts d (ts ++ [t]) ({ r with stage := .allocated } :: rest) s' ∧
      Next d t (rs, s) ({ r with stage := .allocated } :: rest, s') := by
  have hr : r ∈ rs := hperm.mem_iff.mpr List.mem_cons_self
  have hlayout := h.layout.perm hperm (.refl _)
  have hnone : r.dTime = noTime := by rw [Request.dTime, hstage]
  have hwatch : s'.watch d = (s.watch d).count 1 0 := by
    rw [addTrace_of_analysed hfate] at hrun
    dsimp only [State.analyse] at hrun
    rw [haction] at hrun
    obtain ⟨s₁, hs₁, -, htrace⟩ := @watch_with τ _ bal clock opts d ts t rs s h r State.handleG .g
      (by decide) hr hd
    rw [← Option.some.inj hrun, State.traceGetrq, if_neg hbytes, htrace, ← hs₁, ← hd]
    exact watch_handleG s₁ ⟨s.ios, t⟩
  refine h.other hrun (by rw [haction]; decide) (by rw [haction]; decide)
    (hlayout.advance (h.keeps.extents h.well h.range d) (fun p hp hin => ?_) fun _ _ _ => rfl) hwatch ?_ ?_
  · exact (hlayout.dTimes r List.mem_cons_self p hp hin).trans hnone
  · rw [hperm.countP_eq, List.countP_cons_of_pos (by simp), List.countP_cons_of_neg (by simp [hstage])]
    push_cast
    rfl
  · rw [hperm.countP_eq, List.countP_cons_of_neg (by simp [Request.IsIssued]),
      List.countP_cons_of_neg (by simp [Request.IsIssued, hstage]), add_zero]

theorem inserted (haction : BlkTa.ofAction t.action = some .insert) :
    Follows clock opts d (ts ++ [t]) (r :: rest) s' ∧ Next d t (rs, s) (r :: rest, s') := by
  have hr : r ∈ rs := hperm.mem_iff.mpr List.mem_cons_self
  have hwatch : s'.watch d = (s.watch d).count 0 0 := by
    rw [addTrace_of_analysed hfate] at hrun
    dsimp only [State.analyse] at hrun
    rw [haction] at hrun
    obtain ⟨s₁, hs₁, -, htrace⟩ := @watch_with τ _ bal clock opts d ts t rs s h r State.handleI .i
      (by decide) hr hd
    rw [← Option.some.inj hrun, State.traceInsert, if_neg hbytes, htrace, watch_handleI, hs₁, Watch.count_zero]
  refine h.other hrun (by rw [haction]; decide) (by rw [haction]; decide)
    (h.layout.perm hperm (.refl _)) hwatch ?_ ?_
  · rw [hperm.countP_eq, add_zero]
  · rw [hperm.countP_eq, add_zero]

theorem issued (haction : BlkTa.ofAction t.action = some .issue) (hstage : r.stage = .allocated)
    (hof : r.IsOf t) :
    Follows clock opts d (ts ++ [t]) ({ r with stage := .issued t.time } :: rest) s' ∧
      Next d t (rs, s) ({ r with stage := .issued t.time } :: rest, s') := by
  have hr : r ∈ rs := hperm.mem_iff.mpr List.mem_cons_self
  have hlayout := h.layout.perm hperm (.refl _)
  have hwatch : s'.watch d =
      ((s.watch d).count 0 1).dispatch ((s.dipForeachList ⟨s.ios, t⟩ .q).map Iop.id) t.time := by
    rw [addTrace_of_analysed hfate] at hrun
    dsimp only [State.analyse] at hrun
    rw [haction] at hrun
    obtain ⟨s₁, hs₁, hlist, htrace⟩ := @watch_with τ _ bal clock opts d ts t rs s h r
      (fun s d => s.handleIssue opts.outputAllData d) .d (by decide) hr hd
    rw [← Option.some.inj hrun, State.traceIssue, if_neg hbytes, htrace, ← hs₁, ← hd, ← hlist]
    exact watch_handleIssue s₁ _ ⟨s.ios, t⟩
  have hids : ∀ p ∈ ((s.dip d).heads .q).toList,
      (p.id ∈ (s.dipForeachList ⟨s.ios, t⟩ .q).map Iop.id ↔ r.Holds p) := by
    intro p hp
    constructor
    · intro hmem
      obtain ⟨q, hq, hid⟩ := List.mem_map.mp hmem
      obtain ⟨hq, hin⟩ := (h.mem_covered hr hd hof q).mp hq
      exact ((h.keeps.queued d q).mp hq).1.ext ((h.keeps.queued d p).mp hp).1 hid ▸ hin
    · exact fun hin => List.mem_map_of_mem ((h.mem_covered hr hd hof p).mpr ⟨hp, hin⟩)
  refine h.other hrun (by rw [haction]; decide) (by rw [haction]; decide)
    (hlayout.advance (h.keeps.extents h.well h.range d) (fun p hp hin => ?_) fun p hp hnot => ?_) hwatch ?_ ?_
  · exact if_pos ((hids p hp).mpr hin)
  · exact if_neg fun hmem => hnot ((hids p hp).mp hmem)
  · rw [hperm.countP_eq, List.countP_cons_of_pos (by simp), List.countP_cons_of_pos (by simp [hstage]), add_zero]
  · rw [hperm.countP_eq, List.countP_cons_of_pos (by simp [Request.IsIssued]),
      List.countP_cons_of_neg (by simp [Request.IsIssued, hstage])]
    push_cast
    rfl

end

theorem merged {rest : List Request} {w : Request} {first stop : ℕ}
    (hrun : s.addTrace bal opts clock t = some s') (hfate : Btt.addTrace clock opts.bounds t = .analysed)
    (hbytes : t.bytes ≠ 0) (hd : t.device = d) (hperm : rs.Perm (w :: r :: rest))
    (haction : BlkTa.ofAction t.action = some .backmerge ∨ BlkTa.ofAction t.action = some .frontmerge)
    (hw : w.stage = .waits) (hstage : r.stage = .allocated)
    (hjoin : first = r.first ∧ stop = w.stop ∧ r.stop = w.first ∨
      first = w.first ∧ stop = r.stop ∧ r.first = w.stop) :
    Follows clock opts d (ts ++ [t])
        ({ r with first := first, stop := stop, parts := r.parts + w.parts } :: rest) s' ∧
      Next d t (rs, s)
        ({ r with first := first, stop := stop, parts := r.parts + w.parts } :: rest, s') := by
  have hwr : w ∈ rs := hperm.mem_iff.mpr List.mem_cons_self
  have hlayout := h.layout.perm hperm (.refl _)
  have hwatch : s'.watch d = (s.watch d).count 0 0 := by
    rw [addTrace_of_analysed hfate] at hrun
    dsimp only [State.analyse] at hrun
    obtain ⟨s₁, hs₁, -, htrace⟩ := @watch_with τ _ bal clock opts d ts t rs s h w State.handleM .m
      (by decide) hwr hd
    rcases haction with haction | haction
    all_goals
      rw [haction] at hrun
      rw [← Option.some.inj hrun, State.traceMerge, if_neg hbytes, htrace, watch_handleM, hs₁,
        Watch.count_zero]
  refine h.other hrun ?_ ?_ (hlayout.merge (h.keeps.extents h.well h.range d) ?_ ?_ hjoin) hwatch ?_ ?_
  · rcases haction with haction | haction <;> rw [haction] <;> decide
  · rcases haction with haction | haction <;> rw [haction] <;> decide
  · rw [Request.dTime, hw]
  · rw [Request.dTime, hstage]
  · rw [hperm.countP_eq, List.countP_cons_of_pos (by simp [hstage]), List.countP_cons_of_neg (by simp [hw]),
      List.countP_cons_of_pos (by simp [hstage]), add_zero]
  · rw [hperm.countP_eq, List.countP_cons_of_neg (by simp [Request.IsIssued, hstage]),
      List.countP_cons_of_neg (by simp [Request.IsIssued, hw]),
      List.countP_cons_of_neg (by simp [Request.IsIssued, hstage]), add_zero]

/-- **A record that may come next.** -/
theorem step {rs' : List Request} (hstep : step bal clock opts d (rs, s) t = some (rs', s')) :
    Follows clock opts d (ts ++ [t]) rs' s' ∧ Next d t (rs, s) (rs', s') := by
  unfold Btt.step at hstep
  split_ifs at hstep with hguard
  obtain ⟨hd, hfate, hbytes⟩ := hguard
  obtain ⟨rs₁, hevent, hadd⟩ := Option.bind_eq_some_iff.mp hstep
  obtain ⟨s₁, hrun, heq⟩ := Option.map_eq_some_iff.mp hadd
  obtain ⟨rfl, rfl⟩ := Prod.mk.inj heq
  clear hstep hadd
  dsimp only at hevent hrun
  unfold nextEvent at hevent
  split at hevent
  case h_1 haction =>
    split_ifs at hevent with hfits
    obtain rfl := Option.some.inj hevent
    exact h.queued hrun ⟨hfate, haction, hbytes⟩ hd hfits.1 hfits.2.1 hfits.2.2
  case h_2 haction =>
    obtain ⟨⟨r, rest⟩, hr, rfl⟩ := Option.map_eq_some_iff.mp hevent
    obtain ⟨hp, hperm⟩ := pick_eq_some hr
    exact h.allocated hrun hfate hbytes hd hperm haction (of_decide_eq_true hp).1
  case h_3 haction =>
    obtain ⟨⟨w, rest⟩, hw, hevent⟩ := Option.bind_eq_some_iff.mp hevent
    obtain ⟨⟨r, rest'⟩, hr, rfl⟩ := Option.map_eq_some_iff.mp hevent
    obtain ⟨hpw, hperm⟩ := pick_eq_some hw
    obtain ⟨hpr, hperm'⟩ := pick_eq_some hr
    have hpw := of_decide_eq_true hpw
    have hpr := of_decide_eq_true hpr
    exact h.merged hrun hfate hbytes hd (hperm.trans (hperm'.cons w)) (.inl haction) hpw.1 hpr.1
      (.inl ⟨rfl, rfl, hpr.2⟩)
  case h_4 haction =>
    obtain ⟨⟨w, rest⟩, hw, hevent⟩ := Option.bind_eq_some_iff.mp hevent
    obtain ⟨⟨r, rest'⟩, hr, rfl⟩ := Option.map_eq_some_iff.mp hevent
    obtain ⟨hpw, hperm⟩ := pick_eq_some hw
    obtain ⟨hpr, hperm'⟩ := pick_eq_some hr
    have hpw := of_decide_eq_true hpw
    have hpr := of_decide_eq_true hpr
    exact h.merged hrun hfate hbytes hd (hperm.trans (hperm'.cons w)) (.inr haction) hpw.1 hpr.1
      (.inr ⟨rfl, rfl, hpr.2⟩)
  case h_5 haction =>
    obtain ⟨⟨r, rest⟩, hr, rfl⟩ := Option.map_eq_some_iff.mp hevent
    obtain ⟨-, hperm⟩ := pick_eq_some hr
    exact h.inserted hrun hfate hbytes hd hperm haction
  case h_6 haction =>
    obtain ⟨⟨r, rest⟩, hr, rfl⟩ := Option.map_eq_some_iff.mp hevent
    obtain ⟨hp, hperm⟩ := pick_eq_some hr
    have hp := of_decide_eq_true hp
    exact h.issued hrun hfate hbytes hd hperm haction hp.1 hp.2
  case h_7 haction =>
    obtain ⟨⟨r, rest⟩, hr, rfl⟩ := Option.map_eq_some_iff.mp hevent
    obtain ⟨hp, hperm⟩ := pick_eq_some hr
    have hp := of_decide_eq_true hp
    exact h.completed hrun ⟨hfate, haction, hbytes⟩ hd hperm hp.1 hp.2
  case h_8 => exact absurd hevent (by simp)

end Follows

/-- **The counters count the requests** in every state that a well-formed sequence leads to if and only if
no request is completed with more than the record it was allocated for, or was dispatched at the time that
stands for none. -/
theorem counts_iff_single (bal : Balancer Iop) (clock : BitTime τ) (opts : Options τ) (d : UInt32)
    (ts : List BlkIoTrace) (h : (follow bal clock opts d ts).isSome) :
    (∀ as x, as <+: ts → follow bal clock opts d as = some x → Counts d x) ↔
      ∀ as t x, as ++ [t] <+: ts → follow bal clock opts d as = some x → Single x t := by
  obtain ⟨x, hx⟩ := Option.isSome_iff_exists.mp h
  suffices hboth : Follows clock opts d ts x.1 x.2 ∧
      ((∀ as y, as <+: ts → follow bal clock opts d as = some y → Counts d y) ↔
        ∀ as t y, as ++ [t] <+: ts → follow bal clock opts d as = some y → Single y t) from hboth.2
  clear h
  induction ts using List.reverseRecOn generalizing x with
  | nil =>
    obtain rfl := Option.some.inj hx
    refine ⟨follows_nil, fun _ as t y hprefix => ?_, fun _ as y hprefix hy => ?_⟩
    · exact absurd (List.prefix_nil.mp hprefix) (by simp)
    · rw [List.prefix_nil.mp hprefix] at hy
      obtain rfl := Option.some.inj hy
      exact ⟨rfl, rfl⟩
  | append_singleton ts t ih =>
    have hlast : (follow bal clock opts d ts).bind (Btt.step bal clock opts d · t) = some x := by
      rw [follow, List.foldlM_append] at hx
      simpa [follow] using hx
    obtain ⟨⟨rs, s⟩, hinit, hlast⟩ := Option.bind_eq_some_iff.mp hlast
    obtain ⟨hfollows, hiff⟩ := ih _ hinit
    obtain ⟨hfollows, hnext⟩ := hfollows.step hlast
    refine ⟨hfollows, ?_, ?_⟩
    · intro hall as u y hprefix hy
      have hcounts : ∀ as y, as <+: ts → follow bal clock opts d as = some y → Counts d y :=
        fun as y has hy => hall as y (has.trans (List.prefix_append _ _)) hy
      rcases List.prefix_concat_iff.mp hprefix with heq | hprefix
      · obtain ⟨rfl, hu⟩ := List.append_inj' heq rfl
        obtain rfl := List.singleton_injective hu
        obtain rfl := Option.some.inj (hinit.symm.trans hy)
        exact (hnext (hcounts as _ (List.prefix_refl _) hinit)).mp (hall _ _ (List.prefix_refl _) hx)
      · exact hiff.mp hcounts as u y hprefix hy
    · intro hall as y hprefix hy
      have hcounts : ∀ as y, as <+: ts → follow bal clock opts d as = some y → Counts d y :=
        hiff.mpr fun as u y has hy => hall as u y (has.trans (List.prefix_append _ _)) hy
      rcases List.prefix_concat_iff.mp hprefix with rfl | hprefix
      · obtain rfl := Option.some.inj (hx.symm.trans hy)
        exact (hnext (hcounts ts _ (List.prefix_refl _) hinit)).mpr (hall ts t _ (List.prefix_refl _) hinit)
      · exact hcounts as y hprefix hy

end

/-- A request of one record of 8 sectors. -/
def unmerged : List BlkIoTrace :=
  [recordOf 0x00100001 1 8 8, recordOf 0x00100004 2 8 8, recordOf 0x00400007 3 8 8, recordOf 0x00800008 4 8 8]

theorem counts_iff_single_unmerged :
    (∀ as x, as <+: unmerged → follow listBalancer exactTime plainOptions 1 as = some x → Counts 1 x) ↔
      ∀ as t x, as ++ [t] <+: unmerged → follow listBalancer exactTime plainOptions 1 as = some x →
        Single x t :=
  counts_iff_single listBalancer exactTime plainOptions 1 unmerged (by decide)

/-- A request of two records. -/
def mergedOnce : List BlkIoTrace :=
  [recordOf 0x00100001 1 8 8, recordOf 0x00100004 2 8 8, recordOf 0x00100001 3 16 8, recordOf 0x00100002 4 16 8,
    recordOf 0x00400007 5 8 16, recordOf 0x00800008 6 8 16]

/-- When it is completed the counters are below zero. -/
theorem not_counts : ¬ ∀ ts : List BlkIoTrace, (follow listBalancer exactTime plainOptions 1 ts).isSome →
    ∀ as x, as <+: ts → follow listBalancer exactTime plainOptions 1 as = some x → Counts 1 x := by
  intro hall
  have hrun : ((follow listBalancer exactTime plainOptions 1 mergedOnce).map fun x =>
      ((x.2.dip 1).stats.curQusz, (x.2.dip 1).stats.curDev, x.1)) = some (-1, -1, []) := by decide
  obtain ⟨x, hx, hend⟩ := Option.map_eq_some_iff.mp hrun
  obtain ⟨hqusz, hend⟩ := Prod.mk.inj hend
  have hcounts := (hall mergedOnce (by rw [hx]; rfl) mergedOnce x (List.prefix_refl _) hx).1
  rw [hqusz] at hcounts
  exact absurd hcounts (by omega)

end Blktrace.Btt
