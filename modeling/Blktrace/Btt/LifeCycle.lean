import Blktrace.Btt.Effects

/-!
# `btt`: the life of a request

A queued record stays in the tree of its device until a completion covers it. That is said of the records that
were read (`Pending`, `CompletedBy`), and what the trees and the averages hold is compared with it.

Extents are in sectors, and may end behind the last one that a word can tell.
-/

namespace Blktrace.Btt

open SearchTree

/-- The sector behind a record. -/
def extentEnd (t : BlkIoTrace) : ℕ := t.sector.toNat + t.bytes.toNat / 512

/-- An extent is contained in another. -/
def Inside (q c : BlkIoTrace) : Prop :=
  c.sector.toNat ≤ q.sector.toNat ∧ extentEnd q ≤ extentEnd c

/-- Two extents do not overlap. -/
def Apart (a b : BlkIoTrace) : Prop := extentEnd a ≤ b.sector.toNat ∨ extentEnd b ≤ a.sector.toNat

instance (q c : BlkIoTrace) : Decidable (Inside q c) := inferInstanceAs (Decidable (_ ∧ _))

instance (a b : BlkIoTrace) : Decidable (Apart a b) := inferInstanceAs (Decidable (_ ∨ _))

section

variable {τ : Type*} [LinearOrder τ] (clock : BitTime τ) (opts : Options τ)

/-- A completion of a queued record. -/
def Covers (c q : BlkIoTrace) : Prop :=
  Accepted clock opts .complete c ∧ c.device = q.device ∧ Inside q c

instance (c q : BlkIoTrace) : Decidable (Covers clock opts c q) := inferInstanceAs (Decidable (_ ∧ _ ∧ _))

/-- An accepted Q that no later C has covered. Records are told by where they come in the trace. -/
structure Pending (ts : List BlkIoTrace) (q : Iop) : Prop where
  record : ts[q.id]? = some q.t
  queued : Accepted clock opts .queue q.t
  waits : ∀ c : Iop, q.id < c.id → ts[c.id]? = some c.t → ¬ Covers clock opts c.t q.t

/-- The first C to cover a Q. -/
structure CompletedBy (ts : List BlkIoTrace) (q c : Iop) : Prop where
  record : ts[q.id]? = some q.t
  queued : Accepted clock opts .queue q.t
  later : q.id < c.id
  completion : ts[c.id]? = some c.t
  covers : Covers clock opts c.t q.t
  first : ∀ b : Iop, q.id < b.id → b.id < c.id → ts[b.id]? = some b.t → ¬ Covers clock opts b.t q.t

/-- What is queued has at least a sector, and overlaps nothing on its device that is still queued. -/
def WellQueued (ts : List BlkIoTrace) : Prop :=
  ∀ n q, ts[n]? = some q → Accepted clock opts .queue q → 512 ≤ q.bytes.toNat ∧
    ∀ p, Pending clock opts (ts.take n) p → p.t.device = q.device → Apart p.t q

/-- No Q or C reaches behind the last sector. -/
def InRange (ts : List BlkIoTrace) : Prop :=
  ∀ t ∈ ts, Accepted clock opts .queue t ∨ Accepted clock opts .complete t → extentEnd t < 2 ^ 64

/-- The time from Q to C. -/
def latency (r : Iop × Iop) : UInt64 := tdelta r.1.t.time r.2.t.time

/-- The life of the requests of a trace, as it should be. -/
structure LifeCycle (ts : List BlkIoTrace) (s : State) : Prop where
  queued : ∀ d q, q ∈ ((s.dip d).heads .q).toList ↔ Pending clock opts ts q ∧ q.t.device = d
  once : ∀ d, ((s.dip d).heads .q).toList.Nodup
  others : ∀ d type, type ≠ .q → (s.dip d).heads type = .nil
  q2c : ∃ removed : List (Iop × Iop), removed.Nodup ∧
    (∀ q c, (q, c) ∈ removed ↔ CompletedBy clock opts ts q c) ∧
    (∀ d, s.dipAvgs d (q2cAvg d) =
      ((removed.filter fun r => r.1.t.device = d).map latency).foldl avgUpdate {}) ∧
    ∀ a, a = .q2c ∨ a = .q2cDm → s.allAvgs a =
      ((removed.filter fun r => q2cAvg r.1.t.device = a).map latency).foldl avgUpdate {}
  released : s.released.Nodup

/-! ## One record more -/

theorem getElem?_snoc {ts : List BlkIoTrace} {t x : BlkIoTrace} {i : ℕ} :
    (ts ++ [t])[i]? = some x ↔ ts[i]? = some x ∨ i = ts.length ∧ x = t := by
  rcases lt_trichotomy i ts.length with hlt | rfl | hgt
  · rw [List.getElem?_append_left hlt]
    exact ⟨.inl, fun h => h.resolve_right fun h => absurd h.1 hlt.ne⟩
  · rw [List.getElem?_concat_length, List.getElem?_eq_none le_rfl]
    simp [eq_comm]
  · rw [List.getElem?_eq_none (by simp; omega), List.getElem?_eq_none hgt.le]
    simp [hgt.ne']

variable {clock opts} {ts : List BlkIoTrace} {t : BlkIoTrace} {bal : Balancer Iop}

theorem Pending.lt {q : Iop} (h : Pending clock opts ts q) : q.id < ts.length :=
  (List.getElem?_eq_some_iff.mp h.record).1

theorem Pending.ext {q p : Iop} (hq : Pending clock opts ts q) (hp : Pending clock opts ts p)
    (h : q.id = p.id) : q = p := by
  have hsame : q.t = p.t := Option.some.inj (hq.record.symm.trans ((congrArg (ts[·]?) h).trans hp.record))
  cases q
  cases p
  simp only at h hsame
  rw [h, hsame]

/-- What is pending then: the record itself, or what was and is not covered by it. -/
theorem pending_snoc {q : Iop} : Pending clock opts (ts ++ [t]) q ↔
    q = ⟨ts.length, t⟩ ∧ Accepted clock opts .queue t ∨
      Pending clock opts ts q ∧ ¬ Covers clock opts t q.t := by
  constructor
  · rintro ⟨hrecord, hqueued, hwaits⟩
    rcases getElem?_snoc.mp hrecord with hold | ⟨hid, hnew⟩
    · refine .inr ⟨⟨hold, hqueued, fun c hlater hc => ?_⟩, ?_⟩
      · exact hwaits c hlater (getElem?_snoc.mpr (.inl hc))
      · have hlt := (List.getElem?_eq_some_iff.mp hold).1
        exact hwaits ⟨ts.length, t⟩ hlt (getElem?_snoc.mpr (.inr ⟨rfl, rfl⟩))
    · refine .inl ⟨?_, hnew ▸ hqueued⟩
      cases q
      simp only at hid hnew
      rw [hid, hnew]
  · rintro (⟨rfl, hqueued⟩ | ⟨hold, hnot⟩)
    · refine ⟨getElem?_snoc.mpr (.inr ⟨rfl, rfl⟩), hqueued, fun c hlater hc => ?_⟩
      have hlt := (List.getElem?_eq_some_iff.mp hc).1
      rw [List.length_append, List.length_singleton] at hlt
      exact absurd hlater (not_lt.mpr (Nat.le_of_lt_succ hlt))
    · refine ⟨getElem?_snoc.mpr (.inl hold.record), hold.queued, fun c hlater hc => ?_⟩
      rcases getElem?_snoc.mp hc with hc | ⟨-, hnew⟩
      · exact hold.waits c hlater hc
      · rw [hnew]
        exact hnot

/-- And what is completed: what was, and what is completed by it. -/
theorem completedBy_snoc {q c : Iop} : CompletedBy clock opts (ts ++ [t]) q c ↔
    CompletedBy clock opts ts q c ∨
      c = ⟨ts.length, t⟩ ∧ Pending clock opts ts q ∧ Covers clock opts t q.t := by
  constructor
  · rintro ⟨hrecord, hqueued, hlater, hcompletion, hcovers, hfirst⟩
    have hcid : c.id < (ts ++ [t]).length := (List.getElem?_eq_some_iff.mp hcompletion).1
    rw [List.length_append, List.length_singleton] at hcid
    have hrecord : ts[q.id]? = some q.t :=
      (getElem?_snoc.mp hrecord).resolve_right fun h => absurd h.1 (by omega)
    rcases getElem?_snoc.mp hcompletion with hold | ⟨hid, hnew⟩
    · refine .inl ⟨hrecord, hqueued, hlater, hold, hcovers, fun b hqb hbc hb => ?_⟩
      exact hfirst b hqb hbc (getElem?_snoc.mpr (.inl hb))
    · refine .inr ⟨?_, ⟨hrecord, hqueued, fun b hqb hb => ?_⟩, hnew ▸ hcovers⟩
      · cases c
        simp only at hid hnew
        rw [hid, hnew]
      · have hlt := (List.getElem?_eq_some_iff.mp hb).1
        exact hfirst b hqb (hid ▸ hlt) (getElem?_snoc.mpr (.inl hb))
  · rintro (h | ⟨rfl, hpending, hcovers⟩)
    · have hlt := (List.getElem?_eq_some_iff.mp h.completion).1
      refine ⟨getElem?_snoc.mpr (.inl h.record), h.queued, h.later, getElem?_snoc.mpr (.inl h.completion),
        h.covers, fun b hqb hbc hb => h.first b hqb hbc ?_⟩
      exact (getElem?_snoc.mp hb).resolve_right fun hb => absurd hb.1 (by omega)
    · refine ⟨getElem?_snoc.mpr (.inl hpending.record), hpending.queued, hpending.lt,
        getElem?_snoc.mpr (.inr ⟨rfl, rfl⟩), hcovers, fun b hqb hbc hb => hpending.waits b hqb ?_⟩
      exact (getElem?_snoc.mp hb).resolve_right fun hb => absurd hb.1 hbc.ne

theorem WellQueued.init (h : WellQueued clock opts (ts ++ [t])) : WellQueued clock opts ts := by
  intro n q hq haccepted
  have hlt := (List.getElem?_eq_some_iff.mp hq).1
  have hwell := h n q (getElem?_snoc.mpr (.inl hq)) haccepted
  rwa [List.take_append_of_le_length hlt.le] at hwell

theorem WellQueued.snoc (h : WellQueued clock opts ts) (ht : Accepted clock opts .queue t →
    512 ≤ t.bytes.toNat ∧ ∀ p, Pending clock opts ts p → p.t.device = t.device → Apart p.t t) :
    WellQueued clock opts (ts ++ [t]) := by
  intro n q hq haccepted
  rcases getElem?_snoc.mp hq with hold | ⟨rfl, rfl⟩
  · have hlt := (List.getElem?_eq_some_iff.mp hold).1
    rw [List.take_append_of_le_length hlt.le]
    exact h n q hold haccepted
  · rw [List.take_left' rfl]
    exact ht haccepted

theorem WellQueued.last (h : WellQueued clock opts (ts ++ [t])) (ht : Accepted clock opts .queue t) :
    512 ≤ t.bytes.toNat ∧
      ∀ p, Pending clock opts ts p → p.t.device = t.device → Apart p.t t := by
  have hwell := h ts.length t (getElem?_snoc.mpr (.inr ⟨rfl, rfl⟩)) ht
  rwa [List.take_left' rfl] at hwell

theorem InRange.snoc (h : InRange clock opts ts)
    (ht : Accepted clock opts .queue t ∨ Accepted clock opts .complete t → extentEnd t < 2 ^ 64) :
    InRange clock opts (ts ++ [t]) := by
  intro u hu haccepted
  rcases List.mem_append.mp hu with hu | hu
  · exact h u hu haccepted
  · obtain rfl := List.mem_singleton.mp hu
    exact ht haccepted

theorem InRange.init (h : InRange clock opts (ts ++ [t])) : InRange clock opts ts :=
  fun u hu => h u (List.mem_append_left _ hu)

/-! ## Extents as the trees see them -/

theorem toNat_tSec (t : BlkIoTrace) : t.tSec.toUInt64.toNat = t.bytes.toNat / 512 := by
  rw [UInt32.toNat_toUInt64, BlkIoTrace.tSec, UInt32.toNat_shiftRight, Nat.shiftRight_eq_div_pow]
  rfl

theorem toNat_bitEnd {iop : Iop} (h : extentEnd iop.t < 2 ^ 64) : iop.bitEnd.toNat = extentEnd iop.t := by
  rw [Iop.bitEnd, UInt64.toNat_add, toNat_tSec]
  exact Nat.mod_eq_of_lt h

/-- What is queued is not empty. -/
theorem bitStart_lt {q : Iop} (hbytes : 512 ≤ q.t.bytes.toNat) (h : extentEnd q.t < 2 ^ 64) :
    q.bitStart < q.bitEnd := by
  have hsectors := Nat.div_pos hbytes (by decide)
  rw [UInt64.lt_iff_toNat_lt, toNat_bitEnd h]
  exact Nat.lt_add_of_pos_right hsectors

theorem inside_iff {q c : Iop} (hq : extentEnd q.t < 2 ^ 64) (hc : extentEnd c.t < 2 ^ 64) :
    Inside q.t c.t ↔ c.bitStart ≤ q.bitStart ∧ q.bitEnd ≤ c.bitEnd := by
  rw [UInt64.le_iff_toNat_le, UInt64.le_iff_toNat_le, toNat_bitEnd hq, toNat_bitEnd hc]
  rfl

theorem apart_iff {p q : Iop} (hp : extentEnd p.t < 2 ^ 64) (hq : extentEnd q.t < 2 ^ 64) :
    Apart p.t q.t ↔ p.bitEnd ≤ q.bitStart ∨ q.bitEnd ≤ p.bitStart := by
  rw [UInt64.le_iff_toNat_le, UInt64.le_iff_toNat_le, toNat_bitEnd hp, toNat_bitEnd hq]
  rfl

/-! ## What is kept from one record to the next -/

variable (clock opts) in
/-- The trees of the queued records hold what is pending, in order and apart. -/
structure Keeps (ts : List BlkIoTrace) (s : State) : Prop where
  ios : s.ios = ts.length
  queued : ∀ d q, q ∈ ((s.dip d).heads .q).toList ↔ Pending clock opts ts q ∧ q.t.device = d
  sorted : ∀ d, ((s.dip d).heads .q).toList.Pairwise fun a b => a.bitEnd ≤ b.bitStart
  others : ∀ d type, type ≠ .q → (s.dip d).heads type = .nil
  culled : ∀ d, (s.dip d).preCulling = true → (s.dip d).heads .q = .nil
  linked : ∀ q, Pending clock opts ts q → s.linked q.id = some .q
  unlinked : ∀ id, (∀ q, Pending clock opts ts q → q.id ≠ id) → s.linked id = none
  once : s.released.Nodup
  released : ∀ id ∈ s.released, id < ts.length ∧ ∀ q, Pending clock opts ts q → q.id ≠ id
  q2cs : ∃ removed : List (Iop × Iop), removed.Nodup ∧
    (∀ q c, (q, c) ∈ removed ↔ CompletedBy clock opts ts q c) ∧
    s.q2cs = removed.map fun r => q2cSample r.2 r.1

theorem keeps_nil : Keeps clock opts [] {} where
  ios := rfl
  queued _ _ := ⟨nofun, fun h => absurd h.1.lt (Nat.not_lt_zero _)⟩
  sorted _ := .nil
  others _ _ _ := rfl
  culled _ _ := rfl
  linked _ h := absurd h.lt (Nat.not_lt_zero _)
  unlinked _ _ := rfl
  once := .nil
  released := nofun
  q2cs := ⟨[], .nil, fun _ _ => ⟨nofun, fun h =>
    absurd (List.getElem?_eq_some_iff.mp h.completion).1 (Nat.not_lt_zero _)⟩, rfl⟩

theorem Pending.inRange {q : Iop} (h : Pending clock opts ts q) (hrange : InRange clock opts ts) :
    extentEnd q.t < 2 ^ 64 :=
  hrange q.t (List.mem_of_getElem? h.record) (.inl h.queued)

theorem Pending.nonempty {q : Iop} (h : Pending clock opts ts q) (hwell : WellQueued clock opts ts)
    (hrange : InRange clock opts ts) : q.bitStart < q.bitEnd :=
  bitStart_lt (hwell q.id q.t h.record h.queued).1 (h.inRange hrange)

namespace Keeps

variable {s s' : State} (h : Keeps clock opts ts s)

include h

theorem ready : Ready s ⟨s.ios, t⟩ :=
  ⟨h.others, h.unlinked _ fun _ hq => h.ios ▸ hq.lt.ne⟩

theorem nonempty (hwell : WellQueued clock opts ts) (hrange : InRange clock opts ts) {d : UInt32} :
    ∀ q ∈ ((s.dip d).heads .q).toList, q.bitStart < q.bitEnd :=
  fun q hq => ((h.queued d q).mp hq).1.nonempty hwell hrange

theorem nodup (hwell : WellQueued clock opts ts) (hrange : InRange clock opts ts) (d : UInt32) :
    ((s.dip d).heads .q).toList.Nodup := by
  refine (h.sorted d).imp_of_mem fun {a b} ha _ hab => ?_
  rintro rfl
  exact absurd (h.nonempty hwell hrange a ha) (not_lt.mpr hab)

/-- **Where a record takes out what it covers**, and is not queued itself. -/
theorem drained (hwell : WellQueued clock opts ts) (hrange : InRange clock opts ts)
    (hq : ¬ Accepted clock opts .queue t) {qs : List Iop} {done : List ℕ}
    (hdrained : Drained { s with ios := s.ios + 1 } qs ⟨s.ios, t⟩ done s')
    (hqs : ∀ q, q ∈ qs ↔ Pending clock opts ts q ∧ Covers clock opts t q.t) (hnodup : qs.Nodup)
    (honce : done.Nodup) (hdone : ∀ id ∈ done, id = s.ios ∨ id ∈ qs.map Iop.id) :
    Keeps clock opts (ts ++ [t]) s' := by
  have hpending : ∀ q, Pending clock opts (ts ++ [t]) q ↔
      Pending clock opts ts q ∧ ¬ Covers clock opts t q.t := by
    intro q
    rw [pending_snoc]
    exact or_iff_right fun hnew => hq hnew.2
  have hgone : ∀ q, Pending clock opts ts q → (q.id ∈ qs.map Iop.id ↔ Covers clock opts t q.t) := by
    intro q hqp
    constructor
    · intro hmem
      obtain ⟨p, hp, hid⟩ := List.mem_map.mp hmem
      have hboth := (hqs p).mp hp
      exact hboth.1.ext hqp hid ▸ hboth.2
    · exact fun hcovers => List.mem_map_of_mem ((hqs q).mpr ⟨hqp, hcovers⟩)
  have hsub : ∀ d, ((s'.dip d).heads .q).toList.Sublist ((s.dip d).heads .q).toList := by
    intro d
    by_cases hd : d = t.device
    · rw [hd, hdrained.tree]
      exact List.diff_sublist _ _
    · rw [hdrained.heads d .q (.inl hd)]
      exact List.Sublist.refl _
  refine ⟨?_, fun d q => ?_, fun d => (h.sorted d).sublist (hsub d), fun d type htype => ?_,
    fun d hd => ?_, fun q hqp => ?_, fun id hid => ?_, ?_, fun id hid => ?_, ?_⟩
  · rw [hdrained.ios, List.length_append, List.length_singleton, ← h.ios]
  · rw [hpending]
    by_cases hd : d = t.device
    · rw [hd, hdrained.tree]
      show q ∈ ((s.dip t.device).heads .q).toList.diff qs ↔ _
      rw [(h.nodup hwell hrange t.device).mem_sdiff_iff, h.queued, hqs]
      tauto
    · rw [hdrained.heads d .q (.inl hd)]
      show q ∈ ((s.dip d).heads .q).toList ↔ _
      rw [h.queued]
      constructor
      · rintro ⟨hqp, hdev⟩
        exact ⟨⟨hqp, fun hcovers => hd (hdev.symm.trans hcovers.2.1.symm)⟩, hdev⟩
      · rintro ⟨⟨hqp, -⟩, hdev⟩
        exact ⟨hqp, hdev⟩
  · rw [hdrained.heads d type (.inr htype)]
    exact h.others d type htype
  · have hnil := h.culled d (hdrained.culling d hd)
    have hsubd := hsub d
    rw [hnil] at hsubd
    exact RbTree.eq_nil_of_toList (List.sublist_nil.mp hsubd)
  · obtain ⟨hold, hnot⟩ := (hpending q).mp hqp
    rw [hdrained.linked, if_neg fun hmem => hnot ((hgone q hold).mp hmem)]
    exact h.linked q hold
  · rw [hdrained.linked]
    split_ifs with hmem
    · rfl
    · refine h.unlinked id fun q hqp hsame => ?_
      have hnot : ¬ Covers clock opts t q.t := fun hcovers => hmem (hsame ▸ (hgone q hqp).mpr hcovers)
      exact hid q ((hpending q).mpr ⟨hqp, hnot⟩) hsame
  · rw [hdrained.released, List.nodup_append]
    refine ⟨honce, h.once, fun id hid jd hjd hsame => ?_⟩
    obtain ⟨hlt, hnot⟩ := h.released jd hjd
    rcases hdone id hid with hnew | hmem
    · rw [← hsame, hnew, h.ios] at hlt
      exact absurd hlt (lt_irrefl _)
    · obtain ⟨q, hq, hid⟩ := List.mem_map.mp hmem
      exact hnot q ((hqs q).mp hq).1 (hid.trans hsame)
  · rw [List.length_append, List.length_singleton]
    rw [hdrained.released] at hid
    rcases List.mem_append.mp hid with hid | hid
    · rcases hdone id hid with rfl | hmem
      · refine ⟨by rw [h.ios]; exact Nat.lt_succ_self _, fun q hqp => ?_⟩
        exact h.ios ▸ ((hpending q).mp hqp).1.lt.ne
      · obtain ⟨p, hp, rfl⟩ := List.mem_map.mp hmem
        obtain ⟨hpp, hcovers⟩ := (hqs p).mp hp
        refine ⟨Nat.lt_succ_of_lt hpp.lt, fun q hqp hsame => ?_⟩
        obtain ⟨hold, hnot⟩ := (hpending q).mp hqp
        exact hnot (hold.ext hpp hsame ▸ hcovers)
    · obtain ⟨hlt, hnot⟩ := h.released id hid
      exact ⟨Nat.lt_succ_of_lt hlt, fun q hqp => hnot q ((hpending q).mp hqp).1⟩
  · obtain ⟨removed, hremoved, hiff, heq⟩ := h.q2cs
    refine ⟨removed ++ qs.map fun q => (q, ⟨ts.length, t⟩), ?_, fun q c => ?_, ?_⟩
    · rw [List.nodup_append]
      refine ⟨hremoved, hnodup.map fun a b hab => (Prod.mk.inj hab).1, ?_⟩
      rintro ⟨q, c⟩ hold p hnew rfl
      obtain ⟨q', -, heq⟩ := List.mem_map.mp hnew
      have hlt := (List.getElem?_eq_some_iff.mp ((hiff q c).mp hold).completion).1
      rw [← (Prod.mk.inj heq).2] at hlt
      exact absurd hlt (lt_irrefl _)
    · rw [completedBy_snoc, List.mem_append, hiff]
      refine or_congr_right ?_
      simp only [List.mem_map, Prod.mk.injEq, hqs]
      constructor
      · rintro ⟨q', hq', rfl, rfl⟩
        exact ⟨rfl, hq'⟩
      · rintro ⟨rfl, hq'⟩
        exact ⟨q, hq', rfl, rfl⟩
    · rw [hdrained.q2cs, List.map_append, List.map_map, ← heq, h.ios]
      rfl

omit h in
theorem not_covers (hq : Accepted clock opts .queue t) (q : BlkIoTrace) : ¬ Covers clock opts t q := by
  intro hcovers
  exact absurd (Option.some.inj (hq.2.1.symm.trans hcovers.1.2.1)) (by decide)

/-- The tree takes a record that is queued. -/
theorem exists_root (hwell : WellQueued clock opts (ts ++ [t])) (hrange : InRange clock opts (ts ++ [t]))
    (hq : Accepted clock opts .queue t) : ∃ root,
      rbInsert bal ((s.dip t.device).heads .q) ⟨s.ios, t⟩ = some root ∧
        (∀ q, q ∈ root.toList ↔ q = ⟨s.ios, t⟩ ∨ q ∈ ((s.dip t.device).heads .q).toList) ∧
        root.toList.Pairwise fun a b => a.bitEnd ≤ b.bitStart := by
  have hlast := hwell.last hq
  have hend : extentEnd t < 2 ^ 64 := hrange t (List.mem_append_right _ (List.mem_singleton_self t)) (.inl hq)
  obtain ⟨root, hroot, hmem, hsorted⟩ := RbTree.link_apart (b := (⟨s.ios, t⟩ : Iop))
    (h.nonempty hwell.init hrange.init) (h.sorted t.device) (bitStart_lt hlast.1 hend) fun a ha => by
      obtain ⟨hpending, hdevice⟩ := (h.queued t.device a).mp ha
      exact (apart_iff (hpending.inRange hrange.init) hend).mp (hlast.2 a hpending hdevice)
  refine ⟨bal.insertColor ⟨s.ios, t⟩ root, ?_, ?_, ?_⟩
  · rw [rbInsert, hroot]
    rfl
  · rwa [bal.toList_insertColor]
  · rwa [bal.toList_insertColor]

/-- **Where a record is queued.** -/
theorem queue (hwell : WellQueued clock opts (ts ++ [t])) (hrange : InRange clock opts (ts ++ [t]))
    (hq : Accepted clock opts .queue t) :
    Keeps clock opts (ts ++ [t]) ({ s with ios := s.ios + 1 }.traceQueue bal ⟨s.ios, t⟩) := by
  obtain ⟨root, hroot, hmem, hsorted⟩ := @exists_root _ _ _ _ _ _ bal _ h hwell hrange hq
  have hpending : ∀ q, Pending clock opts (ts ++ [t]) q ↔ q = ⟨s.ios, t⟩ ∨ Pending clock opts ts q := by
    intro q
    rw [pending_snoc, h.ios, and_iff_left hq, and_iff_left (not_covers hq q.t)]
  have hlink : { s with ios := s.ios + 1 }.traceQueue bal ⟨s.ios, t⟩ =
      ({ s with ios := s.ios + 1 }.link ⟨s.ios, t⟩ .q root).handleQueue ⟨s.ios, t⟩ :=
    traceQueue_linked hq.2.2 hroot
  rw [hlink]
  have hquiet := Quiet.handleQueue ({ s with ios := s.ios + 1 }.link ⟨s.ios, t⟩ .q root) ⟨s.ios, t⟩
  generalize State.handleQueue _ _ = s' at hquiet
  have hself : (s'.dip t.device).heads = Function.update (s.dip t.device).heads .q root :=
    (hquiet.heads t.device).trans heads_link_self
  have helse : ∀ d, d ≠ t.device → (s'.dip d).heads = (s.dip d).heads := by
    intro d hd
    rw [hquiet.heads, dip_link_of_ne hd]
    rfl
  have hlinked : s'.linked = Function.update s.linked s.ios (some .q) := hquiet.linked
  refine ⟨?_, fun d q => ?_, fun d => ?_, fun d type htype => ?_, fun d hd => ?_, fun q hqp => ?_,
    fun id hid => ?_, ?_, fun id hid => ?_, ?_⟩
  · rw [hquiet.ios, List.length_append, List.length_singleton, ← h.ios]
    rfl
  · rw [hpending]
    by_cases hd : d = t.device
    · rw [hd, hself, Function.update_self, hmem, h.queued, or_and_right]
      exact or_congr_left ⟨fun hnew => ⟨hnew, by rw [hnew]⟩, And.left⟩
    · rw [helse d hd, h.queued]
      constructor
      · exact fun hold => ⟨.inr hold.1, hold.2⟩
      · rintro ⟨rfl | hold, hdev⟩
        · exact absurd hdev.symm hd
        · exact ⟨hold, hdev⟩
  · by_cases hd : d = t.device
    · rw [hd, hself, Function.update_self]
      exact hsorted
    · rw [helse d hd]
      exact h.sorted d
  · by_cases hd : d = t.device
    · rw [hd, hself, Function.update_of_ne htype]
      exact h.others _ type htype
    · rw [helse d hd]
      exact h.others d type htype
  · rw [hquiet.culling] at hd
    obtain ⟨hold, hne⟩ := preCulling_link hd
    rw [helse d hne]
    exact h.culled d hold
  · rw [hlinked]
    rcases (hpending q).mp hqp with rfl | hold
    · exact Function.update_self _ _ _
    · rw [Function.update_of_ne (h.ios ▸ hold.lt.ne)]
      exact h.linked q hold
  · have hne : id ≠ s.ios := fun hsame => hid ⟨s.ios, t⟩ ((hpending _).mpr (.inl rfl)) hsame.symm
    rw [hlinked, Function.update_of_ne hne]
    exact h.unlinked id fun q hqp => hid q ((hpending q).mpr (.inr hqp))
  · rw [hquiet.released]
    exact h.once
  · rw [hquiet.released] at hid
    obtain ⟨hlt, hnot⟩ := h.released id hid
    rw [List.length_append, List.length_singleton]
    refine ⟨Nat.lt_succ_of_lt hlt, fun q hqp => ?_⟩
    rcases (hpending q).mp hqp with rfl | hold
    · exact fun hsame => absurd (hsame ▸ hlt) (by rw [h.ios]; exact lt_irrefl _)
    · exact hnot q hold
  · obtain ⟨removed, hremoved, hiff, heq⟩ := h.q2cs
    refine ⟨removed, hremoved, fun q c => ?_, hquiet.q2cs.trans heq⟩
    rw [hiff, completedBy_snoc]
    exact (or_iff_left fun hnew => not_covers hq q.t hnew.2.2).symm

/-- The queued records inside a record. -/
theorem mem_dipForeachList (hwell : WellQueued clock opts ts) (hrange : InRange clock opts ts) {c : Iop}
    (hend : extentEnd c.t < 2 ^ 64) (q : Iop) : q ∈ s.dipForeachList c .q ↔
      (Pending clock opts ts q ∧ q.t.device = c.t.device) ∧ Inside q.t c.t := by
  have hperm := RbTree.covered_perm c.bitStart c.bitEnd (h.nonempty hwell hrange) (h.sorted c.t.device)
  rw [State.dipForeachList, rbForeach, hperm.mem_iff, List.mem_filter, h.queued, decide_eq_true_iff]
  exact and_congr_right fun hq => (inside_iff (hq.1.inRange hrange) hend).symm

theorem nodup_dipForeachList (hwell : WellQueued clock opts ts) (hrange : InRange clock opts ts)
    (c : Iop) : (s.dipForeachList c .q).Nodup := by
  have hperm := RbTree.covered_perm c.bitStart c.bitEnd (h.nonempty hwell hrange) (h.sorted c.t.device)
  exact hperm.nodup_iff.mpr ((h.nodup hwell hrange c.t.device).filter _)

/-- **One record.** -/
theorem addTrace (hwell : WellQueued clock opts (ts ++ [t])) (hrange : InRange clock opts (ts ++ [t]))
    (hrun : s.addTrace bal opts clock t = some s') : Keeps clock opts (ts ++ [t]) s' := by
  rcases addTrace_cases h.ready hrun with ⟨hq, rfl⟩ | ⟨hc, rfl⟩ | ⟨hq, hc, done, hdone, hdrained⟩
  · exact h.queue hwell hrange hq
  · have hend : extentEnd t < 2 ^ 64 :=
      hrange t (List.mem_append_right _ (List.mem_singleton_self t)) (.inr hc)
    have hmem : ∀ q, q ∈ s.dipForeachList ⟨s.ios, t⟩ .q ↔
        Pending clock opts ts q ∧ Covers clock opts t q.t := by
      intro q
      rw [h.mem_dipForeachList hwell.init hrange.init hend, and_assoc]
      exact and_congr_right fun _ =>
        ⟨fun hin => ⟨hc, hin.1.symm, hin.2⟩, fun hcovers => ⟨hcovers.2.1.symm, hcovers.2.2⟩⟩
    have hnodup := h.nodup_dipForeachList hwell.init hrange.init ⟨s.ios, t⟩
    have hids : ((s.dipForeachList ⟨s.ios, t⟩ .q).map Iop.id).Nodup :=
      List.Nodup.map_on (fun q hq p hp hid => ((hmem q).mp hq).1.ext ((hmem p).mp hp).1 hid) hnodup
    refine h.drained hwell.init hrange.init (fun hq => ?_) (drained_traceComplete (s := { s with ios := s.ios + 1 })
      ⟨h.others, h.ready.unlinked⟩ hc.2.2 (h.culled t.device) (fun q hq => ?_) (fun q hq => ?_) hids
      (h.nodup hwell.init hrange.init t.device)) hmem hnodup ?_ fun id hid => ?_
    · exact absurd (Option.some.inj (hc.2.1.symm.trans hq.2.1)) (by decide)
    · exact ((hmem q).mp hq).2.2.1.symm
    · exact h.linked q ((hmem q).mp hq).1
    · refine List.nodup_cons.mpr ⟨fun hid => ?_, List.nodup_reverse.mpr hids⟩
      obtain ⟨q, hq, hid⟩ := List.mem_map.mp (List.mem_reverse.mp hid)
      exact absurd (h.ios ▸ ((hmem q).mp hq).1.lt) (by rw [hid]; exact lt_irrefl _)
    · rcases List.mem_cons.mp hid with rfl | hid
      · exact .inl rfl
      · exact .inr (List.mem_reverse.mp hid)
  · refine h.drained hwell.init hrange.init hq hdrained (fun q => ⟨nofun, fun hboth => ?_⟩) .nil ?_ ?_
    · exact absurd hboth.2.1 hc
    · rcases hdone with rfl | rfl
      · exact .nil
      · exact List.nodup_singleton _
    · rcases hdone with rfl | rfl
      · exact nofun
      · exact fun id hid => .inl (List.mem_singleton.mp hid)

end Keeps

/-- What is kept says all of the life of the requests. -/
theorem Keeps.lifeCycle {s : State} (h : Keeps clock opts ts s) (hwell : WellQueued clock opts ts)
    (hrange : InRange clock opts ts) : LifeCycle clock opts ts s := by
  refine ⟨h.queued, h.nodup hwell hrange, h.others, ?_, h.once⟩
  obtain ⟨removed, hremoved, hiff, hq2cs⟩ := h.q2cs
  have hvalues : ∀ p : Sample → Bool, (∀ x, p x = true → x.IsQ2c) →
      (s.samples.filter p).map Sample.value =
        (removed.filter fun r => p (q2cSample r.2 r.1)).map latency := by
    intro p hp
    have hsub : s.samples.filter p = s.q2cs.filter p := by
      rw [State.q2cs, List.filter_filter]
      refine List.filter_congr fun x _ => ?_
      cases hpx : p x with
      | false => rfl
      | true => exact (decide_eq_true (hp x hpx)).symm
    rw [hsub, hq2cs, List.filter_map, List.map_map]
    rfl
  have hq2c : ∀ d, q2cAvg d = .q2c ∨ q2cAvg d = .q2cDm := by
    intro d
    unfold q2cAvg
    split_ifs
    · exact .inr rfl
    · exact .inl rfl
  refine ⟨removed, hremoved, hiff, fun d => ?_, fun a ha => ?_⟩
  · unfold State.dipAvgs State.values
    rw [hvalues]
    · congr 2
      refine List.filter_congr fun r _ => decide_eq_decide.mpr ?_
      exact ⟨And.right, fun hd => ⟨congrArg (Report.avg <| q2cAvg ·) hd, hd⟩⟩
    · intro x hx
      rw [Sample.IsQ2c, (of_decide_eq_true hx).1]
      exact (hq2c d).imp (congrArg _) (congrArg _)
  · unfold State.allAvgs
    rw [hvalues]
    · congr 2
      refine List.filter_congr fun r _ => decide_eq_decide.mpr ?_
      exact ⟨fun hr => Report.avg.inj hr, congrArg _⟩
    · intro x hx
      rw [Sample.IsQ2c, of_decide_eq_true hx]
      exact ha.imp (congrArg _) (congrArg _)

theorem keeps_addTraces (hwell : WellQueued clock opts ts) (hrange : InRange clock opts ts) {s : State}
    (hrun : State.addTraces bal opts clock {} ts = some s) : Keeps clock opts ts s := by
  induction ts using List.reverseRecOn generalizing s with
  | nil =>
    obtain rfl := Option.some.inj hrun
    exact keeps_nil
  | append_singleton ts t ih =>
    rw [State.addTraces, List.foldlM_append] at hrun
    obtain ⟨s', hinit, hlast⟩ := Option.bind_eq_some_iff.mp hrun
    have hlast : s'.addTrace bal opts clock t = some s := by simpa using hlast
    exact (ih hwell.init hrange.init hinit).addTrace hwell hrange hlast

variable (clock opts) in
/-- The payload has the words that are read from it. -/
def Readable (t : BlkIoTrace) : Prop :=
  Btt.addTrace clock opts.bounds t = .analysed →
    (BlkTa.ofAction t.action = some .remap → opts.ignoreRemaps = false → 16 ≤ t.pdu.length) ∧
    (BlkTa.ofAction t.action = some .unplugIo ∨ BlkTa.ofAction t.action = some .unplugTimer →
      8 ≤ t.pdu.length)

theorem addTrace_isSome (h : Readable clock opts t) (s : State) :
    ∃ s', s.addTrace bal opts clock t = some s' := by
  dsimp only [State.addTrace]
  split
  · rename_i hfate
    obtain ⟨hremap, hunplug⟩ := h hfate
    dsimp only [State.analyse]
    split
    case h_2 haction =>
      dsimp only [State.traceRemap]
      split_ifs with hignore hshort
      · exact ⟨_, rfl⟩
      · exact absurd (hremap haction (Bool.eq_false_iff.mpr hignore)) (not_le.mpr hshort)
      · exact ⟨_, rfl⟩
    case h_11 haction =>
      dsimp only [State.traceUnplugIo, State.getNioUp]
      rw [if_neg (not_lt.mpr (hunplug (.inl haction)))]
      exact ⟨_, rfl⟩
    case h_12 haction =>
      dsimp only [State.traceUnplugTimer, State.getNioUp]
      rw [if_neg (not_lt.mpr (hunplug (.inr haction)))]
      exact ⟨_, rfl⟩
    all_goals exact ⟨_, rfl⟩
  · exact ⟨_, rfl⟩

/-- Only a short payload stops a run. -/
theorem addTraces_isSome (h : ∀ t ∈ ts, Readable clock opts t) (s : State) :
    ∃ s', s.addTraces bal opts clock ts = some s' := by
  induction ts generalizing s with
  | nil => exact ⟨s, rfl⟩
  | cons t ts ih =>
    obtain ⟨ht, hts⟩ := List.forall_mem_cons.mp h
    obtain ⟨s₁, hs₁⟩ := @addTrace_isSome τ _ clock opts t bal ht s
    obtain ⟨s₂, hs₂⟩ := ih hts s₁
    refine ⟨s₂, ?_⟩
    rw [State.addTraces, List.foldlM_cons, hs₁]
    exact hs₂

/-- **The life of a request.** After any records of which no Q or C reaches behind the last sector, and no
Q overlaps what is still queued. -/
theorem lifeCycle_of_wellQueued (bal : Balancer Iop) (clock : BitTime τ) (opts : Options τ)
    (ts : List BlkIoTrace) (s : State) (hwell : WellQueued clock opts ts) (hrange : InRange clock opts ts)
    (hrun : State.addTraces bal opts clock {} ts = some s) : LifeCycle clock opts ts s :=
  (keeps_addTraces hwell hrange hrun).lifeCycle hwell hrange

end

/-! ## Two runs -/

/-- A balancer that rebuilds the tree as a list when a node is erased, and makes the root black when one is
inserted. -/
def listBalancer : Balancer Iop where
  insertColor _ t :=
    match t with
    | .nil => .nil
    | .node _ l a r => .node false l a r
  erase a t := (t.toList.erase a).foldr (fun b t => .node false .nil b t) .nil
  toList_insertColor _ t := by cases t <;> rfl
  toList_erase := RbTree.toList_rebuild

/-- No bounds, and none of the options. -/
def plainOptions : Options ℚ := ⟨handleArgs exactTime none none, false, false⟩

/-- A record of 512-byte sectors, on device 1. -/
def recordOf (action : UInt32) (time sector : UInt64) (sectors : UInt32) : BlkIoTrace :=
  { queuedAt time with action := action, sector := sector, bytes := sectors * 512 }

theorem lifeCycle_of_wellQueued_two : ∃ s, LifeCycle exactTime plainOptions
    [recordOf 0x00100001 5 8 2, recordOf 0x00800008 9 8 2] s := by
  have hrun : (State.addTraces listBalancer plainOptions exactTime {}
      [recordOf 0x00100001 5 8 2, recordOf 0x00800008 9 8 2]).isSome = true := by decide
  obtain ⟨s, hs⟩ := Option.isSome_iff_exists.mp hrun
  refine ⟨s, lifeCycle_of_wellQueued listBalancer exactTime plainOptions _ s ?_ ?_ hs⟩
  · intro n q hq haccepted
    match n with
    | 0 =>
      obtain rfl := Option.some.inj hq
      refine ⟨by decide, fun p hp => ?_⟩
      exact absurd hp.lt (Nat.not_lt_zero _)
    | 1 =>
      obtain rfl := Option.some.inj hq
      exact absurd haccepted.2.1 (by decide)
  · intro t ht _
    simp only [List.mem_cons, List.not_mem_nil, or_false] at ht
    rcases ht with rfl | rfl <;> decide

/-- A request that reaches behind the last sector stays in the tree when it is completed. -/
theorem not_lifeCycle : ¬ ∀ (ts : List BlkIoTrace) (s : State), WellQueued exactTime plainOptions ts →
    State.addTraces listBalancer plainOptions exactTime {} ts = some s →
    LifeCycle exactTime plainOptions ts s := by
  intro hall
  let ts := [recordOf 0x00100001 1 8 1, recordOf 0x00100001 2 0xffffffffffffffff 2,
    recordOf 0x00800008 3 0xffffffffffffffff 2]
  have hstays : ((State.addTraces listBalancer plainOptions exactTime {} ts).map fun s =>
      decide (⟨1, recordOf 0x00100001 2 0xffffffffffffffff 2⟩ ∈ ((s.dip 1).heads .q).toList)) =
        some true := by decide
  obtain ⟨s, hs, hmem⟩ := Option.map_eq_some_iff.mp hstays
  have hlife := hall ts s ?_ hs
  · have hpending := ((hlife.queued 1 _).mp (of_decide_eq_true hmem)).1
    refine hpending.waits ⟨2, recordOf 0x00800008 3 0xffffffffffffffff 2⟩ (by decide) rfl ?_
    decide
  · intro n q hq haccepted
    match n with
    | 0 =>
      obtain rfl := Option.some.inj hq
      exact ⟨by decide, fun p hp => absurd hp.lt (Nat.not_lt_zero _)⟩
    | 1 =>
      obtain rfl := Option.some.inj hq
      refine ⟨by decide, fun p hp _ => ?_⟩
      have hid : p.id = 0 := Nat.lt_one_iff.mp hp.lt
      have hrecord := hp.record
      rw [hid] at hrecord
      obtain hp := Option.some.inj hrecord
      rw [← hp]
      decide
    | 2 =>
      obtain rfl := Option.some.inj hq
      exact absurd haccepted.2.1 (by decide)

end Blktrace.Btt
