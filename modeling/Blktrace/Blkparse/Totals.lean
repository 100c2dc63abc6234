import Mathlib.Data.List.Infix
import Blktrace.Blkparse.Charges

/-!
# Totals of bytes

What the two counters of a total come to over any list of records, and when they are the sum of the
bytes: for the CPUs and the processes of a run of `dump_trace`.
-/

namespace Blktrace.Blkparse

namespace Flow

variable (f : Flow) (w : Bool)

/-- A total of packet commands. -/
def ofPc : Flow → Bool
  | queued pc | dispatched pc => pc
  | merged | completed => false

/-- The events of a total: `Q`; `M` and `F`; `C`; and `D`, less `R`. -/
def share : Flow → BlkTa → ℤ
  | queued _, .queue => 1
  | merged, .backmerge | merged, .frontmerge => 1
  | completed, .complete => 1
  | dispatched _, .issue => 1
  | dispatched _, .requeue => -1
  | _, _ => 0

/-- The bytes of the records of a total, for a direction. -/
def total (ts : List BlkIoTrace) : ℤ :=
  (ts.map fun t =>
    if t.isMessage = false ∧ isPc t = f.ofPc ∧ t.hasTc blkTcWrite = w then
      (((BlkTa.ofAction t.action).map f.share).getD 0) * t.bytes.toNat
    else 0).sum

/-- The KiB, the rest, and the bytes of a record. -/
def kbOf (t : BlkIoTrace) : ℕ := t.bytes.toNat / 1024

def bOf (t : BlkIoTrace) : ℕ := t.bytes.toNat % 1024

def bytesOf (t : BlkIoTrace) : ℕ := t.bytes.toNat

theorem sum_concat (q : BlkIoTrace → ℕ) (ts : List BlkIoTrace) (t : BlkIoTrace) :
    f.sum w q (ts ++ [t]) = f.sum w q ts + f.weight w t * q t := by
  simp [sum]

/-- What the KiB counter misses of a record. -/
def missedOf (t : BlkIoTrace) : ℤ :=
  match accounting t with
  | some a => if t.hasTc blkTcWrite = w then f.missed w t.bytes.toNat a else 0
  | none => 0

theorem lost_concat (ts : List BlkIoTrace) (t : BlkIoTrace) :
    f.lost w (ts ++ [t]) = f.lost w ts + f.missedOf w t := by
  simp only [lost, List.map_append, List.sum_append, List.map_singleton, List.sum_singleton]
  rfl

/-- One record, in the two counters of a flow. -/
theorem wraps_delta (t : BlkIoTrace) :
    Word.Wraps (delta t (f.kb w)) (f.weight w t * kbOf t - f.missedOf w t) ∧
      Word.Wraps (delta t (f.b w)) (f.weight w t * bOf t) := by
  unfold delta IoStats.account weight missedOf
  cases accounting t with
  | none => simp [IoStats.zero, Word.wraps_zero]
  | some a =>
    have h := wraps_apply a t f w
    dsimp only
    split_ifs at h ⊢ with hw
    · exact h
    · simpa using h

/-- **A list of records**, in the two counters of a flow. -/
theorem wraps_tally (ts : List BlkIoTrace) :
    Word.Wraps (tally ts (f.kb w)) (f.sum w kbOf ts - f.lost w ts) ∧
      Word.Wraps (tally ts (f.b w)) (f.sum w bOf ts) := by
  induction ts using List.reverseRecOn with
  | nil => exact ⟨Word.wraps_zero, Word.wraps_zero⟩
  | append_singleton ts t ih =>
    obtain ⟨hkb, hb⟩ := f.wraps_delta w t
    rw [tally_apply_concat, tally_apply_concat, sum_concat, sum_concat, lost_concat]
    refine ⟨?_, ih.2.add hb⟩
    have h := ih.1.add hkb
    rwa [show f.sum w kbOf ts - f.lost w ts + (f.weight w t * kbOf t - f.missedOf w t) =
      f.sum w kbOf ts + f.weight w t * kbOf t - (f.lost w ts + f.missedOf w t) by ring] at h

theorem sum_bytes (ts : List BlkIoTrace) :
    f.sum w bytesOf ts = 1024 * f.sum w kbOf ts + f.sum w bOf ts := by
  induction ts using List.reverseRecOn with
  | nil => rfl
  | append_singleton ts t ih =>
    have hsplit : (bytesOf t : ℤ) = 1024 * kbOf t + bOf t := by
      unfold bytesOf kbOf bOf
      omega
    rw [sum_concat, sum_concat, sum_concat, ih, hsplit]
    ring

/-- What is accounted is what there is to account. -/
theorem total_eq (ts : List BlkIoTrace) : f.total w ts = f.sum w bytesOf ts := by
  unfold total sum
  congr 1
  apply List.map_congr_left
  intro t _
  unfold weight accounting isPc bytesOf
  cases hm : t.isMessage with
  | true => simp
  | false =>
    cases hp : t.hasTc blkTcPc <;> cases BlkTa.ofAction t.action with
    | none => cases f <;> simp
    | some a => rcases f with (_ | _) | (_ | _) | _ | _ <;> cases a <;> simp [ofPc, share, sign]

/-- What the KiB counter has missed, and what the two counters have wrapped over, cancel. -/
def NothingLost (ts : List BlkIoTrace) : Prop :=
  1024 * f.lost w ts + 2 ^ 64 *
    (1024 * ((f.sum w kbOf ts - f.lost w ts) / 2 ^ 64) + f.sum w bOf ts / 2 ^ 64) = 0

/-- The two counters come to the bytes. -/
def Exact (ios : IoStats) (ts : List BlkIoTrace) : Prop :=
  (1024 * (ios (f.kb w)).toNat + (ios (f.b w)).toNat : ℤ) = f.total w ts

instance (ios : IoStats) (ts : List BlkIoTrace) : Decidable (f.Exact w ios ts) :=
  inferInstanceAs (Decidable (_ = _))

theorem exact_iff (ts : List BlkIoTrace) : f.Exact w (tally ts) ts ↔ f.NothingLost w ts := by
  obtain ⟨hkb, hb⟩ := f.wraps_tally w ts
  rw [Exact, total_eq, sum_bytes]
  exact hkb.split_iff hb

/-- The sum does not go below 0 on the way. -/
def NeverNegative (ts : List BlkIoTrace) : Prop := ∀ pre, pre <+: ts → 0 ≤ f.total w pre

end Flow

/-! ## The file system -/

/-- The totals of the file system. -/
def fsFlows : List Flow := [.queued false, .merged, .completed, .dispatched false]

/-- For each total and direction; what is dispatched is only looked at where it does not go below 0. -/
def EachFs (P : Flow → Bool → Prop) (ts : List BlkIoTrace) : Prop :=
  ∀ f ∈ fsFlows, ∀ w, (f = .dispatched false → f.NeverNegative w ts) → P f w

/-- A record of a file system with a size. -/
def sizedRecord (action bytes : UInt32) : BlkIoTrace :=
  { queueRecord 0x800000 0 1 0 with action := 0x01010000 ||| action, bytes := bytes }

/-- Half a KiB of a KiB that was dispatched is requeued. -/
def requeued : List Event :=
  [.dump 0 0x800000 0 (sizedRecord 7 1024), .dump 0 0x800000 0 (sizedRecord 6 512)]

/-- The counters of packet commands. -/
def Counter.ofPc : Counter → Bool
  | qreadsPc | qwritesPc | ireadsPc | iwritesPc | rrqueuePc | wrqueuePc | creadsPc | cwritesPc
  | qreadKbPc | qwriteKbPc | ireadKbPc | iwriteKbPc | qreadBPc | qwriteBPc | ireadBPc | iwriteBPc =>
    true
  | _ => false

/-- The KiB of the reads that packet commands queue: they are added to `qread_kb`. -/
def crossed (ts : List BlkIoTrace) : ℕ :=
  (ts.map fun t => if accounting t = some .pcQueue ∧ t.hasTc blkTcWrite = false then Flow.kbOf t
    else 0).sum

/-- A record changes the counters of its own family, but for one. -/
theorem delta_other {t : BlkIoTrace} {c : Counter} (hc : c.ofPc ≠ isPc t) :
    delta t c = if c = .qreadKb ∧ accounting t = some .pcQueue ∧ t.hasTc blkTcWrite = false then
      t.tKb.toUInt64 else 0 := by
  unfold delta IoStats.account
  cases hacc : accounting t with
  | none => simp [IoStats.zero]
  | some a =>
    rw [← isPc_of_accounting hacc] at hc
    cases a with
    | unplug timer =>
      cases timer <;> cases c <;>
        simp [Accounting.apply, IoStats.accountUnplug, IoStats.add_apply, IoStats.zero] <;>
        exact absurd rfl hc
    | _ =>
      cases hw : t.hasTc blkTcWrite <;> cases c <;> first
        | exact absurd rfl hc
        | simp [Accounting.apply, hw, IoStats.accountQueue, IoStats.accountM, IoStats.accountC,
            IoStats.accountIssue, IoStats.accountRequeue, IoStats.accountPcQueue, IoStats.accountPcC,
            IoStats.accountPcIssue, IoStats.accountPcRequeue, IoStats.add_apply, IoStats.sub_apply,
            IoStats.zero]

/-- The records of the file system, in its own counters. -/
theorem tally_fs {c : Counter} (hc : c.ofPc = false) (ts : List BlkIoTrace) :
    tally ts c = tally (ts.filter fun t => !isPc t) c +
      if c = .qreadKb then UInt64.ofNat (crossed ts) else 0 := by
  induction ts using List.reverseRecOn with
  | nil => simp [tally, IoStats.zero, crossed]
  | append_singleton ts t ih =>
    have hcrossed : crossed (ts ++ [t]) = crossed ts +
        if accounting t = some .pcQueue ∧ t.hasTc blkTcWrite = false then Flow.kbOf t else 0 := by
      simp [crossed]
    rw [tally_apply_concat, List.filter_append, hcrossed, ih]
    cases hpc : isPc t with
    | true =>
      have hkb : t.tKb.toUInt64 = UInt64.ofNat (Flow.kbOf t) := by
        apply UInt64.toNat_inj.mp
        have hlt := t.bytes.toNat_lt
        rw [UInt32.toNat_toUInt64, BlkIoTrace.tKb, Word.toNat_shiftRight_ten, UInt64.toNat_ofNat']
        unfold Flow.kbOf
        omega
      rw [delta_other (by simp [hc, hpc]), List.filter_cons_of_neg (by simp [hpc]), List.filter_nil,
        List.append_nil, UInt64.add_assoc]
      congr 1
      by_cases hq : c = .qreadKb
      · simp only [hq, if_true, true_and]
        rw [UInt64.ofNat_add, hkb]
        split_ifs
        · rfl
        · simp
      · simp [hq]
    | false =>
      have hnot : ¬ (accounting t = some .pcQueue ∧ t.hasTc blkTcWrite = false) := by
        rintro ⟨hacc, -⟩
        have h := isPc_of_accounting hacc
        rw [hpc] at h
        cases h
      rw [if_neg hnot, Nat.add_zero, List.filter_cons_of_pos (by simp [hpc]), List.filter_nil,
        tally_apply_concat, UInt64.add_assoc, UInt64.add_assoc, UInt64.add_comm (delta t c)]

/-- The packet commands, in theirs. -/
theorem tally_pc {c : Counter} (hc : c.ofPc = true) (ts : List BlkIoTrace) :
    tally ts c = tally (ts.filter isPc) c := by
  induction ts using List.reverseRecOn with
  | nil => rfl
  | append_singleton ts t ih =>
    rw [tally_apply_concat, List.filter_append, ih]
    cases hpc : isPc t with
    | true => rw [List.filter_cons_of_pos hpc, List.filter_nil, tally_apply_concat]
    | false =>
      have hq : c ≠ .qreadKb := by
        rintro rfl
        cases hc
      rw [delta_other (by simp [hc, hpc]), if_neg fun h => hq h.1,
        List.filter_cons_of_neg (by simp [hpc]), List.filter_nil, List.append_nil, UInt64.add_zero]

/-- The totals of packet commands. -/
def pcFlows : List Flow := [.queued true, .dispatched true]

/-- Two statistics, of the file system alone and of the packet commands alone, and the totals. -/
structure Apart (ios fs pc : IoStats) (ts : List BlkIoTrace) : Prop where
  fs : ∀ c, c.ofPc = false → ios c = fs c
  pc : ∀ c, c.ofPc = true → ios c = pc c
  exact : ∀ f ∈ pcFlows, ∀ w, f.Exact w ios ts

/-- No read that a packet command queued counts for `qread_kb`, and the totals are kept. -/
structure Uncrossed (ts : List BlkIoTrace) : Prop where
  crossed : crossed ts % 2 ^ 64 = 0
  exact : ∀ f ∈ pcFlows, ∀ w, f.NothingLost w ts

theorem apart_iff (ts : List BlkIoTrace) :
    Apart (tally ts) (tally (ts.filter fun t => !isPc t)) (tally (ts.filter isPc)) ts ↔
      Uncrossed ts := by
  have hexact : (∀ f ∈ pcFlows, ∀ w, f.Exact w (tally ts) ts) ↔ ∀ f ∈ pcFlows, ∀ w, f.NothingLost w ts :=
    forall₃_congr fun f _ w => f.exact_iff w ts
  have hzero : UInt64.ofNat (crossed ts) = 0 ↔ crossed ts % 2 ^ 64 = 0 := by
    rw [← UInt64.toNat_inj, UInt64.toNat_ofNat']
    rfl
  constructor
  · intro h
    refine ⟨hzero.mp ?_, hexact.mp h.exact⟩
    have hq := h.fs .qreadKb rfl
    rw [tally_fs rfl, if_pos rfl] at hq
    exact UInt64.add_eq_left.mp hq
  · intro h
    refine ⟨fun c hc => ?_, fun c hc => tally_pc hc ts, hexact.mpr h.exact⟩
    rw [tally_fs hc, hzero.mpr h.crossed, ite_self, UInt64.add_zero]

/-- The events without the packet commands, and without those of the file system. -/
def onlyFs (events : List Event) : List Event :=
  events.filter fun
    | .dump _ _ _ t => !isPc t
    | .notify _ _ => true

def onlyPc (events : List Event) : List Event :=
  events.filter fun
    | .dump _ _ _ t => isPc t
    | .notify _ _ => true

theorem dumpedOn_filter (pdi : Nat) (cpu : UInt32) (keep : Event → Bool) (q : BlkIoTrace → Bool)
    (hkeep : ∀ pdi dev cpu t, keep (.dump pdi dev cpu t) = q t) (events : List Event) :
    Dumper.dumpedOn pdi cpu (events.filter keep) = (Dumper.dumpedOn pdi cpu events).filter q := by
  unfold Dumper.dumpedOn
  rw [List.filterMap_filter, List.filter_filterMap]
  apply List.filterMap_congr
  intro e _
  cases e with
  | notify native bit => split_ifs <;> rfl
  | dump pdi' dev cpu' t =>
    rw [hkeep]
    by_cases hon : pdi' = pdi ∧ cpu' = cpu
    · cases hq : q t <;> simp [hon, hq, Option.filter]
    · cases hq : q t <;> simp [hon]

end Blktrace.Blkparse
