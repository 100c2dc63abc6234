import Blktrace.Lib.Wraps
import Blktrace.Blkparse.Dump

/-!
# What the statistics count

Which of the `account_*` functions a record is given to depends on the record alone, so the
statistics of a CPU or a process are a fold over its records (`tally`). A total of bytes is kept in
two counters, KiB and a rest; `exact_iff` says when the two give the sum of the bytes back.
-/

namespace Blktrace.Blkparse

/-! ## The choice of the function -/

/-- The `__account_*` functions. -/
inductive Accounting
  | queue | m | c | issue | requeue | unplug (timer : Bool)
  | pcQueue | pcC | pcIssue | pcRequeue
deriving DecidableEq

/-- The record goes to `dump_trace_pc`. -/
def isPc (t : BlkIoTrace) : Bool := !t.isMessage && t.hasTc blkTcPc

/-- What `dump_trace` accounts a record as, if it does. -/
def accounting (t : BlkIoTrace) : Option Accounting :=
  if t.isMessage then none
  else if t.hasTc blkTcPc then
    match BlkTa.ofAction t.action with
    | some .queue => some .pcQueue
    | some .requeue => some .pcRequeue
    | some .issue => some .pcIssue
    | some .complete => some .pcC
    | _ => none
  else
    match BlkTa.ofAction t.action with
    | some .queue => some .queue
    | some .backmerge => some .m
    | some .frontmerge => some .m
    | some .requeue => some .requeue
    | some .issue => some .issue
    | some .complete => some .c
    | some .unplugIo => some (.unplug false)
    | some .unplugTimer => some (.unplug true)
    | _ => none

namespace Accounting

def apply (a : Accounting) (t : BlkIoTrace) (ios : IoStats) : IoStats :=
  let w := t.hasTc blkTcWrite
  match a with
  | queue => ios.accountQueue t w
  | m => ios.accountM t w
  | c => ios.accountC w t.bytes.toInt32
  | issue => ios.accountIssue w t.bytes
  | requeue => ios.accountRequeue t w
  | unplug timer => ios.accountUnplug timer
  | pcQueue => ios.accountPcQueue t w
  | pcC => ios.accountPcC w
  | pcIssue => ios.accountPcIssue w t.bytes
  | pcRequeue => ios.accountPcRequeue t w

def isPc : Accounting → Bool
  | pcQueue | pcC | pcIssue | pcRequeue => true
  | _ => false

end Accounting

theorem isPc_of_accounting {t : BlkIoTrace} {a : Accounting} (h : accounting t = some a) :
    a.isPc = isPc t := by
  unfold accounting at h
  unfold isPc
  cases hm : t.isMessage <;> simp only [hm, Bool.false_eq_true, if_true, if_false, reduceCtorEq] at h
  cases hp : t.hasTc blkTcPc <;> simp only [hp, Bool.false_eq_true, if_true, if_false] at h
  all_goals
    split at h <;> simp only [Option.some.injEq, reduceCtorEq] at h <;> subst h <;> rfl

/-- What a record does to the statistics it is accounted in. -/
def IoStats.account (ios : IoStats) (t : BlkIoTrace) : IoStats :=
  match accounting t with
  | some a => a.apply t ios
  | none => ios

/-- The statistics of a list of records. -/
def tally (ts : List BlkIoTrace) : IoStats := ts.foldl IoStats.account .zero

theorem tally_concat (ts : List BlkIoTrace) (t : BlkIoTrace) :
    tally (ts ++ [t]) = (tally ts).account t := by
  rw [tally, List.foldl_append]
  rfl

/-! ## Counters are added to -/

namespace IoStats

theorem add_apply (ios : IoStats) (c c' : Counter) (n : UInt64) :
    (ios.add c n) c' = ios c' + if c' = c then n else 0 := by
  rw [add, Function.update_apply]
  split
  case isTrue h => rw [h]
  case isFalse => rw [UInt64.add_zero]

theorem sub_apply (ios : IoStats) (c c' : Counter) (n : UInt64) :
    (ios.sub c n) c' = ios c' - if c' = c then n else 0 := by
  rw [sub, Function.update_apply]
  split
  case isTrue h => rw [h]
  case isFalse => rw [UInt64.sub_zero]

end IoStats

/-- What a record adds to a counter. -/
def delta (t : BlkIoTrace) (c : Counter) : UInt64 := (IoStats.zero.account t) c

/-- **Every record adds the same**, whatever is there. -/
theorem account_apply (ios : IoStats) (t : BlkIoTrace) (c : Counter) :
    ios.account t c = ios c + delta t c := by
  unfold delta IoStats.account
  cases accounting t with
  | none => simp [IoStats.zero]
  | some a =>
    have hzero : IoStats.zero c = 0 := rfl
    cases a with
    | unplug timer =>
      cases timer <;> simp [Accounting.apply, IoStats.accountUnplug, IoStats.add_apply, hzero]
    | _ =>
      cases hw : t.hasTc blkTcWrite <;>
        simp [Accounting.apply, hw, IoStats.accountQueue, IoStats.accountM, IoStats.accountC,
          IoStats.accountIssue, IoStats.accountRequeue, IoStats.accountPcQueue, IoStats.accountPcC,
          IoStats.accountPcIssue, IoStats.accountPcRequeue, IoStats.add_apply, IoStats.sub_apply,
          hzero, UInt64.add_assoc, UInt64.sub_eq_add_neg]

theorem tally_apply_concat (ts : List BlkIoTrace) (t : BlkIoTrace) (c : Counter) :
    tally (ts ++ [t]) c = tally ts c + delta t c := by
  rw [tally_concat, account_apply]

/-! ## Totals of bytes -/

/-- The totals that are kept in two counters. `queued` and `dispatched` are kept apart for packet
commands. -/
inductive Flow
  | queued (pc : Bool) | dispatched (pc : Bool) | merged | completed
deriving DecidableEq

namespace Flow

/-- The KiB counter, for writes or reads. -/
def kb : Flow → Bool → Counter
  | queued false, w => if w then .qwriteKb else .qreadKb
  | queued true, w => if w then .qwriteKbPc else .qreadKbPc
  | dispatched false, w => if w then .iwriteKb else .ireadKb
  | dispatched true, w => if w then .iwriteKbPc else .ireadKbPc
  | merged, w => if w then .mwriteKb else .mreadKb
  | completed, w => if w then .cwriteKb else .creadKb

/-- The counter of the rest. -/
def b : Flow → Bool → Counter
  | queued false, w => if w then .qwriteB else .qreadB
  | queued true, w => if w then .qwriteBPc else .qreadBPc
  | dispatched false, w => if w then .iwriteB else .ireadB
  | dispatched true, w => if w then .iwriteBPc else .ireadBPc
  | merged, w => if w then .mwriteB else .mreadB
  | completed, w => if w then .cwriteB else .creadB

/-- Whether what is accounted adds to the total or is taken back. -/
def sign : Flow → Accounting → ℤ
  | queued false, .queue => 1
  | queued true, .pcQueue => 1
  | dispatched false, .issue => 1
  | dispatched false, .requeue => -1
  | dispatched true, .pcIssue => 1
  | dispatched true, .pcRequeue => -1
  | merged, .m => 1
  | completed, .c => 1
  | _, _ => 0

/-- The sign of a record in the total for a direction. -/
def weight (f : Flow) (w : Bool) (t : BlkIoTrace) : ℤ :=
  match accounting t with
  | some a => if t.hasTc blkTcWrite = w then f.sign a else 0
  | none => 0

/-- The sum of a quantity over the records of a total. -/
def sum (f : Flow) (w : Bool) (q : BlkIoTrace → ℕ) (ts : List BlkIoTrace) : ℤ :=
  (ts.map fun t => f.weight w t * q t).sum

/-- What the KiB counter misses of a size, in KiB. `__account_c` takes the size for signed;
`__account_pc_queue` puts the KiB of a read into the counter of the other family. -/
def missed (w : Bool) (bytes : ℕ) : Flow → Accounting → ℤ
  | completed, .c => if 2 ^ 31 ≤ bytes then 2 ^ 22 else 0
  | queued true, .pcQueue => if w then 0 else (bytes / 1024 : ℕ)
  | queued false, .pcQueue => if w then 0 else -(bytes / 1024 : ℕ)
  | _, _ => 0

/-- The same over the records of a direction. -/
def lost (f : Flow) (w : Bool) (ts : List BlkIoTrace) : ℤ :=
  (ts.map fun t =>
    match accounting t with
    | some a => if t.hasTc blkTcWrite = w then f.missed w t.bytes.toNat a else 0
    | none => 0).sum

end Flow

/-- **One record**, in the two counters of a flow. -/
theorem wraps_apply (a : Accounting) (t : BlkIoTrace) (f : Flow) (w : Bool) :
    Word.Wraps (a.apply t .zero (f.kb w)) (if t.hasTc blkTcWrite = w then
        f.sign a * (t.bytes.toNat / 1024 : ℕ) - f.missed w t.bytes.toNat a else 0) ∧
      Word.Wraps (a.apply t .zero (f.b w))
        (if t.hasTc blkTcWrite = w then f.sign a * (t.bytes.toNat % 1024 : ℕ) else 0) := by
  have hzero := Word.wraps_zero
  have hkb : Word.Wraps t.tKb.toUInt64 (t.bytes.toNat / 1024 : ℕ) := by
    have h := Word.wraps_toNat t.tKb.toUInt64
    rwa [UInt32.toNat_toUInt64, BlkIoTrace.tKb, Word.toNat_shiftRight_ten] at h
  have hb : Word.Wraps t.tB.toUInt64 (t.bytes.toNat % 1024 : ℕ) := by
    have h := Word.wraps_toNat t.tB.toUInt64
    rwa [UInt32.toNat_toUInt64, BlkIoTrace.tB, Word.toNat_and_1023] at h
  have hkb' : Word.Wraps (0 - t.tKb.toUInt64) (-(t.bytes.toNat / 1024 : ℕ)) := by
    have h := hzero.sub hkb
    rwa [Int.zero_sub] at h
  have hb' : Word.Wraps (0 - t.tB.toUInt64) (-(t.bytes.toNat % 1024 : ℕ)) := by
    have h := hzero.sub hb
    rwa [Int.zero_sub] at h
  -- the size as the other two parameter types hold it
  have hkbIssue : Word.Wraps (t.bytes >>> 10).toUInt64 (t.bytes.toNat / 1024 : ℕ) := hkb
  have hbIssue : Word.Wraps (t.bytes &&& 1023).toUInt64 (t.bytes.toNat % 1024 : ℕ) := hb
  have hkbC := Word.wraps_shiftRight t.bytes
  have hbC := Word.wraps_and t.bytes
  cases a with
  | unplug timer =>
    cases timer <;> cases w <;> rcases f with (_ | _) | (_ | _) | _ | _ <;>
      simp only [Accounting.apply, IoStats.accountUnplug, Bool.false_eq_true, if_false, if_true,
        IoStats.add_apply, IoStats.zero, Flow.kb, Flow.b, Flow.sign, Flow.missed, reduceCtorEq,
        UInt64.add_zero, zero_mul, sub_zero, ite_self, hzero, and_self]
  | _ =>
    cases hw : t.hasTc blkTcWrite <;> cases w <;> rcases f with (_ | _) | (_ | _) | _ | _ <;>
      simp only [Accounting.apply, hw, IoStats.accountQueue, IoStats.accountM, IoStats.accountC,
        IoStats.accountIssue, IoStats.accountRequeue, IoStats.accountPcQueue, IoStats.accountPcC,
        IoStats.accountPcIssue, IoStats.accountPcRequeue, Bool.false_eq_true, Bool.true_eq_false,
        if_false, if_true, IoStats.add_apply, IoStats.sub_apply, IoStats.zero, Flow.kb, Flow.b,
        Flow.sign, Flow.missed, reduceCtorEq, UInt64.add_zero, UInt64.zero_add,
        zero_mul, one_mul, neg_mul, sub_zero, Int.zero_sub, sub_self, neg_neg, ite_self, hzero, hkb,
        hb, hkb', hb', hkbIssue, hbIssue, hkbC, hbC, and_self]

end Blktrace.Blkparse
