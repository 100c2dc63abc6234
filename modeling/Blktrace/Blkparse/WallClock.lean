import Blktrace.Blkparse.Stopwatch

/-!
# The wall clock of a record

`print_time` adds a record's relative time to `abs_start_time`, which is the wall clock of the
`TIMESTAMP` record, moved by `find_genesis` to that of the origin. Moving it back does not work:
the difference is taken as an unsigned number. And only pipe mode moves it (`wallClock`).
-/

namespace Blktrace.Blkparse

/-! ## A time as seconds and nanoseconds -/

/-- `sec` and `nsec` stand for `v` nanoseconds, with nothing to carry. -/
def Denotes (p : Int64 × UInt64) (v : ℤ) : Prop :=
  p.2.toNat < 1000000000 ∧ p.1.toInt * 1000000000 + p.2.toNat = v

/-- `abs_start_time` in nanoseconds. -/
def Clock.wall (c : Clock) : ℤ := c.tvSec.toInt * 1000000000 + c.tvNsec.toInt

/-- A clock whose seconds are below a bound. `find_genesis` may leave a full second of
nanoseconds: its test is `> 1000000000`. -/
structure Clock.Within (c : Clock) (bound : ℤ) : Prop where
  sec : 0 ≤ c.tvSec.toInt ∧ c.tvSec.toInt < bound
  nsec : 0 ≤ c.tvNsec.toInt ∧ c.tvNsec.toInt ≤ 1000000000

theorem toNat_seconds (x : UInt64) : (seconds x).toNat = x.toNat / 1000000000 := by
  rw [seconds, UInt64.toNat_div]
  rfl

theorem toNat_nanoSeconds (x : UInt64) : (nanoSeconds x).toNat = x.toNat % 1000000000 := by
  rw [nanoSeconds, UInt64.toNat_mod]
  rfl

theorem toInt_seconds (x : UInt64) : (seconds x).toInt64.toInt = x.toNat / 1000000000 := by
  have hx := x.toNat_lt
  rw [Word.toInt_toInt64 (by rw [toNat_seconds]; omega), toNat_seconds]
  rfl

theorem toInt_nanoSeconds (x : UInt64) : (nanoSeconds x).toInt64.toInt = x.toNat % 1000000000 := by
  rw [Word.toInt_toInt64 (by rw [toNat_nanoSeconds]; omega), toNat_nanoSeconds]
  rfl

/-- **`print_time`** carries once, which is enough. -/
theorem printTime_denotes {c : Clock} (h : c.Within (2 ^ 40)) (t : UInt64) (v : ℤ) :
    Denotes (printTime c t) v ↔ v = c.wall + t.toNat := by
  obtain ⟨⟨hs0, hs1⟩, hn0, hn1⟩ := h
  have ht := t.toNat_lt
  have hsec : (c.tvSec + (seconds t).toInt64).toInt = c.tvSec.toInt + t.toNat / 1000000000 := by
    rw [Word.toInt_add] <;> rw [toInt_seconds] <;> omega
  have hnsec : ((c.tvNsec.toUInt64 + nanoSeconds t).toNat : ℤ)
      = c.tvNsec.toInt + t.toNat % 1000000000 := by
    have hn := Word.toNat_toUInt64 hn0
    rw [UInt64.toNat_add, toNat_nanoSeconds]
    omega
  have hbillion : (1000000000 : UInt64).toNat = 1000000000 := by decide
  have hone : (1 : Int64).toInt = 1 := by decide
  rw [Clock.wall, printTime]
  split
  case isTrue hcarry =>
    have hnext : (c.tvSec + (seconds t).toInt64 + 1).toInt
        = c.tvSec.toInt + t.toNat / 1000000000 + 1 := by
      rw [Word.toInt_add] <;> rw [hsec, hone] <;> omega
    have hrest := Word.toNat_sub_of_le hcarry
    rw [UInt64.le_iff_toNat_le] at hcarry
    rw [Denotes]
    dsimp only
    omega
  case isFalse hcarry =>
    rw [UInt64.le_iff_toNat_le] at hcarry
    rw [Denotes]
    dsimp only
    omega

/-- **`find_genesis`** moves the clock by the difference as an unsigned number. -/
theorem findGenesis_wall {c : Clock} (h : c.Within (2 ^ 32)) (hn : c.tvNsec.toInt < 1000000000)
    (genesis : UInt64) :
    (c.findGenesis genesis).Within (2 ^ 40) ∧ (c.findGenesis genesis).wall = c.wall +
      if c.startTimestamp ≠ 0 ∧ c.startTimestamp ≠ genesis
      then ((genesis - c.startTimestamp).toNat : ℤ) else 0 := by
  obtain ⟨⟨hs0, hs1⟩, hn0, hn1⟩ := h
  rw [Clock.findGenesis]
  split
  case isFalse => exact ⟨⟨⟨hs0, by omega⟩, hn0, hn1⟩, (Int.add_zero _).symm⟩
  case isTrue =>
    generalize genesis - c.startTimestamp = delta
    have hd := delta.toNat_lt
    have hsec : (c.tvSec + (seconds delta).toInt64).toInt
        = c.tvSec.toInt + delta.toNat / 1000000000 := by
      rw [Word.toInt_add] <;> rw [toInt_seconds] <;> omega
    have hnsec : (c.tvNsec + (nanoSeconds delta).toInt64).toInt
        = c.tvNsec.toInt + delta.toNat % 1000000000 := by
      rw [Word.toInt_add] <;> rw [toInt_nanoSeconds] <;> omega
    have hbillion : (1000000000 : Int64).toInt = 1000000000 := by decide
    have hone : (1 : Int64).toInt = 1 := by decide
    have hzero : (0 : Int64).toInt = 0 := by decide
    have hneg : ¬ c.tvNsec + (nanoSeconds delta).toInt64 < 0 := by
      rw [Int64.lt_iff_toInt_lt, hnsec, hzero]
      omega
    dsimp only
    rw [if_neg hneg]
    split
    case isTrue hcarry =>
      have hnext : (c.tvSec + (seconds delta).toInt64 + 1).toInt
          = c.tvSec.toInt + delta.toNat / 1000000000 + 1 := by
        rw [Word.toInt_add] <;> rw [hsec, hone] <;> omega
      have hrest : (c.tvNsec + (nanoSeconds delta).toInt64 - 1000000000).toInt
          = c.tvNsec.toInt + delta.toNat % 1000000000 - 1000000000 := by
        rw [Word.toInt_sub] <;> rw [hnsec, hbillion] <;> omega
      rw [Int64.lt_iff_toInt_lt, hnsec, hbillion] at hcarry
      refine ⟨⟨?_, ?_⟩, ?_⟩
      · dsimp only
        omega
      · dsimp only
        omega
      · rw [Clock.wall, Clock.wall]
        dsimp only
        omega
    case isFalse hcarry =>
      rw [Int64.lt_iff_toInt_lt, hnsec, hbillion] at hcarry
      refine ⟨⟨?_, ?_⟩, ?_⟩
      · dsimp only
        omega
      · dsimp only
        omega
      · rw [Clock.wall, Clock.wall]
        dsimp only
        omega

/-! ## The clock of one `TIMESTAMP` record -/

/-- The wall clock a `TIMESTAMP` record carries. -/
def stampWall (native : Bool) (ts : BlkIoTrace) : ℤ :=
  (two32 native ts.pdu 0).toNat * 1000000000 + (two32 native ts.pdu 4).toNat

/-- A `TIMESTAMP` record as `blktrace` writes it: two words, the second below 1e9. -/
structure Stamp (native : Bool) (ts : BlkIoTrace) : Prop where
  action : ts.action = blkTnTimestamp
  pduLen : ts.pduLen = 8
  nsec : (two32 native ts.pdu 4).toNat < 1000000000

/-- Whatever the clock was, it is that of the record. -/
theorem Stamp.notify {native : Bool} {ts : BlkIoTrace} (h : Stamp native ts) (c : Clock) :
    c.notify native ts = ({} : Clock).notify native ts := by
  rw [Clock.notify, Clock.notify, if_pos h.action, if_pos h.action, if_neg (not_not.mpr h.pduLen),
    if_neg (not_not.mpr h.pduLen)]

theorem Stamp.wall {native : Bool} {ts : BlkIoTrace} (h : Stamp native ts) :
    (({} : Clock).notify native ts).Within (2 ^ 32) ∧
      (({} : Clock).notify native ts).tvNsec.toInt < 1000000000 ∧
      (({} : Clock).notify native ts).startTimestamp = ts.time ∧
      (({} : Clock).notify native ts).wall = stampWall native ts := by
  have hword : ∀ w : UInt32, w.toUInt64.toInt64.toInt = w.toNat := fun w => by
    have hw := w.toNat_lt
    rw [Word.toInt_toInt64] <;> rw [UInt32.toNat_toUInt64]
    omega
  have hsec := hword (two32 native ts.pdu 0)
  have hnsec := hword (two32 native ts.pdu 4)
  have hlt := (two32 native ts.pdu 0).toNat_lt
  have hn := h.nsec
  have hzero : (0 : Int64).toInt = 0 := by decide
  have hneg : ¬ (two32 native ts.pdu 4).toUInt64.toInt64 < 0 := by
    rw [Int64.lt_iff_toInt_lt, hnsec, hzero]
    omega
  rw [Clock.notify, if_pos h.action, if_neg (not_not.mpr h.pduLen)]
  dsimp only
  rw [if_neg hneg]
  refine ⟨⟨?_, ?_⟩, ?_, rfl, ?_⟩
  · rw [hsec]
    omega
  · rw [hnsec]
    omega
  · rw [hnsec]
    omega
  · rw [Clock.wall, hsec, hnsec]
    rfl

/-- **A clock left at the record** is right for times measured from the record. -/
theorem Stamp.unmoved_iff {native : Bool} {ts : BlkIoTrace} (h : Stamp native ts)
    (genesis time : UInt64) :
    Denotes (printTime (({} : Clock).notify native ts) (time - genesis))
        (stampWall native ts + time.toNat - ts.time.toNat) ↔
      ts.time = genesis ∧ genesis ≤ time := by
  obtain ⟨hwithin, -, -, hwall⟩ := h.wall
  have hg := genesis.toNat_lt
  have ht := time.toNat_lt
  have hs := ts.time.toNat_lt
  rw [printTime_denotes ⟨⟨hwithin.sec.1, lt_trans hwithin.sec.2 (by decide)⟩, hwithin.nsec⟩, hwall,
    UInt64.toNat_sub, ← UInt64.toNat_inj, UInt64.le_iff_toNat_le]
  omega

/-- **A clock moved to the origin** is right for times from there on, unless it was to be moved
back, or the record is of time 0. -/
theorem Stamp.moved_iff {native : Bool} {ts : BlkIoTrace} (h : Stamp native ts)
    (genesis time : UInt64) :
    Denotes (printTime ((({} : Clock).notify native ts).findGenesis genesis) (time - genesis))
        (stampWall native ts + time.toNat - ts.time.toNat) ↔
      (ts.time = genesis ∨ ts.time ≠ 0 ∧ ts.time ≤ genesis) ∧ genesis ≤ time := by
  obtain ⟨hwithin, hnsec, hstart, hwall⟩ := h.wall
  obtain ⟨hwithin', hwall'⟩ := findGenesis_wall hwithin hnsec genesis
  have hg := genesis.toNat_lt
  have ht := time.toNat_lt
  have hs := ts.time.toNat_lt
  rw [printTime_denotes hwithin', hwall', hwall, hstart]
  simp only [ne_eq, ← UInt64.toNat_inj, UInt64.toNat_zero, UInt64.le_iff_toNat_le]
  rw [UInt64.toNat_sub time]
  split
  case isTrue hmoved =>
    rw [UInt64.toNat_sub]
    omega
  case isFalse hmoved => omega

/-! ## Both modes -/

/-- The clock of file mode after some records: `find_genesis` is not called. -/
def fileClock (native : Bool) (bits : List BlkIoTrace) : Clock :=
  bits.foldl (fun c bit => c.notify native bit) {}

/-- The clock of pipe mode: `find_genesis` comes between two records. -/
def pipeClock (native : Bool) (first : List BlkIoTrace) (genesis : UInt64) (rest : List BlkIoTrace) : Clock :=
  rest.foldl (fun c bit => c.notify native bit) ((fileClock native first).findGenesis genesis)

/-- The records of a trace, one of them a `TIMESTAMP`. -/
structure OneStamp (native : Bool) (before : List BlkIoTrace) (ts : BlkIoTrace) (after : List BlkIoTrace) :
    Prop where
  stamp : Stamp native ts
  others : ∀ bit ∈ before ++ after, bit.action ≠ blkTnTimestamp

/-- What is printed for a record is the wall clock of the `TIMESTAMP` record and the time between
the two. -/
def ClockRight (native : Bool) (ts : BlkIoTrace) (c : Clock) (genesis time : UInt64) : Prop :=
  Denotes (printTime c (time - genesis)) (stampWall native ts + time.toNat - ts.time.toNat)

/-- Once the `TIMESTAMP` record is read, its time is the origin, or it is moved there from before it. (When
it is not, all that is printed is the relative time, and that may be the wall clock by chance.) -/
def StampSuits (native : Bool) (ts : BlkIoTrace) (read moved : Prop) [Decidable read] [Decidable moved]
    (genesis time : UInt64) : Prop :=
  if read then (ts.time = genesis ∨ (moved ∧ ts.time ≠ 0 ∧ ts.time ≤ genesis)) ∧ genesis ≤ time
  else stampWall native ts + genesis.toNat = ts.time.toNat + if genesis ≤ time then 0 else 2 ^ 64

instance (native : Bool) (ts : BlkIoTrace) (read moved : Prop) [Decidable read] [Decidable moved]
    (genesis time : UInt64) : Decidable (StampSuits native ts read moved genesis time) :=
  inferInstanceAs (Decidable (if read then _ else _))

section

variable {native : Bool} {ts : BlkIoTrace} {before after : List BlkIoTrace}

theorem notify_of_ne {bit : BlkIoTrace} (h : bit.action ≠ blkTnTimestamp) (c : Clock) :
    c.notify native bit = c := if_neg h

theorem foldl_notify_of_ne {bits : List BlkIoTrace} (h : ∀ bit ∈ bits, bit.action ≠ blkTnTimestamp) (c : Clock) :
    bits.foldl (fun c bit => c.notify native bit) c = c := by
  induction bits generalizing c with
  | nil => rfl
  | cons bit bits ih =>
    obtain ⟨hbit, hbits⟩ := List.forall_mem_cons.mp h
    rw [List.foldl_cons, notify_of_ne hbit, ih hbits]

/-- Of the first records the one `TIMESTAMP` counts, if it is one of them. -/
theorem OneStamp.foldl_take (h : OneStamp native before ts after) (n : ℕ) (c : Clock) :
    ((before ++ ts :: after).take n).foldl (fun c bit => c.notify native bit) c =
      if before.length < n then ({} : Clock).notify native ts else c := by
  have hbefore : ∀ bit ∈ before, bit.action ≠ blkTnTimestamp := fun bit hbit =>
    h.others bit (List.mem_append_left _ hbit)
  have hafter : ∀ bit ∈ after, bit.action ≠ blkTnTimestamp := fun bit hbit =>
    h.others bit (List.mem_append_right _ hbit)
  rw [List.take_append, List.foldl_append]
  split_ifs with hn
  · obtain ⟨k, rfl⟩ := Nat.exists_eq_add_of_lt hn
    rw [List.take_of_length_le (by omega), foldl_notify_of_ne hbefore,
      show before.length + k + 1 - before.length = k + 1 by omega, List.take_succ_cons, List.foldl_cons,
      foldl_notify_of_ne fun bit hbit => hafter bit (List.mem_of_mem_take hbit)]
    exact h.stamp.notify c
  · rw [Nat.sub_eq_zero_of_le (not_lt.mp hn), List.take_zero, List.foldl_nil]
    exact foldl_notify_of_ne (fun bit hbit => hbefore bit (List.mem_of_mem_take hbit)) c

/-- Before the `TIMESTAMP` record. -/
theorem clockRight_unread (native : Bool) (ts : BlkIoTrace) (genesis time : UInt64) :
    ClockRight native ts {} genesis time ↔
      stampWall native ts + genesis.toNat = ts.time.toNat + if genesis ≤ time then 0 else 2 ^ 64 := by
  have hwall : ({} : Clock).wall = 0 := by decide
  have hwithin : ({} : Clock).Within (2 ^ 40) := ⟨by decide, by decide⟩
  have hg := genesis.toNat_lt
  have ht := time.toNat_lt
  rw [ClockRight, printTime_denotes hwithin, hwall, UInt64.toNat_sub]
  split_ifs with hle
  all_goals
    rw [UInt64.le_iff_toNat_le] at hle
    omega

/-- File mode. -/
theorem OneStamp.file_iff (h : OneStamp native before ts after) (n : ℕ) (genesis time : UInt64) :
    ClockRight native ts (fileClock native ((before ++ ts :: after).take n)) genesis time ↔
      StampSuits native ts (before.length < n) False genesis time := by
  rw [fileClock, h.foldl_take, StampSuits]
  by_cases hn : before.length < n
  · rw [if_pos hn, if_pos hn, false_and, or_false]
    exact h.stamp.unmoved_iff genesis time
  · rw [if_neg hn, if_neg hn]
    exact clockRight_unread native ts genesis time

/-- Pipe mode, with `find_genesis` after `m` records. -/
theorem OneStamp.pipe_iff (h : OneStamp native before ts after) (m k : ℕ) (genesis time : UInt64) :
    ClockRight native ts (pipeClock native ((before ++ ts :: after).take m) genesis
        (((before ++ ts :: after).drop m).take k)) genesis time ↔
      StampSuits native ts (before.length < m + k) (before.length < m) genesis time := by
  have hfirst := h.foldl_take m {}
  rw [pipeClock, fileClock, hfirst, StampSuits]
  by_cases hm : before.length < m
  · have hrest : ∀ bit ∈ ((before ++ ts :: after).drop m).take k, bit.action ≠ blkTnTimestamp := by
      intro bit hbit
      obtain ⟨j, rfl⟩ := Nat.exists_eq_add_of_lt hm
      have hdrop : (before ++ ts :: after).drop (before.length + j + 1) = after.drop j := by
        rw [add_assoc, List.drop_append, List.drop_of_length_le (Nat.le_add_right _ _), Nat.add_sub_cancel_left]
        rfl
      rw [hdrop] at hbit
      exact h.others bit (List.mem_append_right _ (List.mem_of_mem_drop (List.mem_of_mem_take hbit)))
    rw [if_pos hm, if_pos (lt_of_lt_of_le hm (Nat.le_add_right m k)), foldl_notify_of_ne hrest]
    simp only [hm, true_and]
    exact h.stamp.moved_iff genesis time
  · have hdrop : (before ++ ts :: after).drop m = before.drop m ++ ts :: after :=
      List.drop_append_of_le_length (not_lt.mp hm)
    have hlater : OneStamp native (before.drop m) ts after := by
      refine ⟨h.stamp, fun bit hbit => h.others bit ?_⟩
      exact (List.mem_append.mp hbit).elim (fun hb => List.mem_append_left _ (List.mem_of_mem_drop hb))
        (List.mem_append_right _)
    have hstart : (({} : Clock).findGenesis genesis) = {} := if_neg fun hset => hset.1 rfl
    have hlength : (before.drop m).length < k ↔ before.length < m + k := by
      rw [List.length_drop]
      omega
    rw [if_neg hm, hstart, hdrop, hlater.foldl_take, if_congr hlength rfl rfl]
    simp only [hm, false_and, or_false]
    by_cases hread : before.length < m + k
    · rw [if_pos hread, if_pos hread]
      exact h.stamp.unmoved_iff genesis time
    · rw [if_neg hread, if_neg hread]
      exact clockRight_unread native ts genesis time

theorem Denotes.unique {p q : Int64 × UInt64} {v : ℤ} (hp : Denotes p v) (hq : Denotes q v) : p = q := by
  obtain ⟨hplt, hpv⟩ := hp
  obtain ⟨hqlt, hqv⟩ := hq
  refine Prod.ext (Int64.toInt_inj.mp ?_) (UInt64.toNat_inj.mp ?_)
  · omega
  · omega

/-- **Wall-clock times**: a record's is right in both modes, and so the same, just if the `TIMESTAMP`
record suits each. -/
theorem wallClock_iff (h : OneStamp native before ts after) (n m k : ℕ) (genesis time : UInt64) :
    (ClockRight native ts (fileClock native ((before ++ ts :: after).take n)) genesis time ∧
      ClockRight native ts (pipeClock native ((before ++ ts :: after).take m) genesis
        (((before ++ ts :: after).drop m).take k)) genesis time ∧
      printTime (fileClock native ((before ++ ts :: after).take n)) (time - genesis) =
        printTime (pipeClock native ((before ++ ts :: after).take m) genesis
          (((before ++ ts :: after).drop m).take k)) (time - genesis)) ↔
      StampSuits native ts (before.length < n) False genesis time ∧
        StampSuits native ts (before.length < m + k) (before.length < m) genesis time := by
  rw [← h.file_iff, ← h.pipe_iff]
  constructor
  · intro hall
    exact ⟨hall.1, hall.2.1⟩
  · rintro ⟨hfile, hpipe⟩
    exact ⟨hfile, hpipe, Denotes.unique hfile hpipe⟩

/-- A `TIMESTAMP` record of time `s` that carries the wall clock 10 s. -/
def stampAt (s : UInt64) : BlkIoTrace :=
  { queueRecord 0 0 1 s with action := blkTnTimestamp, pduLen := 8, pdu := [10, 0, 0, 0, 0, 0, 0, 0] }

theorem stampAt_one (s : UInt64) : OneStamp true [] (stampAt s) [queueRecord 5 0 1 7] := by
  have hnsec : (two32 true [10, 0, 0, 0, 0, 0, 0, 0] 4).toNat < 1000000000 := by decide
  exact ⟨⟨rfl, rfl, hnsec⟩, by decide⟩

/-- A `TIMESTAMP` record of time 3, which is the origin, and a record of time 7. -/
theorem wallClock_iff_three :
    ClockRight true (stampAt 3) (fileClock true [stampAt 3, queueRecord 5 0 1 7]) 3 7 ∧
      ClockRight true (stampAt 3) (pipeClock true [stampAt 3, queueRecord 5 0 1 7] 3 []) 3 7 ∧
      printTime (fileClock true [stampAt 3, queueRecord 5 0 1 7]) (7 - 3) =
        printTime (pipeClock true [stampAt 3, queueRecord 5 0 1 7] 3 []) (7 - 3) :=
  (wallClock_iff (stampAt_one 3) 2 2 0 3 7).mpr ⟨by decide, by decide⟩

/-- A `TIMESTAMP` record of time 1, and 3 the origin: in file mode the clock is 2 ns slow. And one of
time 5, which is after the origin: in pipe mode it is not moved back but a long way on. -/
theorem not_clockRight :
    ¬ ClockRight true (stampAt 1) (fileClock true [stampAt 1, queueRecord 5 0 1 7]) 3 7 ∧
      ¬ ClockRight true (stampAt 5) (pipeClock true [stampAt 5, queueRecord 5 0 1 7] 3 []) 3 7 := by
  constructor
  · exact (not_congr ((stampAt_one 1).file_iff 2 3 7)).mpr (by decide)
  · exact (not_congr ((stampAt_one 5).pipe_iff 2 0 3 7)).mpr (by decide)

end

/-! ## The clock of a run -/

/-- The clock of a state once the records `read` are read: that of pipe mode after `find_genesis`. -/
def ClockKept (native : Bool) (s : PipeState) (read : List BlkIoTrace) : Prop :=
  ∃ first rest, read = first ++ rest ∧ s.clock =
    if s.genesisTime = 0 then fileClock native read else pipeClock native first s.genesisTime rest

theorem ClockKept.read {o : Opts} {native : Bool} {s : PipeState} {read taken : List BlkIoTrace}
    {input : List (Option BlkIoTrace)} (h : ClockKept native s read)
    (ht : Reads o native s 0 input taken (readEvents o input 0 none s)) :
    ClockKept native (readEvents o input 0 none s).1 (read ++ taken) := by
  obtain ⟨first, rest, rfl, hclock⟩ := h
  have hgen := congrArg PipeState.genesisTime (readEvents_frame o input 0 none s).1
  refine ⟨first, rest ++ taken, List.append_assoc _ _ _, ?_⟩
  rw [ht.clock, hgen, hclock]
  dsimp only
  split_ifs
  · simp only [fileClock, List.foldl_append]
  · simp only [pipeClock, List.foldl_append]

/-- `find_genesis` is called for the first batch, and then no more. -/
theorem ClockKept.sort {native : Bool} {s : PipeState} {read : List BlkIoTrace} (h : ClockKept native s read)
    (hpos : minTime s.traceList ≠ 0) (o : Opts) : ClockKept native (sortEntries o s).1 read := by
  obtain ⟨first, rest, hread, hclock⟩ := h
  rw [(sortEntries_frame o s).1]
  by_cases hzero : s.genesisTime = 0
  · refine ⟨read, [], (List.append_nil _).symm, ?_⟩
    rw [if_pos hzero] at hclock
    simp only [originOf, clockOf, if_pos hzero, if_neg hpos, hclock]
    rfl
  · refine ⟨first, rest, hread, ?_⟩
    rw [if_neg hzero] at hclock
    simp only [originOf, clockOf, if_neg hzero, hclock]

/-- **The clock of a run of pipe mode** over a pipe of valid records none of which is of time 0. -/
theorem doPipe_clock (o : Opts) (find : Find) (names : Nat) {native : Bool} {input : List (Option BlkIoTrace)}
    (hv : ValidPipe native input) (hpos : ∀ bit ∈ hostRecords native input, bit.time ≠ 0) :
    ∃ read unread, hostRecords native input = read ++ unread ∧
      ClockKept native (doPipe o find names input) read := by
  have hsort : ∀ s read n, ClockKept native s read → (∀ t ∈ s.traceList, t.bit ∈ hostRecords native input) →
      ClockKept native (sortEntries o { s with readSequence := n }).1 read := by
    intro s read n h hmem
    apply ClockKept.sort (s := { s with readSequence := n }) h
    intro hzero
    rw [minTime_eq] at hzero
    obtain ⟨bit, hbit, htime⟩ := leastTime_eq_zero.mp hzero
    obtain ⟨t, ht, rfl⟩ := List.mem_map.mp hbit
    exact hpos t.bit (hmem t ht) htime
  have hshow : ∀ s read force, ClockKept native s read →
      ClockKept native (showEntriesRb o find force s) read := by
    intro s read force h
    rw [showEntriesRb, showLoop_frame]
    exact h
  obtain ⟨read, unread, hall, hkept, -⟩ := @doPipe_reading o find names native input (ClockKept native) hv
    ⟨[], [], rfl, rfl⟩ (fun s read taken rest h ht => h.read ht) hsort hshow
  exact ⟨read, unread, hall, hkept⟩

end Blktrace.Blkparse
