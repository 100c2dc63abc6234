import Blktrace.TraceFile

/-!
# `iowatcher/blkparse.c`: the cursor over a trace

The file is mapped as a whole, and what is behind its end reads as zero, as the rest of its last page
does. `first_record` and `next_record` expose the records one after another; `find_last_time` looks
for the last one from behind and goes through them only when that fails.
-/

namespace Blktrace.Iowatcher

/-- `trace->io` with `trace->cur` at `cur`. -/
def ioAt (file : List UInt8) (cur : ℕ) : BlkIoTrace := recordAt true (file.drop cur)

/-- The bytes of `"fio "`. -/
def fio : List UInt8 := [0x66, 0x69, 0x6f, 0x20]

/-- `is_io_event`. The four bytes are compared behind a header that promises three. -/
def isIoEvent (file : List UInt8) (cur : ℕ) : Bool :=
  let test := ioAt file cur
  if !test.hasTc blkTcNotify then true
  else if test.isMessage then
    if test.pduLen.toNat < 3 then false else (file.drop (cur + traceSize)).take 4 == fio
  else false

/-- `next_record`: where it moves `trace->io`, `none` where it returns 1. -/
def nextRecord (file : List UInt8) (cur : ℕ) : Option ℕ :=
  let offset := cur + traceSize + (ioAt file cur).pduLen.toNat
  if file.length ≤ offset then none else some offset

/-- The position that is exposed after so many `next_record`s. -/
def cursor (file : List UInt8) : ℕ → ℕ → Option ℕ
  | cur, 0 => some cur
  | cur, k + 1 =>
    match nextRecord file cur with
    | none => none
    | some cur => cursor file cur k

/-- The test of the search: an IO event that reaches exactly to the end of the file. -/
def looksLast (file : List UInt8) (p : ℕ) : Bool :=
  checkMagic (ioAt file p).magic && isIoEvent file p &&
    p + traceSize + (ioAt file p).pduLen.toNat == file.length

/-- The search from `p` backwards, with `left` more positions to look at. -/
def searchBack (file : List UInt8) : ℕ → ℕ → Option UInt64
  | 0, _ => none
  | left + 1, p =>
    if looksLast file p then some (ioAt file p).time
    else
      match p with
      | 0 => none
      | p + 1 => searchBack file left p

/-- The scan of the file, as far as the fuel lasts. -/
def scanOn (file : List UInt8) : ℕ → ℕ → UInt64 → UInt64
  | 0, _, found => found
  | fuel + 1, cur, found =>
    let found := if isIoEvent file cur then (ioAt file cur).time else found
    match nextRecord file cur with
    | none => found
    | some cur => scanOn file fuel cur found

/-- `find_last_time`. -/
def findLastTime (file : List UInt8) : UInt64 :=
  if file.length < traceSize then 0
  else
    match searchBack file 8193 (file.length - traceSize) with
    | some time => time
    | none => scanOn file file.length 0 0

/-! ## The cursor -/

/-- The record that is exposed there is in the file, header and payload. -/
def Inside (file : List UInt8) (cur : ℕ) : Prop :=
  cur + traceSize + (ioAt file cur).pduLen.toNat ≤ file.length

theorem inside_iff {file : List UInt8} {cur : ℕ} (h : cur ≤ file.length) :
    Inside file cur ↔ recordSize true (file.drop cur) ≤ (file.drop cur).length := by
  have hsize : recordSize true (file.drop cur) = traceSize + (ioAt file cur).pduLen.toNat := rfl
  rw [hsize, List.length_drop, Inside]
  omega

theorem nextRecord_lt {file : List UInt8} {cur next : ℕ} (h : nextRecord file cur = some next) :
    cur < next ∧ next < file.length := by
  unfold nextRecord traceSize at h
  dsimp only at h
  split_ifs at h with hend
  obtain rfl := Option.some.inj h
  omega

/-- The scan is over before its fuel is. -/
theorem scanOn_fuel {file : List UInt8} {fuel fuel' cur : ℕ} (hcur : cur < file.length)
    (h : file.length ≤ cur + fuel) (h' : file.length ≤ cur + fuel') (found : UInt64) :
    scanOn file fuel cur found = scanOn file fuel' cur found := by
  induction fuel generalizing fuel' cur found with
  | zero => omega
  | succ fuel ih =>
    cases fuel' with
    | zero => omega
    | succ fuel' =>
      rw [scanOn, scanOn]
      cases hnext : nextRecord file cur with
      | none => rfl
      | some next =>
        obtain ⟨hlt, hin⟩ := nextRecord_lt hnext
        exact ih hin (by omega) (by omega) _

theorem cursor_le {file : List UInt8} {cur k next : ℕ} (h : cursor file cur k = some next) :
    cur + k ≤ next ∧ (k ≠ 0 → next < file.length) := by
  induction k generalizing cur with
  | zero =>
    obtain rfl := Option.some.inj h
    exact ⟨le_refl _, fun hne => absurd rfl hne⟩
  | succ k ih =>
    rw [cursor] at h
    cases hnext : nextRecord file cur with
    | none => rw [hnext] at h; nomatch h
    | some mid =>
      rw [hnext] at h
      obtain ⟨hlt, hin⟩ := nextRecord_lt hnext
      obtain ⟨hle, hlast⟩ := ih h
      refine ⟨by omega, fun _ => ?_⟩
      cases k with
      | zero =>
        obtain rfl := Option.some.inj h
        exact hin
      | succ k => exact hlast (Nat.succ_ne_zero k)

/-- The iteration ends, whatever the file holds. -/
theorem cursor_ends (file : List UInt8) : ∃ k, cursor file 0 k = none := by
  refine ⟨file.length + 1, Option.eq_none_iff_forall_ne_some.mpr fun next h => ?_⟩
  obtain ⟨hle, hlt⟩ := cursor_le h
  exact absurd (hlt (Nat.succ_ne_zero _)) (by omega)

theorem ioAt_image {file rest : List UInt8} {cur : ℕ} {t : BlkIoTrace} (ht : t.Complete)
    (h : file.drop cur = t.image false ++ rest) : ioAt file cur = t := by
  rw [ioAt, h]
  exact recordAt_image true ht rest

theorem length_of_drop {file rest : List UInt8} {cur : ℕ} {t : BlkIoTrace} (ht : t.Complete)
    (h : file.drop cur = t.image false ++ rest) :
    file.length = cur + traceSize + t.pduLen.toNat + rest.length := by
  have hlen := congrArg List.length h
  rw [List.length_drop, List.length_append, length_image, ht] at hlen
  unfold traceSize at *
  omega

/-- From a record one goes to what is behind it. -/
theorem nextRecord_image {file rest : List UInt8} {cur : ℕ} {t : BlkIoTrace} (ht : t.Complete)
    (h : file.drop cur = t.image false ++ rest) :
    (rest = [] ∧ nextRecord file cur = none) ∨
      ∃ next, nextRecord file cur = some next ∧ file.drop next = rest := by
  have hlen := length_of_drop ht h
  unfold nextRecord
  rw [ioAt_image ht h]
  dsimp only
  by_cases hrest : rest = []
  · rw [hrest, List.length_nil] at hlen
    exact .inl ⟨hrest, if_pos (le_of_eq hlen)⟩
  · have hpos := List.length_pos_iff.mpr hrest
    refine .inr ⟨_, if_neg (by omega), ?_⟩
    have himage : traceSize + t.pduLen.toNat = (t.image false).length := by rw [length_image, ht]
    rw [Nat.add_assoc, ← List.drop_drop, h, himage, List.drop_left]

/-- Every record of a file of whole records is exposed in it. -/
theorem inside_of_whole {file : List UInt8} {t : BlkIoTrace} {ts : List BlkIoTrace} {cur k next : ℕ}
    (hfile : file.drop cur = fileOf false (t :: ts)) (h : ∀ u ∈ t :: ts, u.Complete)
    (hnext : cursor file cur k = some next) : Inside file next := by
  induction k generalizing cur t ts with
  | zero =>
    obtain rfl := Option.some.inj hnext
    have ht := h t List.mem_cons_self
    have hlen := length_of_drop ht hfile
    rw [Inside, ioAt_image ht hfile]
    omega
  | succ k ih =>
    rw [cursor] at hnext
    rcases nextRecord_image (h t List.mem_cons_self) hfile with ⟨-, hend⟩ | ⟨mid, hmid, hrest⟩
    · rw [hend] at hnext
      nomatch hnext
    · rw [hmid] at hnext
      cases ts with
      | nil =>
        obtain ⟨-, hin⟩ := nextRecord_lt hmid
        have hlen := congrArg List.length hrest
        rw [List.length_drop] at hlen
        simp at hlen
        omega
      | cons u us => exact ih hrest (fun v hv => h v (List.mem_cons_of_mem t hv)) hnext

/-- A file in which everything that is exposed is there consists of whole records. -/
theorem whole_of_inside {file : List UInt8} {cur : ℕ} (hcur : cur ≤ file.length)
    (h : ∀ k next, cursor file cur k = some next → Inside file next) :
    ∃ ts, file.drop cur = fileOf false ts ∧ ∀ t ∈ ts, t.Complete := by
  have hin := (inside_iff hcur).mp (h 0 cur rfl)
  have hhead := image_append_drop hin
  have hcomplete := complete_recordAt hin
  cases hnext : nextRecord file cur with
  | none =>
    have hrest : (file.drop cur).drop (recordSize true (file.drop cur)) = [] := by
      unfold nextRecord at hnext
      dsimp only at hnext
      split_ifs at hnext with hend
      rw [List.drop_drop]
      apply List.drop_eq_nil_of_le
      rw [recordSize, ← Nat.add_assoc]
      exact hend
    rw [hrest, List.append_nil] at hhead
    refine ⟨[recordAt true (file.drop cur)], ?_, fun t ht => ?_⟩
    · rw [fileOf_cons, fileOf_nil, List.append_nil]
      exact hhead.symm
    · obtain rfl := List.mem_singleton.mp ht
      exact hcomplete
  | some next =>
    obtain ⟨hlt, hlast⟩ := nextRecord_lt hnext
    have hrec : ∀ k q, cursor file next k = some q → Inside file q := by
      intro k q hq
      apply h (k + 1)
      rw [cursor, hnext]
      exact hq
    obtain ⟨ts, hts, hwhole⟩ := whole_of_inside (Nat.le_of_lt hlast) hrec
    have hdrop : (file.drop cur).drop (recordSize true (file.drop cur)) = file.drop next := by
      unfold nextRecord at hnext
      dsimp only at hnext
      split_ifs at hnext with hend
      rw [List.drop_drop, recordSize, ← Nat.add_assoc]
      exact congrArg file.drop (Option.some.inj hnext)
    refine ⟨recordAt true (file.drop cur) :: ts, ?_, List.forall_mem_cons.mpr ⟨hcomplete, hwhole⟩⟩
    rw [fileOf_cons, ← hts, ← hdrop]
    exact hhead.symm
termination_by file.length - cur

end Blktrace.Iowatcher
