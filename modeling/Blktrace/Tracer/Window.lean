import Blktrace.Lib.Runs
import Mathlib.Data.Nat.Bitwise

/-!
# `blktrace.c`: the window on an output file

A tracer that writes files reads straight into a window of the output file. `setup_mmap` moves the
window on when the room left in it is less than a buffer. It returns 1 where it fails, and
`handle_pfds_file` looks for less than 0.
-/

namespace Blktrace.Tracer

/-- What `handle_args` takes for `-b` and `-n`, and the page size. -/
structure Settings where
  kb : ℕ
  bufNr : ℕ
  pageShift : ℕ
  kb_pos : 0 < kb
  kb_le : kb ≤ 16 * 1024
  bufNr_pos : 0 < bufNr
  bufNr_lt : bufNr < 2 ^ 64
  /-- `pagesize` is an `int`. -/
  pageShift_lt : pageShift < 31

namespace Settings

variable (S : Settings)

/-- `buf_size <<= 10`. -/
def bufSize : ℕ := S.kb * 1024

def pagesize : ℕ := 2 ^ S.pageShift

/-- `nr * mip->buf_size`, of two `unsigned long`. -/
def span : ℕ := max 16 S.bufNr * S.bufSize % 2 ^ 64

end Settings

/-- What `fs_buf` points to. -/
inductive FsBuf
  | null
  /-- `MAP_FAILED`. -/
  | failed
  /-- These bytes of the output file. -/
  | mapped (offset len : ℕ)
  deriving DecidableEq

/-- `struct mmap_info`, its counters `unsigned long long`. -/
structure MmapInfo where
  fsBuf : FsBuf := .null
  fsSize : ℕ := 0
  fsMaxSize : ℕ := 0
  fsOff : ℕ := 0
  fsBufLen : ℕ := 0
  /-- The length of the output file. -/
  fileLen : ℕ := 0
  deriving DecidableEq

/-- Which of the calls of `setup_mmap` succeed. A length that is no `off_t`, or that no address space
has room for, does not succeed in any case. -/
structure Calls where
  ftruncate : Bool := true
  mmap : Bool := true
  mlock : Bool := true

namespace MmapInfo

variable (S : Settings)

/-- `mip->fs_off + maxlen > mip->fs_buf_len`. -/
def full (maxlen : ℕ) (mip : MmapInfo) : Prop := mip.fsBufLen < (mip.fsOff + maxlen) % 2 ^ 64

instance (maxlen : ℕ) (mip : MmapInfo) : Decidable (mip.full maxlen) :=
  inferInstanceAs (Decidable (_ < _))

/-- The counters of the next window. -/
def next (mip : MmapInfo) : MmapInfo :=
  let fsOff := mip.fsSize &&& (S.pagesize - 1)
  let fsBufLen := (S.span + 2 ^ 64 - fsOff) % 2 ^ 64
  { mip with
    fsBuf := .null
    fsOff := fsOff
    fsBufLen := fsBufLen
    fsMaxSize := (mip.fsMaxSize + fsBufLen) % 2 ^ 64 }

/-- `setup_mmap`, and what it returns. -/
def setup (maxlen : ℕ) (calls : Calls) (mip : MmapInfo) : MmapInfo × ℤ :=
  if mip.full maxlen then
    let mip := mip.next S
    if calls.ftruncate ∧ mip.fsMaxSize < 2 ^ 63 then
      let mip := { mip with fileLen := mip.fsMaxSize }
      if calls.mmap ∧ 0 < mip.fsBufLen ∧ mip.fsBufLen < 2 ^ 63 then
        let mip := { mip with fsBuf := .mapped (mip.fsSize - mip.fsOff) mip.fsBufLen }
        (mip, if calls.mlock then 0 else 1)
      else ({ mip with fsBuf := .failed }, 1)
    else (mip, 1)
  else (mip, 0)

end MmapInfo

/-! ## Reading -/

/-- A file that is ready: the calls of `setup_mmap`, and what `read` returns, none for an error. -/
structure Ready (S : Settings) where
  calls : Calls
  ret : Option ℕ
  ret_le : ∀ n ∈ ret, n ≤ S.bufSize

/-- One output of `handle_pfds_file`, and the windows that it has read into. -/
structure Output where
  mip : MmapInfo := {}
  reads : List MmapInfo := []

variable (S : Settings)

/-- The body of the loop of `handle_pfds_file`, for one file. -/
def handleReady (out : Output) (r : Ready S) : Output :=
  let (mip, ret) := out.mip.setup S S.bufSize r.calls
  if ret < 0 then { out with mip := mip }
  else
    let reads := out.reads ++ [mip]
    match r.ret with
    | some n =>
      { mip := { mip with
          fsSize := (mip.fsSize + n) % 2 ^ 64
          fsOff := (mip.fsOff + n) % 2 ^ 64 }
        reads := reads }
    | none => { mip := mip, reads := reads }

/-- A window that `maxlen` bytes can be read into, so that they land at `fs_size` of a file that is
long enough. -/
def MmapInfo.Good (maxlen : ℕ) (mip : MmapInfo) : Prop :=
  ∃ offset len, mip.fsBuf = .mapped offset len ∧ mip.fsOff + maxlen ≤ len ∧
    S.pagesize ∣ offset ∧ offset + mip.fsOff = mip.fsSize ∧
    offset + len ≤ mip.fsMaxSize ∧ mip.fsMaxSize ≤ mip.fileLen

/-- What it takes to move the window: both calls succeed, the next window has room for what is before
`fs_size` in its page, twice, and for `maxlen` bytes, and the length of the file is an `off_t`. -/
structure MmapInfo.CanMove (maxlen : ℕ) (mip : MmapInfo) (calls : Calls) : Prop where
  ftruncate : calls.ftruncate
  mmap : calls.mmap
  room : 2 * (mip.fsSize % S.pagesize) + maxlen ≤ S.span
  fileLen_lt : mip.fsMaxSize + (S.span - mip.fsSize % S.pagesize) < 2 ^ 63

/-- The turn can move the window, if it has to. -/
def Roomy (out : Output) (r : Ready S) : Prop :=
  out.mip.full S.bufSize → out.mip.CanMove S S.bufSize r.calls

/-- The loop, over the files that are ready. -/
def step (out : Output) (r : Ready S) : Option Output := some (handleReady S out r)

/-! ## The window slides -/

/-- The window that there is ends in the file, and holds `fs_size`. -/
structure Slid (mip : MmapInfo) : Prop where
  fsOff_le : mip.fsOff ≤ mip.fsBufLen
  fsBufLen_lt : mip.fsBufLen < 2 ^ 63
  fsSize_le : mip.fsSize ≤ mip.fsMaxSize
  fsMaxSize_lt : mip.fsMaxSize < 2 ^ 63
  fileLen : mip.fsMaxSize ≤ mip.fileLen
  mapped : mip.fsBufLen ≠ 0 → ∃ offset, mip.fsBuf = .mapped offset mip.fsBufLen ∧
    S.pagesize ∣ offset ∧ offset + mip.fsOff = mip.fsSize ∧ offset + mip.fsBufLen ≤ mip.fsMaxSize

variable {S}

namespace Settings

theorem bufSize_pos : 0 < S.bufSize := Nat.mul_pos S.kb_pos (by decide)

theorem bufSize_le : S.bufSize ≤ 2 ^ 24 := by
  have hle := S.kb_le
  unfold bufSize
  omega

theorem bufSize_le_word : S.bufSize ≤ 2 ^ 32 := by
  have hle := S.bufSize_le
  omega

theorem and_pagesize (n : ℕ) : n &&& (S.pagesize - 1) = n % S.pagesize :=
  Nat.and_two_pow_sub_one_eq_mod n S.pageShift

theorem pagesize_lt : S.pagesize < 2 ^ 31 :=
  Nat.pow_lt_pow_right (by decide) S.pageShift_lt

theorem span_lt : S.span < 2 ^ 64 := Nat.mod_lt _ (by decide)

theorem mod_pagesize_lt (n : ℕ) : n % S.pagesize < 2 ^ 31 :=
  lt_trans (Nat.mod_lt n (Nat.two_pow_pos _)) S.pagesize_lt

end Settings

theorem slid_init : Slid S {} where
  fsOff_le := le_refl 0
  fsBufLen_lt := by decide
  fsSize_le := le_refl 0
  fsMaxSize_lt := by decide
  fileLen := le_refl 0
  mapped h := absurd rfl h

/-- What `setup_mmap` returns is no error to `handle_pfds_file`. -/
theorem setup_nonneg (mip : MmapInfo) (maxlen : ℕ) (calls : Calls) :
    ¬ (mip.setup S maxlen calls).2 < 0 := by
  unfold MmapInfo.setup
  dsimp only
  split_ifs <;> simp

theorem next_fsOff (mip : MmapInfo) : (mip.next S).fsOff = mip.fsSize % S.pagesize :=
  S.and_pagesize mip.fsSize

/-- The next window, where it has room. -/
theorem next_fsBufLen {mip : MmapInfo} (hroom : mip.fsSize % S.pagesize ≤ S.span) :
    (mip.next S).fsBufLen = S.span - mip.fsSize % S.pagesize := by
  have hlt := S.span_lt
  show (S.span + 2 ^ 64 - (mip.next S).fsOff) % 2 ^ 64 = _
  rw [next_fsOff]
  omega

theorem next_fsMaxSize {mip : MmapInfo} (hroom : mip.fsSize % S.pagesize ≤ S.span)
    (hlt : mip.fsMaxSize + (S.span - mip.fsSize % S.pagesize) < 2 ^ 64) :
    (mip.next S).fsMaxSize = mip.fsMaxSize + (S.span - mip.fsSize % S.pagesize) := by
  show (mip.fsMaxSize + (mip.next S).fsBufLen) % 2 ^ 64 = _
  rw [next_fsBufLen hroom]
  exact Nat.mod_eq_of_lt hlt

namespace Slid

variable {mip : MmapInfo}

/-- Where the window is not full it has room. -/
theorem room (hs : Slid S mip) {maxlen : ℕ} (hle : maxlen ≤ 2 ^ 32) (hfull : ¬ mip.full maxlen) :
    mip.fsOff + maxlen ≤ mip.fsBufLen := by
  have hoff := hs.fsOff_le
  have hlen := hs.fsBufLen_lt
  unfold MmapInfo.full at hfull
  omega

/-- Where it has, it is good. -/
theorem good (hs : Slid S mip) {maxlen : ℕ} (hpos : 0 < maxlen)
    (hroom : mip.fsOff + maxlen ≤ mip.fsBufLen) : mip.Good S maxlen := by
  obtain ⟨offset, hbuf, hdvd, hoff, hend⟩ := hs.mapped (by omega)
  exact ⟨offset, mip.fsBufLen, hbuf, hroom, hdvd, hoff, hend, hs.fileLen⟩

/-- What is read where there is room for it stays in the window. -/
theorem read (hs : Slid S mip) {maxlen : ℕ} (hpos : 0 < maxlen)
    (hroom : mip.fsOff + maxlen ≤ mip.fsBufLen) {n : ℕ} (hn : n ≤ maxlen) :
    Slid S { mip with fsSize := (mip.fsSize + n) % 2 ^ 64, fsOff := (mip.fsOff + n) % 2 ^ 64 } := by
  have hlen := hs.fsBufLen_lt
  have hmax := hs.fsMaxSize_lt
  obtain ⟨offset, hbuf, hdvd, hoff, hend⟩ := hs.mapped (by omega)
  have hsize : (mip.fsSize + n) % 2 ^ 64 = mip.fsSize + n := Nat.mod_eq_of_lt (by omega)
  have hmod : (mip.fsOff + n) % 2 ^ 64 = mip.fsOff + n := Nat.mod_eq_of_lt (by omega)
  rw [hsize, hmod]
  refine ⟨?_, hlen, ?_, hmax, hs.fileLen, fun _ => ⟨offset, hbuf, hdvd, ?_, hend⟩⟩
  · show mip.fsOff + n ≤ mip.fsBufLen
    omega
  · show mip.fsSize + n ≤ mip.fsMaxSize
    omega
  · show offset + (mip.fsOff + n) = mip.fsSize + n
    omega

/-- **`setup_mmap`** leaves room, where the window can be moved if it must be. -/
theorem setup (hs : Slid S mip) {maxlen : ℕ} (hpos : 0 < maxlen) (hle : maxlen ≤ 2 ^ 32)
    {calls : Calls} (hroomy : mip.full maxlen → mip.CanMove S maxlen calls) :
    Slid S (mip.setup S maxlen calls).1 ∧
      (mip.setup S maxlen calls).1.fsOff + maxlen ≤ (mip.setup S maxlen calls).1.fsBufLen := by
  unfold MmapInfo.setup
  dsimp only
  by_cases hfull : mip.full maxlen
  · obtain ⟨hftruncate, hmmap, hspan, hfile⟩ := hroomy hfull
    have hbufLen := next_fsBufLen (show mip.fsSize % S.pagesize ≤ S.span by omega)
    have hmaxSize := next_fsMaxSize (show mip.fsSize % S.pagesize ≤ S.span by omega) (by omega)
    have hmax : (mip.next S).fsMaxSize < 2 ^ 63 := hmaxSize ▸ hfile
    have hlen : (mip.next S).fsBufLen < 2 ^ 63 := by omega
    have hsize := hs.fsSize_le
    have hmod := Nat.mod_le mip.fsSize S.pagesize
    have hdvd : S.pagesize ∣ mip.fsSize - mip.fsSize % S.pagesize := Nat.dvd_sub_mod mip.fsSize
    have hlenPos : 0 < (mip.next S).fsBufLen := by omega
    rw [if_pos hfull, if_pos ⟨hftruncate, hmax⟩, if_pos ⟨hmmap, hlenPos, hlen⟩]
    refine ⟨⟨?_, hlen, ?_, hmax, le_refl _, fun _ => ⟨_, rfl, ?_, ?_, ?_⟩⟩, ?_⟩
    · show (mip.next S).fsOff ≤ (mip.next S).fsBufLen
      rw [next_fsOff, hbufLen]
      omega
    · show mip.fsSize ≤ (mip.next S).fsMaxSize
      omega
    · show S.pagesize ∣ mip.fsSize - (mip.next S).fsOff
      rw [next_fsOff]
      exact hdvd
    · show mip.fsSize - (mip.next S).fsOff + (mip.next S).fsOff = mip.fsSize
      rw [next_fsOff]
      omega
    · show mip.fsSize - (mip.next S).fsOff + (mip.next S).fsBufLen ≤ (mip.next S).fsMaxSize
      rw [next_fsOff, hbufLen, hmaxSize]
      omega
    · show (mip.next S).fsOff + maxlen ≤ (mip.next S).fsBufLen
      rw [next_fsOff, hbufLen]
      omega
  · rw [if_neg hfull]
    exact ⟨hs, hs.room hle hfull⟩

end Slid

/-- Where it cannot be moved, `read` gets a window that is not good. -/
theorem canMove_of_good {mip : MmapInfo} (hs : Slid S mip) {maxlen : ℕ} {calls : Calls}
    (hgood : (mip.setup S maxlen calls).1.Good S maxlen) (hfull : mip.full maxlen) :
    mip.CanMove S maxlen calls := by
  obtain ⟨offset, len, hbuf, hroom, -, -, -, -⟩ := hgood
  unfold MmapInfo.setup at hbuf hroom
  dsimp only at hbuf hroom
  rw [if_pos hfull] at hbuf hroom
  by_cases hftruncate : calls.ftruncate = true ∧ (mip.next S).fsMaxSize < 2 ^ 63
  · rw [if_pos hftruncate] at hbuf hroom
    by_cases hmmap : calls.mmap = true ∧ 0 < (mip.next S).fsBufLen ∧ (mip.next S).fsBufLen < 2 ^ 63
    · rw [if_pos hmmap] at hbuf hroom
      have hlen : (mip.next S).fsBufLen = len := by cases hbuf; rfl
      have hwrap : (mip.next S).fsBufLen = (S.span + 2 ^ 64 - mip.fsSize % S.pagesize) % 2 ^ 64 := by
        rw [← next_fsOff]
        rfl
      have hlt := hmmap.2.2
      have hspan := S.span_lt
      have hmod := S.mod_pagesize_lt mip.fsSize
      have hmax := hs.fsMaxSize_lt
      change (mip.next S).fsOff + maxlen ≤ len at hroom
      rw [next_fsOff] at hroom
      have htwice : 2 * (mip.fsSize % S.pagesize) + maxlen ≤ S.span := by omega
      have hbufLen := next_fsBufLen (show mip.fsSize % S.pagesize ≤ S.span by omega)
      have hmaxSize := next_fsMaxSize (show mip.fsSize % S.pagesize ≤ S.span by omega) (by omega)
      exact ⟨hftruncate.1, hmmap.1, htwice, hmaxSize ▸ hftruncate.2⟩
    · rw [if_neg hmmap] at hbuf
      cases hbuf
  · rw [if_neg hftruncate] at hbuf
    cases hbuf

/-! ## Runs -/

theorem reads_handleReady (out : Output) (r : Ready S) :
    (handleReady S out r).reads = out.reads ++ [(out.mip.setup S S.bufSize r.calls).1] := by
  unfold handleReady
  dsimp only
  rw [if_neg (setup_nonneg out.mip S.bufSize r.calls)]
  cases r.ret <;> rfl

theorem slid_handleReady {out : Output} (hs : Slid S out.mip) {r : Ready S} (hroomy : Roomy S out r) :
    Slid S (handleReady S out r).mip := by
  obtain ⟨hs', hroom⟩ := hs.setup S.bufSize_pos S.bufSize_le_word hroomy
  unfold handleReady
  dsimp only
  rw [if_neg (setup_nonneg out.mip S.bufSize r.calls)]
  cases hret : r.ret with
  | none => exact hs'
  | some n => exact hs'.read S.bufSize_pos hroom (r.ret_le n hret)

theorem reads_run (out : Output) (rs : List (Ready S)) :
    out.reads <+: (Runs.run (step S) out rs).reads := by
  refine Runs.run_invariant (P := fun out' : Output => out.reads <+: out'.reads) ?_
    (List.prefix_refl _) rs
  intro out' r out'' hprefix h
  cases h
  rw [reads_handleReady]
  exact hprefix.trans (List.prefix_append _ _)

/-- **Every read of a run gets a good window** if and only if the window can be moved whenever that is
tried. -/
theorem reads_good_iff (S : Settings) (rs : List (Ready S)) :
    (∀ mip ∈ (Runs.run (step S) {} rs).reads, mip.Good S S.bufSize) ↔
      Runs.Along (step S) (Roomy S) {} rs := by
  have hgeneral : ∀ out : Output, Slid S out.mip → (∀ mip ∈ out.reads, mip.Good S S.bufSize) →
      ((∀ mip ∈ (Runs.run (step S) out rs).reads, mip.Good S S.bufSize) ↔
        Runs.Along (step S) (Roomy S) out rs) := by
    induction rs with
    | nil => exact fun out _ hreads => ⟨fun _ => .nil out, fun _ => hreads⟩
    | cons r rs ih =>
      intro out hs hreads
      rw [Runs.run_cons, Runs.along_cons]
      change (∀ mip ∈ (Runs.run (step S) (handleReady S out r) rs).reads, mip.Good S S.bufSize) ↔
        Roomy S out r ∧ Runs.Along (step S) (Roomy S) (handleReady S out r) rs
      by_cases hroomy : Roomy S out r
      · obtain ⟨hs', hroom⟩ := hs.setup S.bufSize_pos S.bufSize_le_word hroomy
        have hreads' : ∀ mip ∈ (handleReady S out r).reads, mip.Good S S.bufSize := by
          intro mip hmip
          rw [reads_handleReady, List.mem_append, List.mem_singleton] at hmip
          rcases hmip with hold | rfl
          · exact hreads mip hold
          · exact hs'.good S.bufSize_pos hroom
        rw [ih _ (slid_handleReady hs hroomy) hreads']
        exact ⟨fun h => ⟨hroomy, h⟩, And.right⟩
      · refine ⟨fun hall => absurd (fun hfull => ?_) hroomy, fun h => absurd h.1 hroomy⟩
        refine canMove_of_good hs (hall _ ?_) hfull
        apply (reads_run (handleReady S out r) rs).subset
        rw [reads_handleReady]
        exact List.mem_append_right _ (List.mem_singleton_self _)
  exact hgeneral {} slid_init (by simp)

/-- Buffers of a kilobyte. -/
def kilobytes (pageShift : ℕ) (h : pageShift < 31) : Settings where
  kb := 1
  bufNr := 4
  pageShift := pageShift
  kb_pos := Nat.one_pos
  kb_le := by decide
  bufNr_pos := by decide
  bufNr_lt := by decide
  pageShift_lt := h

/-- `ftruncate` fails, and `read` is given no window. -/
def noWindow : List (Ready (kilobytes 12 (by decide))) :=
  [{ calls := { ftruncate := false }, ret := none, ret_le := nofun }]

/-- On pages of 64 KiB, 15 kilobytes and a byte: the next window ends before they do. -/
def largePages : List (Ready (kilobytes 16 (by decide))) :=
  List.replicate 15 { calls := {}, ret := some 1024, ret_le := by simp [kilobytes, Settings.bufSize] } ++
    [{ calls := {}, ret := some 1, ret_le := by simp [kilobytes, Settings.bufSize] },
      { calls := {}, ret := none, ret_le := nofun }]

theorem not_good_read :
    (∃ mip ∈ (Runs.run (step _) {} noWindow).reads, ¬ mip.Good (kilobytes 12 (by decide)) 1024) ∧
      ∃ mip ∈ (Runs.run (step _) {} largePages).reads, ¬ mip.Good (kilobytes 16 (by decide)) 1024 := by
  constructor
  · refine ⟨_, List.mem_singleton_self _, ?_⟩
    rintro ⟨offset, len, hbuf, -⟩
    cases hbuf
  · have hlast : MmapInfo.mk (.mapped 0 1023) 15361 17407 15361 1023 17407 ∈
        (Runs.run (step _) {} largePages).reads := by
      decide
    refine ⟨_, hlast, ?_⟩
    rintro ⟨offset, len, hbuf, hroom, -⟩
    cases hbuf
    exact absurd hroom (by decide)

end Blktrace.Tracer
