import Blktrace.Iowatcher.Events
import Blktrace.Iowatcher.Fio
import Blktrace.Lib.Lines

/-!
# `iowatcher/mpstat.c`: the samples of the CPUs

The output of `mpstat` is text that is mapped like a log, so that behind its end there is a zero, and
`trace->mpstat_cur` is what is left of it from there on. A `double` is a rational number here. The Y maximum
of a graph is only drawn and left out, and so is what `read_trace_events` does with the traces before.
-/

namespace Blktrace.Iowatcher

open Lines

/-! ## Records -/

/-- The header of a record, without its newline. -/
def headerText (v2 : Bool) : List UInt8 :=
  if v2 then
    "CPU    %usr   %nice    %sys %iowait    %irq   %soft  %steal  %guest  %gnice   %idle".toUTF8.toList
  else "CPU    %usr   %nice    %sys %iowait    %irq   %soft  %steal  %guest   %idle".toUTF8.toList

/-- `record_header` and `record_header_v2`. -/
def recordHeader (v2 : Bool) : List UInt8 := headerText v2 ++ [0x0a]

/-- `record_header_len` and `record_header_v2_len`, which count the zero at the end. -/
def recordHeaderLen (v2 : Bool) : ℕ := (recordHeader v2).length + 1

def strstr (cur pat : List UInt8) : Option (List UInt8) := search (· == 0) pat cur

/-- `next_mpstat_line` has the text of `next_fio_line`. -/
def nextMpstatLine (cur : List UInt8) : Option (List UInt8) := nextFioLine cur

/-- `next_mpstat`: the new `trace->mpstat_cur`, `none` where it returns `NULL`. -/
def nextMpstat (cur : List UInt8) : Option (List UInt8) :=
  let found :=
    match strstr cur (recordHeader false) with
    | some rest => some (rest.drop (recordHeaderLen false))
    | none => (strstr cur (recordHeader true)).map (List.drop (recordHeaderLen true))
  found.bind fun cur => if cur = [] then none else some cur

/-- `first_mpstat`, as far as `trace->mpstat_cur`. -/
def firstMpstat (start : List UInt8) : List UInt8 := (nextMpstat start).getD start

/-- The loop of `find_last_mpstat_time`: how often `next_mpstat` finds a record. -/
def numMpstats : ℕ → List UInt8 → ℕ
  | 0, _ => 0
  | fuel + 1, cur =>
    match nextMpstat cur with
    | none => 0
    | some next => numMpstats fuel next + 1

/-- `find_last_mpstat_time`: `trace->mpstat_seconds`. -/
def findLastMpstatTime (start : List UInt8) : Int32 := Int32.ofNat (numMpstats (start.length + 1) start)

/-- The lines that `guess_mpstat_cpus` counts. -/
def guessLines : ℕ → List UInt8 → ℕ
  | 0, _ => 0
  | fuel + 1, cur =>
    match nextMpstatLine cur with
    | none => 0
    | some next => if next.head? = some 0x0a then 1 else guessLines fuel next + 1

/-- `guess_mpstat_cpus`: `trace->mpstat_num_cpus`. -/
def guessMpstatCpus (start : List UInt8) : Int32 :=
  match nextMpstat start with
  | none => 0
  | some cur => Int32.ofNat (guessLines (cur.length + 1) cur) - 1

def cpuMark : List UInt8 := " CPU)".toUTF8.toList

/-- What is behind the last opening bracket. -/
def lastBracket (line : List UInt8) : Option (List UInt8) :=
  if 0x28 ∈ line then some (line.reverse.takeWhile (· != 0x28)).reverse else none

/-- `count_mpstat_cpus`: `trace->mpstat_num_cpus`. -/
def countMpstatCpus (start : List UInt8) : Int32 :=
  match strstr start cpuMark with
  | none => guessMpstatCpus start
  | some cpu =>
    match lastBracket (start.take (start.length - cpu.length)) with
    | none => 0
    | some record => atoi record

/-! ## The loops end -/

theorem length_nextMpstat {cur next : List UInt8} (h : nextMpstat cur = some next) :
    next.length < cur.length := by
  have hdrop : ∀ {v2 found}, strstr cur (recordHeader v2) = some found →
      found.drop (recordHeaderLen v2) ≠ [] → (found.drop (recordHeaderLen v2)).length < cur.length := by
    intro v2 found hfound hne
    have hle := length_search hfound
    have hpos := List.length_pos_iff.mpr hne
    have hlen : 0 < recordHeaderLen v2 := Nat.succ_pos _
    rw [List.length_drop] at hpos ⊢
    omega
  obtain ⟨rest, hrest, h⟩ := Option.bind_eq_some_iff.mp h
  split_ifs at h with hnil
  obtain rfl := Option.some.inj h
  cases hfirst : strstr cur (recordHeader false) with
  | some found =>
    rw [hfirst] at hrest
    obtain rfl := Option.some.inj hrest
    exact hdrop hfirst hnil
  | none =>
    rw [hfirst] at hrest
    obtain ⟨found, hfound, rfl⟩ := Option.map_eq_some_iff.mp hrest
    exact hdrop hfound hnil

/-- The records are at an end before the fuel is. -/
theorem numMpstats_fuel {fuel fuel' : ℕ} {cur : List UInt8} (h : cur.length < fuel) (h' : cur.length < fuel') :
    numMpstats fuel cur = numMpstats fuel' cur := by
  induction fuel generalizing fuel' cur with
  | zero => exact absurd h (Nat.not_lt_zero _)
  | succ fuel ih =>
    obtain ⟨fuel', rfl⟩ := Nat.exists_eq_add_one_of_ne_zero (Nat.ne_zero_of_lt h')
    rw [numMpstats, numMpstats]
    cases hnext : nextMpstat cur with
    | none => rfl
    | some next =>
      have hlt := length_nextMpstat hnext
      dsimp only
      rw [@ih fuel' next (by omega) (by omega)]

/-- And so are the lines. -/
theorem guessLines_fuel {fuel fuel' : ℕ} {cur : List UInt8} (h : cur.length < fuel) (h' : cur.length < fuel') :
    guessLines fuel cur = guessLines fuel' cur := by
  induction fuel generalizing fuel' cur with
  | zero => exact absurd h (Nat.not_lt_zero _)
  | succ fuel ih =>
    obtain ⟨fuel', rfl⟩ := Nat.exists_eq_add_one_of_ne_zero (Nat.ne_zero_of_lt h')
    rw [guessLines, guessLines]
    cases hnext : nextMpstatLine cur with
    | none => rfl
    | some next =>
      have hlt : next.length < cur.length := length_nextFioLine hnext
      dsimp only
      rw [@ih fuel' next (by omega) (by omega)]

/-! ## Numbers -/

/-- The value of a digit, up to base 16. -/
def digitValue (b : UInt8) : ℕ :=
  if isDigit b then b.toNat - 0x30 else if b < 0x60 then b.toNat - 0x37 else b.toNat - 0x57

def isHexDigit (b : UInt8) : Bool := isDigit b || (0x41 ≤ b && b ≤ 0x46) || (0x61 ≤ b && b ≤ 0x66)

def digitsValue (base : ℕ) (digits : List UInt8) : ℕ :=
  digits.foldl (fun val b => base * val + digitValue b) 0

/-- Digits with a point in them or without, and what is behind; there must be a digit. -/
def mantissa (base : ℕ) (digit : UInt8 → Bool) (cur : List UInt8) : Option (ℚ × List UInt8) :=
  let whole := cur.takeWhile digit
  let rest := cur.drop whole.length
  let point := rest.head? == some 0x2e
  let fraction := if point then rest.tail.takeWhile digit else []
  if whole = [] ∧ fraction = [] then none
  else some (digitsValue base (whole ++ fraction) / base ^ fraction.length,
    if point then rest.tail.drop fraction.length else rest)

/-- An exponent, if there is one. -/
def exponent (mark : List UInt8) (cur : List UInt8) : ℤ × List UInt8 :=
  match cur with
  | [] => (0, [])
  | b :: rest =>
    let negative := rest.head? == some 0x2d
    let rest := if negative || rest.head? == some 0x2b then rest.tail else rest
    let digits := rest.takeWhile isDigit
    if b ∈ mark ∧ digits ≠ [] then
      (if negative then -digitsValue 10 digits else digitsValue 10 digits, rest.drop digits.length)
    else (0, cur)

/-- Capitals as small letters. -/
def lowerCase (b : UInt8) : UInt8 := if 0x41 ≤ b ∧ b ≤ 0x5a then b + 0x20 else b

/-- `inf`, `infinity`, `nan` or `nan(...)`: what is behind. -/
def notFinite (cur : List UInt8) : Option (List UInt8) :=
  let lower := cur.map lowerCase
  if "infinity".toUTF8.toList.isPrefixOf lower then some (cur.drop 8)
  else if "inf".toUTF8.toList.isPrefixOf lower then some (cur.drop 3)
  else if "nan".toUTF8.toList.isPrefixOf lower then
    let rest := cur.drop 3
    let name := rest.tail.takeWhile fun b =>
      isDigit b || b == 0x5f || (0x61 ≤ lowerCase b && lowerCase b ≤ 0x7a)
    if rest.head? = some 0x28 ∧ rest.tail[name.length]? = some 0x29 then some (rest.drop (name.length + 2))
    else some rest
  else none

/-- `strtod`: the number, if it is finite, and `*endptr`; `none` where nothing is converted. -/
def strtod (cur : List UInt8) : Option (Option ℚ × List UInt8) :=
  let cur := cur.dropWhile isSpace
  let negative := cur.head? == some 0x2d
  let cur := if negative || cur.head? == some 0x2b then cur.tail else cur
  let signed (x : ℚ) : Option ℚ := some (if negative then -x else x)
  let hex :=
    if cur.head? = some 0x30 ∧ (cur[1]? = some 0x78 ∨ cur[1]? = some 0x58) then
      mantissa 16 isHexDigit (cur.drop 2)
    else none
  match hex with
  | some (x, rest) => some (signed (x * 2 ^ (exponent [0x70, 0x50] rest).1), (exponent [0x70, 0x50] rest).2)
  | none =>
    match mantissa 10 isDigit cur with
    | some (x, rest) => some (signed (x * 10 ^ (exponent [0x65, 0x45] rest).1), (exponent [0x65, 0x45] rest).2)
    | none => (notFinite cur).map fun rest => (none, rest)

/-! ## Events -/

/-- What `read_mpstat_event` reads. -/
structure MpstatEvent where
  user : Option ℚ
  sys : Option ℚ
  iowait : Option ℚ
  irq : Option ℚ
  soft : Option ℚ

/-- `read_mpstat_event`; `none` where it returns 1. The second number is dropped. -/
def readMpstatEvent (cur : List UInt8) : Option MpstatEvent :=
  let cur := cur.drop 16
  if cur = [] then none
  else
    (strtod cur).bind fun (user, cur) =>
    (strtod cur).bind fun (_, cur) =>
    (strtod cur).bind fun (sys, cur) =>
    (strtod cur).bind fun (iowait, cur) =>
    (strtod cur).bind fun (irq, cur) =>
    (strtod cur).map fun (soft, _) => ⟨user, sys, iowait, irq, soft⟩

/-- A `double` as an unsigned number of 64 bits: the whole part, if there is room for it. -/
def sumOf (val : Option ℚ) : Option UInt64 :=
  val.bind fun x => if -1 < x ∧ x < 2 ^ 64 then some (UInt64.ofNat ⌊x⌋₊) else none

/-! ## The arrays -/

/-- What there is a graph of. -/
inductive MpstatGraph
  | sys
  | irq
  | io
  | soft
  | user
deriving DecidableEq, Repr

def MpstatGraph.index : MpstatGraph → ℕ
  | .sys => 0
  | .irq => 1
  | .io => 2
  | .soft => 3
  | .user => 4

/-- `MPSTAT_GRAPHS`. -/
def mpstatGraphs : ℕ := 5

/-- The value that a graph is of. -/
def MpstatEvent.value (ev : MpstatEvent) : MpstatGraph → Option ℚ
  | .sys => ev.sys
  | .irq => ev.irq
  | .io => ev.iowait
  | .soft => ev.soft
  | .user => ev.user

/-- `add_mpstat_gld` of `tf->mpstat_gld[i + graph]`; `none` where the value does not fit. -/
def addMpstatGld (time : UInt32) (i : ℕ) (ev : MpstatEvent) (gld : ℕ → GraphLineData) (graph : MpstatGraph) :
    Option (ℕ → GraphLineData) :=
  (sumOf (ev.value graph)).map fun sum =>
    Function.update gld (i + graph.index) ((gld (i + graph.index)).access time fun _ => ⟨1, sum⟩)

/-- The five calls of `add_mpstat_gld`. -/
def addMpstat (time : UInt32) (i : ℕ) (ev : MpstatEvent) (gld : ℕ → GraphLineData) :
    Option (ℕ → GraphLineData) :=
  [MpstatGraph.sys, .irq, .soft, .user, .io].foldlM (addMpstatGld time i ev) gld

/-! ## The files -/

/-- A `struct trace_file` with its trace. -/
structure MpstatTrace where
  text : List UInt8
  numCpus : Int32
  minSeconds : UInt32
  maxSeconds : UInt32
  stopSeconds : UInt32
  gld : ℕ → GraphLineData

/-- What `read_traces` makes of the file that `read_mpstat` finds. -/
def readMpstat (text : List UInt8) : MpstatTrace where
  text
  numCpus := countMpstatCpus text
  minSeconds := 0
  maxSeconds := (findLastMpstatTime text).toUInt32
  stopSeconds := (findLastMpstatTime text).toUInt32
  gld _ := allocLineData 0 0 0

/-- `set_all_minmax_tf`. -/
def MpstatTrace.setMinmax (minSeconds maxSeconds : UInt32) (tf : MpstatTrace) : MpstatTrace :=
  if tf.maxSeconds ≠ 0 then
    { tf with
      minSeconds
      maxSeconds
      stopSeconds := if maxSeconds < tf.stopSeconds then maxSeconds else tf.stopSeconds }
  else tf

/-- `setup_trace_file_graphs`; `none` where the number of arrays or the size of one is no `int`. An array is
a header of 32 bytes with 16 bytes for each entry. -/
def MpstatTrace.setup (tf : MpstatTrace) : Option MpstatTrace :=
  if tf.numCpus = 0 then some tf
  else if 0 ≤ (tf.numCpus.toInt + 1) * 5 ∧ (tf.numCpus.toInt + 1) * 5 < 2 ^ 31 ∧
      32 + (tf.maxSeconds.toNat + 1) * 16 < 2 ^ 31 then
    some { tf with gld := fun _ => allocLineData tf.minSeconds tf.maxSeconds tf.maxSeconds }
  else none

/-- Where the reading of a file is. -/
structure Reading where
  cur : List UInt8
  gld : ℕ → GraphLineData
  done : Bool := false

/-- The body of the innermost loop of `read_trace_events`; `done` is the jump to `mpstat_done`. -/
def Reading.line (time : UInt32) (i : ℕ) (r : Reading) : Option Reading :=
  match readMpstatEvent r.cur with
  | none => some { r with done := true }
  | some ev =>
    match nextMpstatLine r.cur with
    | none => some { r with done := true }
    | some next => (addMpstat time i ev r.gld).map fun gld => { r with cur := next, gld }

/-- The loop over the lines of a record. -/
def Reading.record (time : UInt32) : List ℕ → Reading → Option Reading
  | [], r => some r
  | i :: is, r => (r.line time i).bind fun r => if r.done then some r else r.record time is

/-- The loop over the seconds, of which some are left. -/
def Reading.seconds (is : List ℕ) : ℕ → UInt32 → Reading → Option Reading
  | 0, _, r => some r
  | left + 1, time, r =>
    (r.record time is).bind fun r =>
      if r.done then some r
      else
        match nextMpstat r.cur with
        | none => some r
        | some cur => Reading.seconds is left (time + 1) { r with cur }

/-- The values of `i` in the loop over the lines. -/
def MpstatTrace.lines (tf : MpstatTrace) : List ℕ :=
  (List.range (tf.numCpus.toInt + 1).toNat).map (· * mpstatGraphs)

/-- The reading of a file. -/
def MpstatTrace.read (tf : MpstatTrace) : Option Reading :=
  Reading.seconds tf.lines tf.stopSeconds.toNat 0 { cur := firstMpstat tf.text, gld := tf.gld }

/-- The loop of `read_trace_events` over the files. -/
def readFiles : List MpstatTrace → Option (List MpstatTrace)
  | [] => some []
  | tf :: tfs =>
    if tf.numCpus = 0 then (readFiles tfs).map (tf :: ·)
    else
      tf.read.bind fun r =>
        if r.done then some ({ tf with gld := r.gld } :: tfs)
        else (readFiles tfs).map ({ tf with gld := r.gld } :: ·)

/-- **`iowatcher`** up to `read_trace_events`, as far as the files of `mpstat`. -/
def Mpstat.readTraceEvents (minSeconds maxSeconds : UInt32) (texts : List (List UInt8)) :
    Option (List MpstatTrace) :=
  (texts.mapM fun text => ((readMpstat text).setMinmax minSeconds maxSeconds).setup).bind readFiles

end Blktrace.Iowatcher
