import Mathlib

/-!
# `iowatcher/fio.c`: the lines of a bandwidth log

A log is text, a line for each sample: the time in milliseconds, the rate, the direction and the block
size. It is mapped like a trace, so that behind its end there is a zero, and `trace->fio_cur` is what is
left of it from there on.
-/

namespace Blktrace.Iowatcher

/-- The variables that `parse_fio_line` is given. -/
structure FioLine where
  time : Int32 := 0
  rate : Int32 := 0
  dir : Int32 := 0
  bs : Int32 := 0
deriving DecidableEq, Repr

def isSpace (b : UInt8) : Bool := b == 0x20 || (0x09 ≤ b && b ≤ 0x0d)

def isDigit (b : UInt8) : Bool := 0x30 ≤ b && b ≤ 0x39

/-- `atoi`: what `strtol` finds, which stops at the bounds of a `long`, cut to an `int`. -/
def atoi (p : List UInt8) : Int32 :=
  let p := p.dropWhile isSpace
  let negative := p.head? == some 0x2d
  let p := if negative || p.head? == some 0x2b then p.tail else p
  let val : ℤ := (p.takeWhile isDigit).foldl (fun val b => 10 * val + (b.toNat - 0x30 : ℤ)) 0
  Int32.ofInt (max (-2 ^ 63) (min (2 ^ 63 - 1) (if negative then -val else val)))

/-- `index(cur, '\n')`: the line up to the newline, if there is one before a zero. -/
def lineAt (cur : List UInt8) : Option (List UInt8) :=
  let line := cur.takeWhile fun b => b != 0x0a && b != 0
  if cur[line.length]? = some 0x0a then some line else none

/-- What `strtok` cuts a line up into. -/
def fields (line : List UInt8) : List (List UInt8) := (line.splitOn 0x2c).filter (· ≠ [])

/-- `*res[i] = val`: behind the four variables `res` is null, and at an end. -/
def FioLine.set (v : FioLine) : ℕ → Int32 → Option FioLine
  | 0, val => some { v with time := val }
  | 1, val => some { v with rate := val }
  | 2, val => some { v with dir := val }
  | 3, val => some { v with bs := val }
  | _ + 4, _ => none

/-- The loop over the fields. It looks at `*res` and counts `i` up, so that only the fields end it. -/
def FioLine.store (v : FioLine) (i : ℕ) : List Int32 → Option (FioLine × ℕ)
  | [] => some (v, i)
  | val :: vals => (v.set i val).bind fun v => v.store (i + 1) vals

/-- `parse_fio_line`: the variables after it, and `true` for the 1 it returns; `none` where it writes
through a null pointer. -/
def parseFioLine (v : FioLine) (cur : List UInt8) : Option (FioLine × Bool) :=
  match lineAt cur with
  | none => some (v, true)
  | some line => (v.store 0 ((fields line).map atoi)).map fun (v, i) => (v, i < 3)

/-- `next_fio_line`: the new `trace->fio_cur`, `none` where it returns 1. -/
def nextFioLine (cur : List UInt8) : Option (List UInt8) :=
  match lineAt cur with
  | none => none
  | some line =>
    let next := cur.drop (line.length + 1)
    if next = [] then none else some next

/-- The loop of `find_last_fio_time`: its variables and `last_time` at the end. -/
def lastFioLine : ℕ → FioLine → Int32 → List UInt8 → Option (FioLine × Int32)
  | 0, v, lastTime, _ => some (v, lastTime)
  | fuel + 1, v, lastTime, cur =>
    match parseFioLine v cur with
    | none => none
    | some (v, true) => some (v, lastTime)
    | some (v, false) =>
      let lastTime := if v.dir ≤ 1 ∧ v.time > lastTime then v.time else lastTime
      match nextFioLine cur with
      | none => some (v, lastTime)
      | some cur => lastFioLine fuel v lastTime cur

/-- `find_last_fio_time`: `trace->fio_seconds`. Its variables have no values at first, and it goes by
`time`, not by `last_time`. -/
def findLastFioTime (unset : FioLine) (log : List UInt8) : Option Int32 :=
  if log = [] then some 0
  else
    (lastFioLine log.length unset 0 log).map fun (v, _) => Int32.ofInt (-(-v.time.toInt / 1000))

/-- `read_fio_event`: the second, the rate in bytes and the direction, if there is an event. -/
def readFioEvent (cur : List UInt8) : Option (Option (Int32 × UInt64 × Int32)) :=
  if cur = [] then some none
  else
    (parseFioLine {} cur).map fun (v, bad) =>
      if bad then none
      else some (Int32.ofInt (v.time.toInt / 1000), v.rate.toInt64.toUInt64 * 1024, v.dir)

theorem length_nextFioLine {cur next : List UInt8} (h : nextFioLine cur = some next) :
    next.length < cur.length := by
  unfold nextFioLine at h
  cases hline : lineAt cur with
  | none => rw [hline] at h; nomatch h
  | some line =>
    rw [hline] at h
    dsimp only at h
    split_ifs at h with hnil
    obtain rfl := Option.some.inj h
    have hpos := List.length_pos_iff.mpr hnil
    rw [List.length_drop] at *
    omega

/-- The events of a log, up to the line that is none. -/
def fioEvents : ℕ → List UInt8 → List (Int32 × UInt64 × Int32)
  | 0, _ => []
  | fuel + 1, cur =>
    match readFioEvent cur with
    | some (some event) =>
      match nextFioLine cur with
      | none => [event]
      | some cur => event :: fioEvents fuel cur
    | _ => []

/-- The lines of a log, up to the first that is none, have four fields at most. -/
def ShortLines : ℕ → List UInt8 → Prop
  | 0, _ => True
  | fuel + 1, cur =>
    match parseFioLine {} cur with
    | none => False
    | some (_, true) => True
    | some (_, false) => ∀ next ∈ nextFioLine cur, ShortLines fuel next

/-- The lines are at an end before the fuel is. -/
theorem fioEvents_fuel {fuel fuel' : ℕ} {cur : List UInt8} (h : cur.length ≤ fuel)
    (h' : cur.length ≤ fuel') : fioEvents fuel cur = fioEvents fuel' cur := by
  induction fuel generalizing fuel' cur with
  | zero =>
    obtain rfl := List.length_eq_zero_iff.mp (Nat.le_zero.mp h)
    cases fuel' <;> rfl
  | succ fuel ih =>
    cases fuel' with
    | zero =>
      obtain rfl := List.length_eq_zero_iff.mp (Nat.le_zero.mp h')
      rfl
    | succ fuel' =>
      rw [fioEvents, fioEvents]
      cases hnext : nextFioLine cur with
      | none => rfl
      | some next =>
        have hlt := length_nextFioLine hnext
        dsimp only
        rw [@ih fuel' next (by omega) (by omega)]

theorem lastFioLine_fuel {fuel fuel' : ℕ} {cur : List UInt8} (h : cur.length ≤ fuel)
    (h' : cur.length ≤ fuel') (v : FioLine) (lastTime : Int32) :
    lastFioLine fuel v lastTime cur = lastFioLine fuel' v lastTime cur := by
  induction fuel generalizing fuel' cur v lastTime with
  | zero =>
    obtain rfl := List.length_eq_zero_iff.mp (Nat.le_zero.mp h)
    cases fuel' <;> rfl
  | succ fuel ih =>
    cases fuel' with
    | zero =>
      obtain rfl := List.length_eq_zero_iff.mp (Nat.le_zero.mp h')
      rfl
    | succ fuel' =>
      rw [lastFioLine, lastFioLine]
      rcases parseFioLine v cur with _ | ⟨w, _ | _⟩
      · rfl
      · cases hnext : nextFioLine cur with
        | none => rfl
        | some next =>
          have hlt := length_nextFioLine hnext
          exact ih (by omega) (by omega) _ _
      · rfl

-- two samples, the second with a direction the graph leaves out
example : fioEvents 100 "1500,10,0,4096\n2500,3,2\n".toUTF8.toList =
    [(1, 10240, 0), (2, 3072, 2)] := by decide +kernel

/-! ## The fields of a line -/

/-- The variables in the order of `res`. -/
def FioLine.cells (v : FioLine) : List Int32 := [v.time, v.rate, v.dir, v.bs]

/-- A value is stored just if there is a variable for it. -/
theorem FioLine.set_spec (v : FioLine) (i : ℕ) (val : Int32) :
    (i < 4 → ∃ w, v.set i val = some w ∧ w.cells = v.cells.take i ++ val :: v.cells.drop (i + 1)) ∧
      (4 ≤ i → v.set i val = none) := by
  match i with
  | 0 | 1 | 2 | 3 => exact ⟨fun _ => ⟨_, rfl, rfl⟩, fun h => absurd h (by decide)⟩
  | _ + 4 => exact ⟨fun h => absurd h (by omega), fun _ => rfl⟩

/-- **The loop** stores all values, or dies of the fifth. -/
theorem FioLine.store_spec (v : FioLine) {i : ℕ} (vals : List Int32) (hi : i ≤ 4) :
    (i + vals.length ≤ 4 → ∃ w, v.store i vals = some (w, i + vals.length) ∧
      w.cells = v.cells.take i ++ vals ++ v.cells.drop (i + vals.length)) ∧
    (4 < i + vals.length → v.store i vals = none) := by
  induction vals generalizing v i with
  | nil => exact ⟨fun _ => ⟨v, rfl, by simp⟩, fun h => absurd hi (not_le.mpr h)⟩
  | cons val vals ih =>
    rw [FioLine.store, List.length_cons]
    rcases Nat.lt_or_ge i 4 with hlt | hge
    · obtain ⟨w, hset, hcells⟩ := (v.set_spec i val).1 hlt
      obtain ⟨hfits, hdies⟩ := ih w (show i + 1 ≤ 4 by omega)
      rw [hset, Option.bind_some]
      refine ⟨fun hle => ?_, fun hgt => hdies (by omega)⟩
      obtain ⟨w', hstore, hcells'⟩ := hfits (by omega)
      have hsplit : w.cells = (v.cells.take i ++ [val]) ++ v.cells.drop (i + 1) := by simp [hcells]
      have hfront : (v.cells.take i ++ [val]).length = i + 1 := by
        rw [List.length_append, List.length_take_of_le (show i ≤ v.cells.length from hi)]
        rfl
      have htake : w.cells.take (i + 1) = v.cells.take i ++ [val] := by
        rw [hsplit, ← hfront, List.take_left]
      have hdrop : w.cells.drop (i + 1 + vals.length) = v.cells.drop (i + 1 + vals.length) := by
        rw [← List.drop_drop, hsplit, List.drop_left' hfront, List.drop_drop]
      refine ⟨w', by rw [hstore, Nat.add_assoc, Nat.add_comm 1], ?_⟩
      rw [hcells', htake, hdrop]
      simp [Nat.add_assoc, Nat.add_comm 1]
    · rw [(v.set_spec i val).2 hge]
      exact ⟨fun h => absurd h (by omega), fun _ => rfl⟩

/-- `parse_fio_line` of a line. -/
theorem parseFioLine_of_lineAt {cur line : List UInt8} (h : lineAt cur = some line) (v : FioLine) :
    ((fields line).length ≤ 4 → ∃ w, parseFioLine v cur = some (w, decide ((fields line).length < 3)) ∧
      w.cells = (fields line).map atoi ++ v.cells.drop (fields line).length) ∧
    (4 < (fields line).length → parseFioLine v cur = none) := by
  obtain ⟨hfits, hdies⟩ := v.store_spec ((fields line).map atoi) (Nat.zero_le 4)
  rw [List.length_map, Nat.zero_add] at hfits hdies
  rw [parseFioLine, h]
  dsimp only
  constructor
  · intro hle
    obtain ⟨w, hstore, hcells⟩ := hfits hle
    exact ⟨w, by rw [hstore]; rfl, hcells⟩
  · intro hgt
    rw [hdies hgt]
    rfl

/-- What the variables held before does not matter for what is returned. -/
theorem parseFioLine_of_some {v w : FioLine} {cur : List UInt8} {bad : Bool}
    (h : parseFioLine v cur = some (w, bad)) (v' : FioLine) :
    ∃ w', parseFioLine v' cur = some (w', bad) := by
  cases hline : lineAt cur with
  | none =>
    rw [parseFioLine, hline] at h ⊢
    obtain ⟨-, rfl⟩ := Prod.mk.inj (Option.some.inj h)
    exact ⟨v', rfl⟩
  | some line =>
    by_cases hle : (fields line).length ≤ 4
    · obtain ⟨w₁, hparse, -⟩ := (parseFioLine_of_lineAt hline v).1 hle
      obtain ⟨w', hparse', -⟩ := (parseFioLine_of_lineAt hline v').1 hle
      rw [hparse] at h
      obtain ⟨-, rfl⟩ := Prod.mk.inj (Option.some.inj h)
      exact ⟨w', hparse'⟩
    · rw [(parseFioLine_of_lineAt hline v).2 (not_le.mp hle)] at h
      nomatch h

/-- A log that `find_last_fio_time` comes through has short lines. -/
theorem shortLines_of_lastFioLine {fuel : ℕ} {v : FioLine} {lastTime : Int32} {cur : List UInt8}
    (h : (lastFioLine fuel v lastTime cur).isSome) : ShortLines fuel cur := by
  induction fuel generalizing v lastTime cur with
  | zero => trivial
  | succ fuel ih =>
    rw [lastFioLine] at h
    rw [ShortLines]
    cases hparse : parseFioLine v cur with
    | none => rw [hparse] at h; nomatch h
    | some ret =>
      obtain ⟨w, bad⟩ := ret
      obtain ⟨w', hempty⟩ := parseFioLine_of_some hparse {}
      rw [hparse] at h
      rw [hempty]
      cases bad with
      | true => trivial
      | false =>
        intro next hnext
        dsimp only at h
        rw [Option.mem_def.mp hnext] at h
        exact ih h

theorem shortLines_of_findLastFioTime {unset : FioLine} {log : List UInt8}
    (h : (findLastFioTime unset log).isSome) : ShortLines log.length log := by
  unfold findLastFioTime at h
  split_ifs at h with hnil
  · rw [hnil]
    trivial
  · rw [Option.isSome_map] at h
    exact shortLines_of_lastFioLine h

/-- A short line is an event or none. -/
theorem ShortLines.cases {fuel : ℕ} {cur : List UInt8} (h : ShortLines (fuel + 1) cur) :
    readFioEvent cur = some none ∨ ∃ event, readFioEvent cur = some (some event) ∧
      ∀ next ∈ nextFioLine cur, ShortLines fuel next := by
  rw [ShortLines] at h
  unfold readFioEvent
  split_ifs with hnil
  · exact .inl rfl
  cases hparse : parseFioLine {} cur with
  | none => rw [hparse] at h; nomatch h
  | some ret =>
    obtain ⟨v, bad⟩ := ret
    rw [hparse] at h
    cases bad with
    | true => exact .inl rfl
    | false => exact .inr ⟨_, rfl, h⟩

/-- A line of text, without its newline. -/
structure Line where
  text : List UInt8
  plain : ∀ b ∈ text, (b != 0x0a && b != 0) = true

theorem lineAt_line (line : Line) (rest : List UInt8) :
    lineAt (line.text ++ 0x0a :: rest) = some line.text := by
  have htake : (line.text ++ 0x0a :: rest).takeWhile (fun b => b != 0x0a && b != 0) = line.text := by
    rw [List.takeWhile_append_of_pos line.plain, List.takeWhile_cons_of_neg (by decide),
      List.append_nil]
  rw [lineAt, htake, List.getElem?_append_right (le_refl _), Nat.sub_self]
  rfl

/-- What the commas separate. -/
def Line.separated (line : Line) : List (List UInt8) := line.text.splitOn 0x2c

/-- **A line is parsed right**: nothing is written behind the variables, the values of its first fields are
in them, as many as there are variables for, and 0 is returned just if it has three fields. -/
def Parses (line : Line) : Prop :=
  ∀ (v : FioLine) (rest : List UInt8), ∃ w bad,
    parseFioLine v (line.text ++ 0x0a :: rest) = some (w, bad) ∧
      w.cells = (line.separated.take 4).map atoi ++ v.cells.drop (line.separated.length) ∧
      (bad = false ↔ 3 ≤ line.separated.length)

/-- `strtok` passes over what is empty. The fields of the line are then all there are, or those it finds
are four and have the values of the first four. -/
def Line.Regular (line : Line) : Prop :=
  line.separated.length ≤ 4 ∧ [] ∉ line.separated ∨
    4 < line.separated.length ∧ (fields line.text).length = 4 ∧
      (fields line.text).map atoi = (line.separated.take 4).map atoi

theorem fields_eq_iff (line : Line) :
    (fields line.text).length = line.separated.length ↔ [] ∉ line.separated := by
  unfold fields Line.separated
  rw [List.length_filter_eq_length_iff]
  constructor
  · intro h hmem
    exact absurd (h [] hmem) (by simp)
  · intro h f hf
    have hne : f ≠ [] := by
      rintro rfl
      exact h hf
    simpa using hne

theorem length_fields_le (line : Line) : (fields line.text).length ≤ line.separated.length :=
  List.length_filter_le _ _

/-- The variables, all of one value. -/
def FioLine.all (val : Int32) : FioLine := ⟨val, val, val, val⟩

theorem Parses.cells_eq {line : Line} (h : Parses line) :
    (fields line.text).length ≤ 4 ∧ ∀ v : FioLine,
      (fields line.text).map atoi ++ v.cells.drop (fields line.text).length =
        (line.separated.take 4).map atoi ++ v.cells.drop line.separated.length := by
  have hle : (fields line.text).length ≤ 4 := by
    by_contra hgt
    obtain ⟨w, bad, hparse, -⟩ := h {} []
    rw [(parseFioLine_of_lineAt (lineAt_line line []) {}).2 (not_le.mp hgt)] at hparse
    nomatch hparse
  refine ⟨hle, fun v => ?_⟩
  obtain ⟨w, bad, hparse, hcells, -⟩ := h v []
  obtain ⟨w', hparse', hcells'⟩ := (parseFioLine_of_lineAt (lineAt_line line []) v).1 hle
  rw [hparse'] at hparse
  obtain ⟨rfl, -⟩ := Prod.mk.inj (Option.some.inj hparse)
  exact hcells'.symm.trans hcells

/-- A variable for which there is a field is not left as it was. -/
theorem Parses.le_length {line : Line} (h : Parses line) :
    min line.separated.length 4 ≤ (fields line.text).length := by
  obtain ⟨-, hcells⟩ := h.cells_eq
  by_contra hlt
  rw [not_le, lt_min_iff] at hlt
  obtain ⟨hlt, hfour⟩ := hlt
  generalize fields line.text = found at *
  generalize line.separated = all at *
  have hval : ∀ val, some val = ((all.take 4).map atoi)[found.length]? := by
    intro val
    have hat := congrArg (fun l : List Int32 => l[found.length]?) (hcells (.all val))
    rw [List.getElem?_append_right (by simp), List.getElem?_append_left (by simp; omega)] at hat
    rw [← hat, List.length_map, Nat.sub_self, List.getElem?_drop, Nat.add_zero]
    match found.length, hfour with
    | 0, _ | 1, _ | 2, _ | 3, _ => rfl
  exact absurd (Option.some.inj ((hval 0).trans (hval 1).symm)) (by decide)

/-- **`parse_fio_line`** parses the regular lines right, and no others. -/
theorem parses_iff (line : Line) : Parses line ↔ line.Regular := by
  have hle := length_fields_le line
  constructor
  · intro h
    obtain ⟨hfour, hcells⟩ := h.cells_eq
    have hge := h.le_length
    rcases Nat.lt_or_ge 4 line.separated.length with hmany | hfew
    · rw [min_eq_right hmany.le] at hge
      have hexact := le_antisymm hfour hge
      have hvals := hcells {}
      rw [List.drop_eq_nil_of_le (show 4 ≤ _ from hge), List.drop_eq_nil_of_le (show 4 ≤ _ from hmany.le),
        List.append_nil, List.append_nil] at hvals
      exact .inr ⟨hmany, hexact, hvals⟩
    · rw [min_eq_left hfew] at hge
      exact .inl ⟨hfew, (fields_eq_iff line).mp (le_antisymm hle hge)⟩
  · intro h v rest
    have hfour : (fields line.text).length ≤ 4 := by
      rcases h with ⟨hfew, -⟩ | ⟨-, hexact, -⟩
      · exact le_trans hle hfew
      · exact hexact.le
    obtain ⟨w, hparse, hcells⟩ := (parseFioLine_of_lineAt (lineAt_line line rest) v).1 hfour
    refine ⟨w, _, hparse, ?_, ?_⟩
    · rw [hcells]
      rcases h with ⟨hfew, hne⟩ | ⟨hmany, hexact, hvals⟩
      · have hall : fields line.text = line.separated :=
          List.filter_sublist.eq_of_length ((fields_eq_iff line).mpr hne)
        rw [hall, List.take_of_length_le hfew]
      · rw [hvals, List.drop_eq_nil_of_le (show 4 ≤ _ from hexact.ge),
          List.drop_eq_nil_of_le (show 4 ≤ _ from hmany.le)]
    · rw [decide_eq_false_iff_not, not_lt]
      rcases h with ⟨-, hne⟩ | ⟨hmany, hexact, -⟩
      · rw [(fields_eq_iff line).mpr hne]
      · exact iff_of_true (by omega) (by omega)

/-- A line of five fields. -/
def fiveFields : Line where
  text := "1500,10,0,4096,0".toUTF8.toList
  plain := by decide +kernel

/-- The fifth is written through the null pointer. -/
theorem not_parses : ¬ Parses fiveFields := by
  intro h
  exact absurd h.cells_eq.1 (by decide +kernel)

end Blktrace.Iowatcher
