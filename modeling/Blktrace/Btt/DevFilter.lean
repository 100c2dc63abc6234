import Blktrace.Btt.IostatTotals
import Mathlib.Data.List.Count
import Mathlib.Data.List.ReduceOption

/-!
# `btt`: the devices that are shown

`dip_foreach_out` and `iostat_dump_stats` go through the string of `-D` as long as `sscanf` finds two numbers,
and call their function for what `__dip_find` returns, which is NULL for a device that no trace was seen of.

A string is its bytes, without the zero at its end. A pointer to a `struct d_info` is the number of the device.
-/

namespace Blktrace.Btt

/-! ## The device table -/

/-- `dev_heads` and `all_devs`. -/
structure DevTable where
  devHeads : ℕ → List UInt32 := fun _ => []
  allDevs : List UInt32 := []

/-- `DEV_HASH`. -/
def devHash (device : UInt32) : ℕ := (((device >>> 20) ^^^ (device &&& 0xfffff)) &&& 127).toNat

namespace DevTable

/-- `__dip_find`. -/
def dipFind (t : DevTable) (device : UInt32) : Option UInt32 :=
  (t.devHeads (devHash device)).find? fun dip => device = dip

/-- `dip_alloc`, as far as the table goes. -/
def dipAlloc (t : DevTable) (device : UInt32) : DevTable :=
  match t.dipFind device with
  | some _ => t
  | none =>
    { devHeads := Function.update t.devHeads (devHash device) (t.devHeads (devHash device) ++ [device])
      allDevs := t.allDevs ++ [device] }

/-- The table after traces of devices were seen. -/
def seen (devices : List UInt32) : DevTable := devices.foldl dipAlloc {}

end DevTable

/-! ## `sscanf` -/

/-- `isspace`. -/
def isSpace (c : UInt8) : Bool := c == 0x20 || (decide (0x09 ≤ c) && decide (c ≤ 0x0d))

def isDigit (c : UInt8) : Bool := decide (0x30 ≤ c) && decide (c ≤ 0x39)

/-- A sign, and what is behind it. -/
def takeSign : List UInt8 → Bool × List UInt8
  | 0x2d :: text => (true, text)
  | 0x2b :: text => (false, text)
  | text => (false, text)

/-- `strtoul` of a sign and digits. Of digits that are too many it is the largest `unsigned long`. -/
def unsignedLong (neg : Bool) (digits : List UInt8) : UInt64 :=
  let n := digits.foldl (fun n c => 10 * n + (c.toNat - 0x30)) 0
  if 2 ^ 64 ≤ n then 0xffffffffffffffff else if neg then -UInt64.ofNat n else UInt64.ofNat n

/-- `%u`, with what is behind the number. -/
def scanUnsigned (text : List UInt8) : Option (UInt32 × List UInt8) :=
  let (neg, text) := takeSign (text.dropWhile isSpace)
  let digits := text.takeWhile isDigit
  if digits = [] then none else some ((unsignedLong neg digits).toUInt32, text.dropWhile isDigit)

/-- `sscanf(p, "%u,%u", &mjr, &mnr)` where it returns 2, and `(mjr << MINORBITS) | mnr`. -/
def scanDev (text : List UInt8) : Option UInt32 :=
  match scanUnsigned text with
  | some (mjr, 0x2c :: rest) => (scanUnsigned rest).map fun mnr => (mjr <<< 20) ||| mnr.1
  | _ => none

/-! ## The loop -/

/-- `p = strchr(p, ';'); if (p) p++`. -/
def nextField (text : List UInt8) : Option (List UInt8) :=
  match text.dropWhile (· ≠ 0x3b) with
  | [] => none
  | _ :: rest => some rest

variable {σ : Type*}

/-- The `while` over the string, for at most `fuel` turns; `none` is that it goes on. -/
def foreachListed (t : DevTable) (func : Option UInt32 → σ → σ) : ℕ → Option (List UInt8) → σ → Option σ
  | 0, _, _ => none
  | _ + 1, none, s => some s
  | fuel + 1, some p, s =>
    match scanDev p with
    | none => some s
    | some device => foreachListed t func fuel (nextField p) (func (t.dipFind device) s)

/-- All devices, or those of the string. -/
def foreachDevs (t : DevTable) (devices : Option (List UInt8)) (func : Option UInt32 → σ → σ) (s : σ) :
    Option σ :=
  match devices with
  | none => some (t.allDevs.foldl (fun s dip => func (some dip) s) s)
  | some p => foreachListed t func (p.length + 2) (some p) s

/-- `dip_foreach_out`. -/
def dipForeachOut (t : DevTable) (devices : Option (List UInt8)) (func : Option UInt32 → σ → σ) (s : σ) :
    Option σ := foreachDevs t devices func s

/-- The call of `__dump_stats`, with the devices, the lines and the totals. It reads from the device at once:
`none` is that there is none. -/
def dumpStatsAt (all : Bool) (lastStart stamp : UInt64) (dip : Option UInt32)
    (run : Option ((UInt32 → DevStats) × List StatLine × StatsT)) :
    Option ((UInt32 → DevStats) × List StatLine × StatsT) :=
  run.bind fun (dips, lines, asp) => dip.map fun d =>
    let one := dumpStats all lastStart stamp (dips d) asp
    (Function.update dips d one.1, lines ++ [one.2.1], one.2.2)

/-- `iostat_dump_stats`, with the loop of its own. -/
def iostatDumpStatsOut (all : Bool) (lastStart stamp : UInt64) (t : DevTable) (devices : Option (List UInt8))
    (dips : UInt32 → DevStats) :
    Option (Option ((UInt32 → DevStats) × List StatLine × StatsT × Option StatLine)) :=
  (foreachDevs t devices (dumpStatsAt all lastStart stamp) (some (dips, [], {}))).map fun run =>
    run.map fun (dips, lines, asp) => (dips, lines, asp, dumpStatsT all stamp asp)

/-! ## What the string lists -/

/-- The devices of its fields, up to the first that does not begin with two numbers. -/
def mentions (text : List UInt8) : List UInt32 :=
  (((text.splitOnP fun c => c == 0x3b).map scanDev).takeWhile Option.isSome).reduceOption

section

variable {field rest : List UInt8}

theorem takeWhile_field {p : UInt8 → Bool} (hp : p 0x3b = false) :
    (field ++ 0x3b :: rest).takeWhile p = field.takeWhile p ∧
      (field ++ 0x3b :: rest).dropWhile p = field.dropWhile p ++ 0x3b :: rest := by
  induction field with
  | nil => simp [hp]
  | cons c field ih =>
    cases hc : p c with
    | true => simp [hc, ih]
    | false => simp [hc]

theorem takeSign_field : takeSign (field ++ 0x3b :: rest) =
    ((takeSign field).1, (takeSign field).2 ++ 0x3b :: rest) := by
  cases field with
  | nil => rfl
  | cons c field =>
    rw [List.cons_append]
    unfold takeSign
    split <;> simp_all

theorem scanUnsigned_field : scanUnsigned (field ++ 0x3b :: rest) =
    (scanUnsigned field).map fun r => (r.1, r.2 ++ 0x3b :: rest) := by
  rw [scanUnsigned, scanUnsigned, (takeWhile_field rfl).2, takeSign_field]
  dsimp only
  rw [(takeWhile_field rfl).1, (takeWhile_field rfl).2]
  split_ifs <;> rfl

/-- `sscanf` does not look beyond a semicolon. -/
theorem scanDev_field : scanDev (field ++ 0x3b :: rest) = scanDev field := by
  rw [scanDev, scanDev, scanUnsigned_field]
  cases scanUnsigned field with
  | none => rfl
  | some r =>
    obtain ⟨mjr, behind⟩ := r
    cases behind with
    | nil => rfl
    | cons c behind =>
      simp only [Option.map_some, List.cons_append]
      split
      case h_1 heq =>
        obtain ⟨rfl, rfl, rfl⟩ : _ ∧ c = 0x2c ∧ _ := by simpa using heq
        rw [scanUnsigned_field, Option.map_map]
        rfl
      case h_2 hne =>
        split
        case h_1 heq =>
          obtain ⟨rfl, rfl, rfl⟩ : _ ∧ c = 0x2c ∧ _ := by simpa using heq
          exact absurd rfl (hne _ _)
        case h_2 => rfl

end

theorem nextField_eq (text : List UInt8) :
    (nextField text = none ∧ text.splitOnP (fun c => c == 0x3b) = [text]) ∨
      ∃ field rest, text = field ++ 0x3b :: rest ∧ nextField text = some rest ∧
        text.splitOnP (fun c => c == 0x3b) = field :: rest.splitOnP (fun c => c == 0x3b) := by
  have hsplit := text.takeWhile_append_dropWhile (p := fun c => c ≠ 0x3b)
  have hfield : ∀ c ∈ text.takeWhile (fun c => c ≠ 0x3b), (c == 0x3b) = false := by
    intro c hc
    simpa using List.mem_takeWhile_imp hc
  rw [nextField]
  cases hdrop : text.dropWhile (fun c => c ≠ 0x3b) with
  | nil =>
    rw [hdrop, List.append_nil] at hsplit
    rw [hsplit] at hfield
    exact Or.inl ⟨rfl, List.splitOnP_eq_singleton hfield⟩
  | cons c rest =>
    have hsemi : c = 0x3b := by
      have hhead := List.head?_dropWhile_not (fun c => decide (c ≠ 0x3b)) text
      rw [hdrop] at hhead
      simpa using hhead
    subst hsemi
    rw [hdrop] at hsplit
    refine Or.inr ⟨_, rest, hsplit.symm, rfl, ?_⟩
    conv_lhs => rw [← hsplit]
    exact List.splitOnP_append_cons_of_forall_mem hfield 0x3b rfl rest

/-- **The loop** calls the function for the devices that are listed, one after the other, and ends. -/
theorem foreachListed_eq (t : DevTable) (func : Option UInt32 → σ → σ) {fuel : ℕ} {text : List UInt8}
    (hfuel : text.length + 1 < fuel) (s : σ) : foreachListed t func fuel (some text) s =
      some ((mentions text).foldl (fun s device => func (t.dipFind device) s) s) := by
  induction fuel generalizing text s with
  | zero => exact absurd hfuel (Nat.not_lt_zero _)
  | succ fuel ih =>
    rw [foreachListed, mentions]
    rcases nextField_eq text with ⟨hnext, hsplit⟩ | ⟨field, rest, rfl, hnext, hsplit⟩
    · -- the last field
      rw [hnext, hsplit]
      cases hscan : scanDev text with
      | none => simp [hscan]
      | some device =>
        cases fuel with
        | zero => omega
        | succ fuel => simp [hscan, foreachListed, List.reduceOption]
    · rw [hnext, hsplit, scanDev_field]
      cases hscan : scanDev field with
      | none => simp [hscan]
      | some device =>
        have hshorter : rest.length + 1 < fuel := by
          rw [List.length_append, List.length_cons] at hfuel
          omega
        rw [List.map_cons, hscan, List.takeWhile_cons_of_pos rfl, List.reduceOption_cons_of_some,
          List.foldl_cons]
        exact ih hshorter _

/-- The devices to call a function for. -/
def listed (t : DevTable) (devices : Option (List UInt8)) : List UInt32 :=
  match devices with
  | none => t.allDevs
  | some text => mentions text

/-- The calls end, are for devices of the table, and are as many for each as it is listed. -/
def CallsRight (t : DevTable) (listed : List UInt32) (calls : Option (List (Option UInt32))) : Prop :=
  ∃ cs, calls = some cs ∧ (∀ c ∈ cs, ∃ d ∈ t.allDevs, c = some d) ∧
    ∀ d ∈ t.allDevs, cs.count (some d) = listed.count d

/-- Both functions call theirs for the devices of the table that are listed. -/
structure FilterRight (t : DevTable) (devices : Option (List UInt8)) : Prop where
  out : CallsRight t (listed t devices) (dipForeachOut t devices (fun dip calls => calls ++ [dip]) [])
  iostat : ∀ all lastStart stamp dips, iostatDumpStatsOut all lastStart stamp t devices dips =
    some (some (iostatDumpStats all lastStart stamp (listed t devices) dips))

/-! ## The table -/

namespace DevTable

/-- The lists of the hash and the list of all have the same devices. -/
def Indexed (t : DevTable) : Prop := ∀ d, d ∈ t.devHeads (devHash d) ↔ d ∈ t.allDevs

/-- **A device** is found if it is in the table. -/
theorem Indexed.dipFind {t : DevTable} (h : t.Indexed) (d : UInt32) :
    t.dipFind d = if d ∈ t.allDevs then some d else none := by
  rw [if_congr (h d).symm rfl rfl, DevTable.dipFind]
  generalize t.devHeads (devHash d) = dips
  induction dips with
  | nil => rfl
  | cons dip dips ih =>
    rw [List.find?_cons]
    by_cases hd : d = dip
    · simp [hd]
    · simp [hd, ih]

theorem Indexed.map_dipFind {t : DevTable} (h : t.Indexed) {ds : List UInt32} (hds : ∀ d ∈ ds, d ∈ t.allDevs) :
    ds.map t.dipFind = ds.map some := by
  apply List.map_congr_left
  intro d hd
  rw [h.dipFind, if_pos (hds d hd)]

theorem Indexed.dipAlloc {t : DevTable} (h : t.Indexed) (device : UInt32) :
    (t.dipAlloc device).Indexed ∧ ∀ d, d ∈ (t.dipAlloc device).allDevs ↔ d ∈ t.allDevs ∨ d = device := by
  rw [DevTable.dipAlloc, h.dipFind]
  by_cases hmem : device ∈ t.allDevs
  · rw [if_pos hmem]
    refine ⟨h, fun d => ?_⟩
    rw [iff_self_or]
    rintro rfl
    exact hmem
  · rw [if_neg hmem]
    refine ⟨fun d => ?_, fun d => by simp⟩
    by_cases hhash : devHash d = devHash device
    · simp [hhash, ← h d]
    · have hne : d ≠ device := by
        rintro rfl
        exact hhash rfl
      simp [Function.update_of_ne hhash, h d, hne]

theorem indexed_seen (trace : List UInt32) :
    (seen trace).Indexed ∧ ∀ d, d ∈ (seen trace).allDevs ↔ d ∈ trace := by
  induction trace using List.reverseRecOn with
  | nil => exact ⟨fun d => Iff.rfl, fun d => Iff.rfl⟩
  | append_singleton trace device ih =>
    obtain ⟨hindexed, hmem⟩ := ih
    have hstep : seen (trace ++ [device]) = (seen trace).dipAlloc device := by simp [seen]
    obtain ⟨hindexed', hmem'⟩ := hindexed.dipAlloc device
    rw [hstep]
    refine ⟨hindexed', fun d => ?_⟩
    rw [hmem', hmem, List.mem_append, List.mem_singleton]

end DevTable

/-! ## The calls -/

theorem foreachDevs_eq {t : DevTable} (ht : t.Indexed) (devices : Option (List UInt8))
    (func : Option UInt32 → σ → σ) (s : σ) : foreachDevs t devices func s =
      some (((listed t devices).map t.dipFind).foldl (fun s dip => func dip s) s) := by
  rw [List.foldl_map]
  cases devices with
  | none =>
    rw [foreachDevs, listed, Option.some_inj]
    apply List.foldl_ext
    intro s d hd
    rw [ht.dipFind, if_pos hd]
  | some text => exact foreachListed_eq t func (Nat.lt_succ_self _) s

theorem foldl_record {α : Type*} (calls past : List α) :
    calls.foldl (fun s dip => s ++ [dip]) past = past ++ calls := by
  induction calls generalizing past with
  | nil => exact (List.append_nil past).symm
  | cons dip calls ih => rw [List.foldl_cons, ih, List.append_assoc, List.singleton_append]

/-- The loop of `iostat_dump_stats` over devices of the table. -/
theorem foldl_dumpStatsAt (all : Bool) (lastStart stamp : UInt64) (devices : List UInt32)
    (dips : UInt32 → DevStats) (lines : List StatLine) (asp : StatsT) :
    (devices.map some).foldl (fun run dip => dumpStatsAt all lastStart stamp dip run) (some (dips, lines, asp)) =
      some ((dumpLoop all lastStart stamp devices dips asp).1,
        lines ++ (dumpLoop all lastStart stamp devices dips asp).2.1,
        (dumpLoop all lastStart stamp devices dips asp).2.2) := by
  induction devices generalizing dips lines asp with
  | nil => simp [dumpLoop]
  | cons d devices ih =>
    rw [List.map_cons, List.foldl_cons, dumpLoop]
    refine (ih _ _ _).trans ?_
    simp

/-- **The filter** is right just if a trace of every device that the string lists was seen. -/
theorem filterRight_iff (trace : List UInt32) (devices : Option (List UInt8)) :
    FilterRight (.seen trace) devices ↔ ∀ text, devices = some text → ∀ d ∈ mentions text, d ∈ trace := by
  obtain ⟨ht, hmem⟩ := DevTable.indexed_seen trace
  have hcalls : dipForeachOut (.seen trace) devices (fun dip calls => calls ++ [dip]) [] =
      some ((listed (.seen trace) devices).map (DevTable.seen trace).dipFind) := by
    rw [dipForeachOut, foreachDevs_eq ht, foldl_record, List.nil_append]
  constructor
  · rintro ⟨⟨cs, hcs, hsafe, -⟩, -⟩ text rfl d hd
    obtain rfl := Option.some.inj (hcalls.symm.trans hcs)
    obtain ⟨d', hd', heq⟩ := hsafe _ (List.mem_map_of_mem hd)
    rw [ht.dipFind] at heq
    split_ifs at heq with hin
    exact (hmem d).mp hin
  · intro h
    have hin : ∀ d ∈ listed (.seen trace) devices, d ∈ (DevTable.seen trace).allDevs := by
      cases devices with
      | none => exact fun d hd => hd
      | some text => exact fun d hd => (hmem d).mpr (h text rfl d hd)
    have hfind := ht.map_dipFind hin
    rw [hfind] at hcalls
    refine ⟨⟨_, hcalls, ?_, ?_⟩, ?_⟩
    · intro c hc
      obtain ⟨d, hd, rfl⟩ := List.mem_map.mp hc
      exact ⟨d, hin d hd, rfl⟩
    · intro d _
      exact List.count_map_of_injective _ some (Option.some_injective _) d
    · intro all lastStart stamp dips
      rw [iostatDumpStatsOut, foreachDevs_eq ht, hfind, foldl_dumpStatsAt]
      simp [iostatDumpStats]

/-- The trace is of the device 8,0, and `-D 8,1` is given. -/
theorem not_filterRight : ¬ FilterRight (.seen [0x800000]) (some [0x38, 0x2c, 0x31]) := by
  rintro ⟨⟨cs, hcs, hsafe, -⟩, -⟩
  have hnull : dipForeachOut (.seen [0x800000]) (some [0x38, 0x2c, 0x31])
      (fun dip calls => calls ++ [dip]) [] = some [none] := by decide
  obtain rfl := Option.some.inj (hnull.symm.trans hcs)
  obtain ⟨d, -, hd⟩ := hsafe none List.mem_cons_self
  nomatch hd

end Blktrace.Btt
