import Blktrace.Lib.Buffer
import Blktrace.Blkparse.Tracks

/-!
# What formatting does with a record

`process_fmt` prints a line about a record: by the format given for the action, or by default. Of the
payload it reads what it prints, whatever its length. And it may write to the record: the default
format of a remap puts the device that the payload names in it.
-/

namespace Blktrace.Blkparse

/-! ## Reading the payload -/

/-- `struct blk_io_trace_remap`. -/
structure BlkIoTraceRemap where
  deviceFrom : UInt32
  deviceTo : UInt32
  sectorFrom : UInt64
deriving DecidableEq

/-- `get_pdu_int`: the word is one of 64 bits, and an `unsigned int` is returned. -/
def getPduInt (pdu : List UInt8) : Option UInt32 := ((Bytes.u64 true).fetch pdu 0).map UInt64.toUInt32

/-- `get_pdu_remap`. -/
def getPduRemap (pdu : List UInt8) : Option BlkIoTraceRemap := do
  let sectorFrom ← (Bytes.u64 true).fetch pdu 8
  let deviceFrom ← (Bytes.u32 true).fetch pdu 0
  let deviceTo ← (Bytes.u32 true).fetch pdu 4
  return ⟨deviceFrom, deviceTo, sectorFrom⟩

/-- The loop of `dump_pdu`, with `n` bytes to go: it stops where the rest is zero. -/
def dumpPduLoop (buf : List UInt8) : ℕ → ℕ → Option (List UInt8)
  | 0, _ => some []
  | n + 1, i => do
    let b ← buf[i]?
    if b = 0 then
      -- `pdu_rest_is_zero`
      let rest ← Buffer.fetch buf i (n + 1)
      if rest.all (· == 0) then return [b]
    let bs ← dumpPduLoop buf n (i + 1)
    return b :: bs

/-- `dump_pdu`: the bytes that it prints. -/
def dumpPdu (buf : List UInt8) (len : ℕ) : Option (List UInt8) := dumpPduLoop buf len 0

/-! ## Formats -/

/-- What is printed of a payload. -/
inductive Shown
  | int (v : UInt32)
  | remap (r : BlkIoTraceRemap)
  | dump (bytes : List UInt8)
deriving DecidableEq

/-- `*act`. -/
def Act.spec : Act → UInt8
  | .Q => 0x51 | .I => 0x49 | .M => 0x4d | .F => 0x46 | .G => 0x47 | .S => 0x53 | .R => 0x52 | .D => 0x44
  | .C => 0x43 | .P => 0x50 | .U => 0x55 | .UT => 0x55 | .X => 0x58 | .B => 0x42 | .A => 0x41

/-- The buffer that `process_fmt` is handed, and its length: `log_pc` hands over the payload. -/
def Line.pduBuf (l : Line) : List UInt8 × ℕ :=
  if l.bit.hasTc blkTcPc then
    match l.act with
    | .D | .C | .I => (l.bit.pdu, l.bit.pduLen.toNat)
    | _ => ([], 0)
  else ([], 0)

/-- `override_format`. -/
abbrev Formats := UInt8 → Option (List UInt8)

/-- Where in a format `process_fmt` is: after a `%`, after a minus sign or a digit of a field, or after a
backslash. -/
inductive FmtState
  | text | percent | field | escape

/-- The field `c` of a format, and what comes behind it: an elapsed time that is not there is an error. -/
def printedField (elapsed : UInt64) (c : UInt8) (behind : List UInt8 × Bool) : List UInt8 × Bool :=
  if c = 0x75 ∧ elapsed = noElapsed then ([], true) else (c :: behind.1, behind.2)

/-- The fields of a format that are printed, and whether `blkparse` exits behind them. -/
def fieldsOf (elapsed : UInt64) : FmtState → List UInt8 → List UInt8 × Bool
  | .text, [] => ([], false)
  | .text, c :: p =>
    if c = 0x25 then fieldsOf elapsed .percent p
    else if c = 0x5c then fieldsOf elapsed .escape p
    else fieldsOf elapsed .text p
  | .percent, [] => ([], false)
  | .percent, c :: p =>
    if c = 0x25 then fieldsOf elapsed .text p
    else if c = 0x2d ∨ (0x30 ≤ c ∧ c ≤ 0x39) then fieldsOf elapsed .field p
    else printedField elapsed c (fieldsOf elapsed .text p)
  | .field, [] => ([], false)
  | .field, c :: p =>
    if 0x30 ≤ c ∧ c ≤ 0x39 then fieldsOf elapsed .field p
    else printedField elapsed c (fieldsOf elapsed .text p)
  | .escape, [] => ([], true)
  | .escape, c :: p =>
    -- b, n, r and t
    if c = 0x62 ∨ c = 0x6e ∨ c = 0x72 ∨ c = 0x74 then fieldsOf elapsed .text p else ([], true)

/-- `print_field`, as far as it reads the payload. -/
def printField (l : Line) (field : UInt8) : Option (List Shown) :=
  if field = 0x50 then (dumpPdu l.pduBuf.1 l.pduBuf.2).map fun bytes => [.dump bytes]
  else if field = 0x55 then (getPduInt l.bit.pdu).map fun v => [.int v]
  else some []

/-- `process_default`: the record afterwards, and what is printed of the payload. -/
def processDefault (l : Line) : Option (BlkIoTrace × List Shown) :=
  match l.act with
  | .R | .C | .D | .I | .Q | .B =>
    if l.bit.hasTc blkTcPc then
      (dumpPdu l.pduBuf.1 l.pduBuf.2).map fun bytes => (l.bit, [.dump bytes])
    else some (l.bit, [])
  | .M | .F | .G | .S | .P => some (l.bit, [])
  | .U | .UT | .X => (getPduInt l.bit.pdu).map fun v => (l.bit, [.int v])
  | .A => (getPduRemap l.bit.pdu).map fun r => ({ l.bit with device := r.deviceTo }, [.remap r])

/-- What a call of `process_fmt` comes to. -/
inductive Formatted
  | done (bit : BlkIoTrace) (shown : List Shown)
  | exit
deriving DecidableEq

/-- `process_fmt`, `none` where it reads beyond the payload. -/
def processFmt (fmts : Formats) (l : Line) : Option Formatted :=
  match fmts l.act.spec with
  | none => (processDefault l).map fun r => .done r.1 r.2
  | some fmt =>
    let (fields, exits) := fieldsOf l.elapsed .text fmt
    (fields.mapM (printField l)).map fun shown => if exits then .exit else .done l.bit shown.flatten

/-! ## How much is read -/

/-- The payload of a record is as long as the record says. -/
def Complete (t : BlkIoTrace) : Prop := t.pdu.length = t.pduLen.toNat

theorem getPduInt_isSome {pdu : List UInt8} : (getPduInt pdu).isSome ↔ 8 ≤ pdu.length := by
  rw [getPduInt, Option.isSome_map, Bytes.Layout.fetch_isSome, Bytes.u64_size, Nat.zero_add]

theorem getPduRemap_isSome {pdu : List UInt8} : (getPduRemap pdu).isSome ↔ 16 ≤ pdu.length := by
  have hsector := @Bytes.Layout.fetch_isSome _ (Bytes.u64 true) pdu 8
  have hfrom := @Bytes.Layout.fetch_isSome _ (Bytes.u32 true) pdu 0
  have hto := @Bytes.Layout.fetch_isSome _ (Bytes.u32 true) pdu 4
  rw [Bytes.u64_size] at hsector
  rw [Bytes.u32_size] at hfrom hto
  rw [getPduRemap]
  cases h : (Bytes.u64 true).fetch pdu 8 with
  | none =>
    rw [h] at hsector
    exact iff_of_false nofun fun hle => nomatch hsector.mpr hle
  | some v =>
    rw [h] at hsector
    have hle := hsector.mp rfl
    obtain ⟨v', hv'⟩ := Option.isSome_iff_exists.mp (hfrom.mpr (by omega))
    obtain ⟨v'', hv''⟩ := Option.isSome_iff_exists.mp (hto.mpr (by omega))
    rw [hv', hv'']
    exact iff_of_true rfl hle

theorem dumpPduLoop_isSome {buf : List UInt8} {n i : ℕ} (h : i + n ≤ buf.length) :
    (dumpPduLoop buf n i).isSome := by
  induction n generalizing i with
  | zero => rfl
  | succ n ih =>
    obtain ⟨bs, hbs⟩ := Option.isSome_iff_exists.mp (@ih (i + 1) (by omega))
    obtain ⟨rest, hrest⟩ := Option.isSome_iff_exists.mp (Buffer.fetch_isSome.mpr h)
    have hi : i < buf.length := by omega
    rw [dumpPduLoop, List.getElem?_eq_getElem hi, hrest, hbs]
    simp only [Option.bind_eq_bind, Option.bind_some, Option.pure_def]
    split_ifs <;> rfl

/-- What `dump_pdu` is handed is all there. -/
theorem dumpPdu_isSome {l : Line} (h : Complete l.bit) : (dumpPdu l.pduBuf.1 l.pduBuf.2).isSome := by
  apply dumpPduLoop_isSome
  rw [Nat.zero_add, Line.pduBuf]
  split_ifs
  · split
    · exact h.ge
    · exact h.ge
    · exact h.ge
    · exact le_rfl
  · exact le_rfl

/-- How many bytes of the payload a line takes. -/
def Line.taken (fmts : Formats) (l : Line) : ℕ :=
  match fmts l.act.spec with
  | none =>
    match l.act with
    | .A => 16
    | .U | .UT | .X => 8
    | _ => 0
  | some fmt => if 0x55 ∈ (fieldsOf l.elapsed .text fmt).1 then 8 else 0

theorem printField_isSome {l : Line} (h : Complete l.bit) {field : UInt8} :
    (printField l field).isSome ↔ (field = 0x55 → 8 ≤ l.bit.pdu.length) := by
  rw [printField]
  split_ifs with hdump hint
  · rw [Option.isSome_map]
    exact iff_of_true (dumpPdu_isSome h) fun hfield => absurd (hdump.symm.trans hfield) (by decide)
  · rw [Option.isSome_map, getPduInt_isSome, forall_prop_of_true hint]
  · exact iff_of_true rfl fun hfield => absurd hfield hint

/-- **`process_fmt`** stays in the payload just if that is as long as what is taken. -/
theorem processFmt_isSome {fmts : Formats} {l : Line} (h : Complete l.bit) :
    (processFmt fmts l).isSome ↔ l.taken fmts ≤ l.bit.pdu.length := by
  rw [processFmt, Line.taken]
  cases fmts l.act.spec with
  | none =>
    have hdump : ∀ g : List UInt8 → BlkIoTrace × List Shown,
        ((dumpPdu l.pduBuf.1 l.pduBuf.2).map g).isSome ↔ 0 ≤ l.bit.pdu.length := fun g => by
      rw [Option.isSome_map]
      exact iff_of_true (dumpPdu_isSome h) (Nat.zero_le _)
    dsimp only
    rw [Option.isSome_map, processDefault]
    cases l.act
    case A => rw [Option.isSome_map, getPduRemap_isSome]
    case U => rw [Option.isSome_map, getPduInt_isSome]
    case UT => rw [Option.isSome_map, getPduInt_isSome]
    case X => rw [Option.isSome_map, getPduInt_isSome]
    case M => simp
    case F => simp
    case G => simp
    case S => simp
    case P => simp
    all_goals
      dsimp only
      split_ifs
      · exact hdump _
      · simp
  | some fmt =>
    dsimp only
    rw [Option.isSome_map, Buffer.mapM_isSome]
    simp only [printField_isSome h]
    by_cases hmem : 0x55 ∈ (fieldsOf l.elapsed .text fmt).1
    · rw [if_pos hmem]
      exact ⟨fun hall => hall _ hmem rfl, fun hle _ _ _ => hle⟩
    · rw [if_neg hmem]
      exact iff_of_true (fun a ha hfield => absurd (hfield ▸ ha) hmem) (Nat.zero_le _)

/-! ## The line of a record -/

/-- The `act` that `dump_trace` formats a record with, if it does. -/
def lineAct (t : BlkIoTrace) : Option Act :=
  if t.isMessage then none
  else if t.hasTc blkTcPc then
    match BlkTa.ofAction t.action with
    | some .queue => some .Q
    | some .getrq => some .G
    | some .sleeprq => some .S
    | some .requeue => some .R
    | some .issue => some .D
    | some .complete => some .C
    | some .insert => some .I
    | _ => none
  else
    match BlkTa.ofAction t.action with
    | some .queue => some .Q
    | some .insert => some .I
    | some .backmerge => some .M
    | some .frontmerge => some .F
    | some .getrq => some .G
    | some .sleeprq => some .S
    | some .requeue => some .R
    | some .issue => some .D
    | some .complete => some .C
    | some .plug => some .P
    | some .unplugIo => some .U
    | some .unplugTimer => some .UT
    | some .split => some .X
    | some .bounce => some .B
    | some .remap => some .A
    | _ => none

/-- **`dump_trace`** formats a record once, if at all. -/
theorem Dumper.dumpText_lines (o : Opts) (malloc : Nat → IoTrack) (d : Dumper) (pdi : Nat) (dev cpu : UInt32)
    (t : BlkIoTrace) : ∃ e, (d.dumpText o malloc pdi dev cpu t).lines =
      d.lines ++ (lineAct t).toList.map (⟨·, t, e⟩) := by
  unfold dumpText lineAct
  split_ifs
  · exact ⟨0, (List.append_nil _).symm⟩
  · unfold dumpTracePc
    cases BlkTa.ofAction t.action with
    | none => exact ⟨0, (List.append_nil _).symm⟩
    | some a =>
      cases a <;> first
        | exact ⟨0, (List.append_nil _).symm⟩
        | exact ⟨noElapsed, by
            simp [accountPcQueue, accountPcRequeue, accountPcIssue, accountPcC]⟩
  · unfold dumpTraceFs
    cases BlkTa.ofAction t.action with
    | none => exact ⟨0, (List.append_nil _).symm⟩
    | some a =>
      cases a
      case insert =>
        refine ⟨(d.logTrackInsert o malloc pdi t).2, ?_⟩
        simp
      case issue =>
        refine ⟨(((d.accountIssue o pdi cpu t (t.hasTc blkTcWrite)).depthUp pdi
          (t.hasTc blkTcWrite)).logTrackIssue o pdi t).2, ?_⟩
        have hlines : (d.accountIssue o pdi cpu t (t.hasTc blkTcWrite)).lines = d.lines := d.account_lines ..
        simp [hlines]
      case complete =>
        refine ⟨(((d.depthDown pdi (t.hasTc blkTcWrite)).accountC o pdi cpu t (t.hasTc blkTcWrite)
          t.bytes.toInt32).logTrackComplete o pdi t).2, ?_⟩
        have hlines : ((d.depthDown pdi (t.hasTc blkTcWrite)).accountC o pdi cpu t (t.hasTc blkTcWrite)
          t.bytes.toInt32).lines = d.lines := by simp [accountC]
        simp [hlines]
      all_goals first
        | exact ⟨0, (List.append_nil _).symm⟩
        | exact ⟨noElapsed, by
            simp [accountM, logMerge, accountRequeue, accountUnplug, accountQueue]⟩

end Blktrace.Blkparse
