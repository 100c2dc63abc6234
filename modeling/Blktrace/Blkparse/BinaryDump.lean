import Blktrace.Image
import Blktrace.Blkparse.Formats

/-!
# The binary dump

With `-d` the records are written as they are read and dumped. A record that is dumped is formatted
before it is written, and the default format of a remap changes it.
-/

namespace Blktrace.Blkparse

/-- Whether text is put out (`-O`), and in which formats (`-f`, `-F`). -/
structure TextOutput where
  textOutput : Bool
  fmts : Formats

/-! ## One record -/

/-- The device that `get_pdu_remap` finds, with what lies in memory behind the payload. -/
def deviceTo (t : BlkIoTrace) (behind : List UInt8) : UInt32 :=
  (Bytes.u32 true).load ((t.pdu ++ behind).drop 4)

/-- The record that `process_fmt` leaves. -/
def Line.after (fmts : Formats) (behind : List UInt8) (l : Line) : BlkIoTrace :=
  if fmts l.act.spec = none ∧ l.act = .A then { l.bit with device := deviceTo l.bit behind } else l.bit

/-- `process_fmt` exits. -/
def Line.exits (fmts : Formats) (l : Line) : Bool :=
  match fmts l.act.spec with
  | none => false
  | some fmt => (fieldsOf l.elapsed .text fmt).2

theorem u32_load_take (big : Bool) (bs : List UInt8) :
    (Bytes.u32 big).load (bs.take 4) = (Bytes.u32 big).load bs := by
  simp only [Bytes.u32, Bytes.word, List.take_take, min_self]

theorem getPduRemap_deviceTo {t : BlkIoTrace} {r : BlkIoTraceRemap} (h : getPduRemap t.pdu = some r)
    (behind : List UInt8) : r.deviceTo = deviceTo t behind := by
  have hlength := getPduRemap_isSome.mp (Option.isSome_iff_exists.mpr ⟨r, h⟩)
  obtain ⟨sector, -, hrest⟩ := Option.bind_eq_some_iff.mp h
  obtain ⟨dev, -, hrest⟩ := Option.bind_eq_some_iff.mp hrest
  obtain ⟨dev', hdev', hr⟩ := Option.bind_eq_some_iff.mp hrest
  obtain rfl := Option.some.inj hr
  rw [Bytes.Layout.fetch, Buffer.fetch, if_pos (by rw [Bytes.u32_size]; omega), Option.map_some,
    Bytes.u32_size] at hdev'
  rw [← Option.some.inj hdev']
  have hdrop : (t.pdu ++ behind).drop 4 = t.pdu.drop 4 ++ behind :=
    List.drop_append_of_le_length (by omega)
  have htake : ((t.pdu ++ behind).drop 4).take 4 = (t.pdu.drop 4).take 4 := by
    rw [hdrop, List.take_append_of_le_length (by rw [List.length_drop]; omega)]
  show _ = (Bytes.u32 true).load ((t.pdu ++ behind).drop 4)
  rw [← u32_load_take true ((t.pdu ++ behind).drop 4), htake]

theorem processDefault_after {l : Line} {bit : BlkIoTrace} {shown : List Shown}
    (h : processDefault l = some (bit, shown)) (behind : List UInt8) :
    bit = if l.act = .A then { l.bit with device := deviceTo l.bit behind } else l.bit := by
  obtain ⟨act, t, e⟩ := l
  have hpure : ∀ {x : List Shown}, some (t, x) = some (bit, shown) → bit = t := fun hx =>
    (Prod.mk.inj (Option.some.inj hx)).1.symm
  have hread : ∀ {β : Type} {r : Option β} {f : β → List Shown},
      (r.map fun b => (t, f b)) = some (bit, shown) → bit = t := fun hr => by
    obtain ⟨_, _, heq⟩ := Option.map_eq_some_iff.mp hr
    exact (Prod.mk.inj heq).1.symm
  rw [processDefault] at h
  by_cases hremap : act = .A
  · subst hremap
    obtain ⟨r, hr, heq⟩ := Option.map_eq_some_iff.mp h
    rw [if_pos rfl, ← getPduRemap_deviceTo hr behind]
    exact (Prod.mk.inj heq).1.symm
  · rw [if_neg hremap]
    cases act
    case A => exact absurd rfl hremap
    case M => exact hpure h
    case F => exact hpure h
    case G => exact hpure h
    case S => exact hpure h
    case P => exact hpure h
    case U => exact hread h
    case UT => exact hread h
    case X => exact hread h
    all_goals
      dsimp only at h
      split_ifs at h
      · exact hread h
      · exact hpure h

/-- Where nothing is read behind the payload, it is what `process_fmt` says. -/
theorem processFmt_after {fmts : Formats} {l : Line} {r : Formatted} (h : processFmt fmts l = some r)
    (behind : List UInt8) :
    (l.exits fmts = true ∧ r = .exit) ∨ (l.exits fmts = false ∧ ∃ shown, r = .done (l.after fmts behind) shown) := by
  rw [processFmt] at h
  rw [Line.exits, Line.after]
  cases hfmt : fmts l.act.spec with
  | some fmt =>
    rw [hfmt] at h
    obtain ⟨shown, -, hr⟩ := Option.map_eq_some_iff.mp h
    dsimp only
    cases hexit : (fieldsOf l.elapsed .text fmt).2 with
    | true => exact .inl ⟨rfl, by rw [← hr, if_pos hexit]⟩
    | false => exact .inr ⟨rfl, shown.flatten, by rw [← hr, if_neg (by simp [hexit]), if_neg (by simp)]⟩
  | none =>
    rw [hfmt] at h
    obtain ⟨⟨bit, shown⟩, hdefault, hr⟩ := Option.map_eq_some_iff.mp h
    refine .inr ⟨rfl, shown, ?_⟩
    rw [← hr, processDefault_after hdefault behind]
    simp only [true_and]

/-! ## A run -/

namespace Dumper

variable (x : TextOutput) (o : Opts) (malloc : Nat → IoTrack) (msgs : Bool) (behind : ℕ → List UInt8)

/-- `dump_trace`, up to the binary dump: the record that is left, or `none` where formatting exits. -/
def dumpedRecord (d : Dumper) (pdi : Nat) (dev cpu : UInt32) (t : BlkIoTrace) (behind : List UInt8) :
    Option BlkIoTrace :=
  if x.textOutput then
    match (d.dumpText o malloc pdi dev cpu t).lines.drop d.lines.length with
    | [] => some t
    | l :: _ => if l.exits x.fmts then none else some (l.after x.fmts behind)
  else some t

/-- What `output_binary` is called with in a run: a notify when it is read, another record when it is dumped.
`msgs` is `bin_output_msgs`, and `behind n` what lies behind the payload of the `n`-th record. -/
def written (d : Dumper) : ℕ → List Event → Option (List BlkIoTrace)
  | _, [] => some []
  | n, .notify native bit :: events => do
    let bits ← (d.event o malloc (.notify native bit)).written (n + 1) events
    return bit :: bits
  | n, .dump pdi dev cpu t :: events => do
    let bit ← d.dumpedRecord x o malloc pdi dev cpu t (behind n)
    let d := if x.textOutput then d.event o malloc (.dump pdi dev cpu t) else d
    let bits ← d.written (n + 1) events
    return if msgs || !bit.isMessage then bit :: bits else bits

end Dumper

/-- The bytes of the dump. -/
def dumpBytes (bits : List BlkIoTrace) : List UInt8 := bits.flatMap (BlkIoTrace.image false)

/-- The records of a run, as they are read: those that are dumped have their origin subtracted. -/
def readRecords (msgs : Bool) (events : List Event) : List BlkIoTrace :=
  events.flatMap fun
    | .notify _ bit => [bit]
    | .dump _ _ _ t => if msgs || !t.isMessage then [t] else []

/-- A record that is not a remap in the default format, or is on the device that it is mapped to. -/
def KeepsDevice (x : TextOutput) (behind : List UInt8) (t : BlkIoTrace) : Prop :=
  x.textOutput = true → lineAct t = some .A → x.fmts Act.A.spec = none → deviceTo t behind = t.device

section

variable {x : TextOutput} {o : Opts} {malloc : Nat → IoTrack} {msgs : Bool} {behind : ℕ → List UInt8} {d : Dumper}
  {t : BlkIoTrace}

theorem with_device_eq_iff {dev : UInt32} : { t with device := dev } = t ↔ dev = t.device := by
  constructor
  · intro h
    exact congrArg BlkIoTrace.device h
  · rintro rfl
    rfl

/-- What is left of a record. -/
theorem dumpedRecord_eq {pdi : Nat} {dev cpu : UInt32} {behind : List UInt8} {bit : BlkIoTrace}
    (h : d.dumpedRecord x o malloc pdi dev cpu t behind = some bit) :
    bit = if x.textOutput = true ∧ lineAct t = some .A ∧ x.fmts Act.A.spec = none
      then { t with device := deviceTo t behind } else t := by
  obtain ⟨e, hlines⟩ := d.dumpText_lines o malloc pdi dev cpu t
  unfold Dumper.dumpedRecord at h
  rw [hlines, List.drop_left] at h
  cases htext : x.textOutput with
  | false =>
    rw [htext] at h
    obtain rfl := Option.some.inj h
    exact (if_neg fun hremap => nomatch hremap.1).symm
  | true =>
    rw [htext, if_pos rfl] at h
    cases hact : lineAct t with
    | none =>
      rw [hact] at h
      obtain rfl := Option.some.inj h
      exact (if_neg fun hremap => nomatch hremap.2.1).symm
    | some act =>
      rw [hact] at h
      change (if Line.exits x.fmts ⟨act, t, e⟩ = true then none else
        some (Line.after x.fmts behind ⟨act, t, e⟩)) = some bit at h
      rw [Option.ite_none_left_eq_some] at h
      obtain ⟨-, h⟩ := h
      obtain rfl := Option.some.inj h
      unfold Line.after
      dsimp only
      split_ifs with hremap hremap' hremap'
      · rfl
      · obtain ⟨hfmt, rfl⟩ := hremap
        exact absurd ⟨rfl, rfl, hfmt⟩ hremap'
      · obtain ⟨-, ha, hfmt⟩ := hremap'
        obtain rfl := Option.some.inj ha
        exact absurd ⟨hfmt, rfl⟩ hremap
      · rfl

theorem dumpedRecord_cases {pdi : Nat} {dev cpu : UInt32} {behind : List UInt8} {bit : BlkIoTrace}
    (h : d.dumpedRecord x o malloc pdi dev cpu t behind = some bit) :
    bit.isMessage = t.isMessage ∧ (bit = t ↔ KeepsDevice x behind t) := by
  rw [dumpedRecord_eq h, KeepsDevice]
  split_ifs with hremap
  · obtain ⟨htext, hact, hfmt⟩ := hremap
    rw [with_device_eq_iff]
    exact ⟨rfl, fun hdev _ _ _ => hdev, fun hkeeps => hkeeps htext hact hfmt⟩
  · exact ⟨rfl, iff_of_true rfl fun htext hact hfmt => absurd ⟨htext, hact, hfmt⟩ hremap⟩

/-- Only the device is ever changed. -/
theorem dumpedRecord_device {pdi : Nat} {dev cpu : UInt32} {behind : List UInt8} {bit : BlkIoTrace}
    (h : d.dumpedRecord x o malloc pdi dev cpu t behind = some bit) : ∃ device, bit = { t with device := device } := by
  rw [dumpedRecord_eq h]
  split
  · exact ⟨_, rfl⟩
  · exact ⟨t.device, rfl⟩

/-- No remap that is dumped is changed. -/
def KeepsDevices (x : TextOutput) (behind : ℕ → List UInt8) (n : ℕ) (events : List Event) : Prop :=
  ∀ i pdi dev cpu t, events[i]? = some (.dump pdi dev cpu t) → KeepsDevice x (behind (n + i)) t

theorem keepsDevices_cons {n : ℕ} {e : Event} {events : List Event} :
    KeepsDevices x behind n (e :: events) ↔
      (∀ pdi dev cpu t, e = .dump pdi dev cpu t → KeepsDevice x (behind n) t) ∧
        KeepsDevices x behind (n + 1) events := by
  constructor
  · intro h
    refine ⟨fun pdi dev cpu t he => h 0 pdi dev cpu t (congrArg some he), fun i pdi dev cpu t hi => ?_⟩
    rw [add_assoc, add_comm 1]
    exact h (i + 1) pdi dev cpu t hi
  · rintro ⟨hfirst, hrest⟩ i pdi dev cpu t hi
    cases i with
    | zero => exact hfirst pdi dev cpu t (Option.some.inj hi)
    | succ i =>
      rw [add_comm i, ← add_assoc]
      exact hrest i pdi dev cpu t hi

/-- **The records written** are those that were read, just if no remap is changed. -/
theorem written_iff {n : ℕ} {events : List Event} (hends : (d.written x o malloc msgs behind n events).isSome) :
    d.written x o malloc msgs behind n events = some (readRecords msgs events) ↔
      KeepsDevices x behind n events := by
  induction events generalizing d n with
  | nil => exact iff_of_true rfl nofun
  | cons e events ih =>
    rw [keepsDevices_cons]
    cases e with
    | notify native bit =>
      obtain ⟨bits, hbits⟩ := Option.isSome_iff_exists.mp hends
      obtain ⟨rest, hrest, hcons⟩ := Option.bind_eq_some_iff.mp hbits
      have ih := @ih (d.event o malloc (.notify native bit)) (n + 1) (by rw [hrest]; rfl)
      rw [hrest, Option.some_inj] at ih
      obtain rfl := Option.some.inj hcons
      rw [hbits, ← ih, Option.some_inj]
      constructor
      · intro h
        exact ⟨nofun, (List.cons.inj h).2⟩
      · rintro ⟨-, rfl⟩
        rfl
    | dump pdi dev cpu t =>
      obtain ⟨bits, hbits⟩ := Option.isSome_iff_exists.mp hends
      obtain ⟨bit, hbit, hbind⟩ := Option.bind_eq_some_iff.mp hbits
      obtain ⟨rest, hrest, hcons⟩ := Option.bind_eq_some_iff.mp hbind
      obtain ⟨hmessage, hkeeps⟩ := dumpedRecord_cases hbit
      have ih := ih (by rw [hrest]; rfl)
      rw [hrest, Option.some_inj] at ih
      obtain rfl := Option.some.inj hcons
      have hread : readRecords msgs (.dump pdi dev cpu t :: events) =
          (if msgs || !t.isMessage then [t] else []) ++ readRecords msgs events := rfl
      rw [hbits, ← ih, Option.some_inj, hread, hmessage]
      have hevent : (∀ pdi' dev' cpu' t', Event.dump pdi dev cpu t = .dump pdi' dev' cpu' t' →
          KeepsDevice x (behind n) t') ↔ bit = t := by
        rw [hkeeps]
        constructor
        · intro h
          exact h pdi dev cpu t rfl
        · intro h pdi' dev' cpu' t' heq
          obtain ⟨-, -, -, rfl⟩ := Event.dump.inj heq
          exact h
      rw [hevent]
      split_ifs with hwrite
      · rw [List.singleton_append, List.cons.injEq]
      · have hsame : bit = t := by
          refine hkeeps.mpr fun _ hact => ?_
          have hmsg : t.isMessage = true := by
            simpa using (Bool.or_eq_false_iff.mp (Bool.eq_false_iff.mpr hwrite)).2
          rw [lineAct, if_pos hmsg] at hact
          exact nomatch hact
        rw [List.nil_append]
        exact (and_iff_right hsame).symm

/-- **The binary dump** is the same whatever text is put out, and of the records that were read, just if no
remap is changed in either run. -/
theorem binaryDump_iff {x' : TextOutput} {malloc' : Nat → IoTrack} {behind' : ℕ → List UInt8}
    {events : List Event}
    (hends : (({} : Dumper).written x o malloc msgs behind 0 events).isSome)
    (hends' : (({} : Dumper).written x' o malloc' msgs behind' 0 events).isSome) :
    ((({} : Dumper).written x o malloc msgs behind 0 events).map dumpBytes =
        (({} : Dumper).written x' o malloc' msgs behind' 0 events).map dumpBytes ∧
      ({} : Dumper).written x o malloc msgs behind 0 events = some (readRecords msgs events) ∧
      ({} : Dumper).written x' o malloc' msgs behind' 0 events = some (readRecords msgs events)) ↔
      KeepsDevices x behind 0 events ∧ KeepsDevices x' behind' 0 events := by
  rw [← written_iff hends, ← written_iff hends']
  constructor
  · exact And.right
  · intro h
    exact ⟨by rw [h.1, h.2], h⟩

end

/-! ## Two runs -/

/-- A remap from device 7 to device 5, with a device of its own. -/
def remapOn (device : UInt32) : Event :=
  .dump 0 5 0 { queueRecord device 0 1 3 with
    action := 0x0110000f
    pduLen := 16
    pdu := [0, 0, 0, 7, 0, 0, 0, 5, 0, 0, 0, 0, 0, 0, 0, 9] }

/-- A run from scratch, with nothing behind the payloads. -/
def writtenBy (x : TextOutput) (events : List Event) : Option (List BlkIoTrace) :=
  ({} : Dumper).written x {} (fun _ => ⟨0, 0, 0, 0, 0⟩) true (fun _ => []) 0 events

def defaultText : TextOutput := ⟨true, fun _ => none⟩
def noText : TextOutput := ⟨false, fun _ => none⟩

/-- The remap is on the device that it is mapped to. -/
theorem binaryDump_iff_five :
    (writtenBy defaultText [remapOn 5]).map dumpBytes = (writtenBy noText [remapOn 5]).map dumpBytes ∧
      writtenBy defaultText [remapOn 5] = some (readRecords true [remapOn 5]) ∧
      writtenBy noText [remapOn 5] = some (readRecords true [remapOn 5]) := by
  refine (binaryDump_iff (by decide) (by decide)).mpr ⟨?_, ?_⟩
  · refine keepsDevices_cons.mpr ⟨fun pdi dev cpu t he => ?_, nofun⟩
    obtain ⟨-, -, -, rfl⟩ := Event.dump.inj he
    exact fun _ _ _ => by decide
  · refine keepsDevices_cons.mpr ⟨fun _ _ _ _ _ => nofun, nofun⟩

/-- The remap is on another: the dump has the device that it is mapped to, and without text its own. -/
theorem not_binaryDump :
    ¬ ((writtenBy defaultText [remapOn 6]).map dumpBytes = (writtenBy noText [remapOn 6]).map dumpBytes ∧
      writtenBy defaultText [remapOn 6] = some (readRecords true [remapOn 6]) ∧
      writtenBy noText [remapOn 6] = some (readRecords true [remapOn 6])) := by
  rintro ⟨-, hread, -⟩
  revert hread
  decide

end Blktrace.Blkparse
