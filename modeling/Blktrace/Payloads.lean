import Blktrace.Blkparse.Clock
import Blktrace.Blkparse.Formats
import Blktrace.Btt.LifeCycle
import Blktrace.Btt.Processes

/-!
# Reads of payloads

The readers of a record's payload in `blkparse` and in `btt`: which of them are called for a record, and
when they read no byte behind its end. Only the reader of the `TIMESTAMP` notify and those that copy the
whole payload look at the length.
-/

namespace Blktrace

/-! ## `blkparse` -/

namespace Blkparse

/-- `add_ppm_hash`, with a name that lies in a payload: `strncpy` is for 16 bytes. -/
def Procs.addPpmHash' (p : Procs) (pid : UInt32) (name : List UInt8) : Option Procs :=
  match p.findPpm pid with
  | some _ => some p
  | none =>
    (Buffer.scanAtMost (· == 0) 16 name).map fun comm => { p with ppms := ⟨pid, .ofBytes comm⟩ :: p.ppms }

/-- `handle_notify`: the names and the clock after it, and the text of a message. -/
def handleNotify (p : Procs) (c : Clock) (native : Bool) (bit : BlkIoTrace) :
    Option (Procs × Clock × List UInt8) :=
  if bit.action = blkTnProcess then (p.addPpmHash' bit.pid bit.pdu).map fun p => (p, c, [])
  else if bit.action = blkTnTimestamp then
    if bit.pduLen ≠ 8 then some (p, c, [])
    else (Buffer.fetch bit.pdu 0 8).map fun _ => (p, c.notify native bit, [])
  else if bit.action = blkTnMessage then
    if 0 < bit.pduLen then (Buffer.fetch bit.pdu 0 bit.pduLen.toNat).map fun msg => (p, c, msg)
    else some (p, c, [])
  else some (p, c, [])

/-- `output_binary`, as far as it reads the payload. -/
def outputPdu (t : BlkIoTrace) : Option (List UInt8) := Buffer.fetch t.pdu 0 t.pduLen.toNat

section

variable {fmts : Formats} {textOutput : Bool} {p : Procs} {c : Clock} {native : Bool} {t : BlkIoTrace} {e : UInt64}

theorem outputPdu_isSome (h : Complete t) : (outputPdu t).isSome := by
  rw [outputPdu, Buffer.fetch_isSome, Nat.zero_add]
  exact h.ge

/-- The name is the one that is cut off the payload. -/
theorem ofBytes_scanned (bytes : List UInt8) :
    Comm.ofBytes ((bytes.take 16).takeWhile fun b => !(b == 0)) = Comm.ofBytes bytes := by
  have htake : ∀ (n : ℕ) (bs : List UInt8), (((bs.take (n + 1)).takeWhile fun b => !(b == 0)).takeWhile
      (· != 0)).take n = (bs.takeWhile (· != 0)).take n := by
    intro n
    induction n with
    | zero => intro bs; rfl
    | succ n ih =>
      intro bs
      cases bs with
      | nil => rfl
      | cons b bs =>
        rw [List.take_succ_cons]
        by_cases hb : b = 0
        · simp [hb]
        · have hrest := ih bs
          simp only [bne] at hrest ⊢
          simp [hb, hrest]
  simp only [Comm.ofBytes, Comm.mk.injEq]
  exact htake 15 bytes

theorem Procs.addPpmHash'_eq {q : Procs} {name : List UInt8} {pid : UInt32}
    (h : p.addPpmHash' pid name = some q) : q = p.addPpmHash pid (.ofBytes name) := by
  unfold Procs.addPpmHash' at h
  unfold Procs.addPpmHash
  cases hppm : p.findPpm pid with
  | some ppm =>
    rw [hppm] at h
    exact (Option.some.inj h).symm
  | none =>
    rw [hppm] at h
    obtain ⟨comm, hcomm, rfl⟩ := Option.map_eq_some_iff.mp h
    rw [Buffer.scanAtMost_eq, Option.ite_none_right_eq_some] at hcomm
    obtain ⟨-, hcomm⟩ := hcomm
    obtain rfl := Option.some.inj hcomm
    dsimp only
    rw [ofBytes_scanned]

/-- **`handle_notify`** does what `Procs.notify` and `Clock.notify` say, where it stays in the payload. -/
theorem handleNotify_eq {q : Procs} {c' : Clock} {msg : List UInt8}
    (h : handleNotify p c native t = some (q, c', msg)) : q = p.notify t ∧ c' = c.notify native t := by
  unfold handleNotify at h
  unfold Procs.notify
  by_cases hprocess : t.action = blkTnProcess
  · rw [if_pos hprocess] at h ⊢
    obtain ⟨q', hq, heq⟩ := Option.map_eq_some_iff.mp h
    obtain ⟨rfl, hrest⟩ := Prod.mk.inj heq
    obtain ⟨rfl, -⟩ := Prod.mk.inj hrest
    refine ⟨Procs.addPpmHash'_eq hq, (if_neg ?_).symm⟩
    rw [hprocess]
    decide
  · rw [if_neg hprocess] at h ⊢
    by_cases hts : t.action = blkTnTimestamp
    · rw [if_pos hts] at h
      split_ifs at h with hlen
      · obtain ⟨rfl, hrest⟩ := Prod.mk.inj (Option.some.inj h)
        obtain ⟨rfl, -⟩ := Prod.mk.inj hrest
        refine ⟨rfl, ?_⟩
        rw [Clock.notify, if_pos hts, if_pos hlen]
      · obtain ⟨-, -, heq⟩ := Option.map_eq_some_iff.mp h
        obtain ⟨rfl, hrest⟩ := Prod.mk.inj heq
        exact ⟨rfl, (Prod.mk.inj hrest).1.symm⟩
    · rw [if_neg hts] at h
      have hclock : c.notify native t = c := if_neg hts
      have hsame : q = p ∧ c' = c := by
        split_ifs at h
        · obtain ⟨_, _, heq⟩ := Option.map_eq_some_iff.mp h
          obtain ⟨rfl, hrest⟩ := Prod.mk.inj heq
          exact ⟨rfl, (Prod.mk.inj hrest).1.symm⟩
        · obtain ⟨rfl, hrest⟩ := Prod.mk.inj (Option.some.inj h)
          exact ⟨rfl, (Prod.mk.inj hrest).1.symm⟩
        · obtain ⟨rfl, hrest⟩ := Prod.mk.inj (Option.some.inj h)
          exact ⟨rfl, (Prod.mk.inj hrest).1.symm⟩
      exact ⟨hsame.1, hsame.2.trans hclock.symm⟩

/-- Only a `PROCESS` notify of a new pid may be too short for `handle_notify`. -/
theorem handleNotify_isSome (h : Complete t) : (handleNotify p c native t).isSome ↔
    (t.action = blkTnProcess → p.findPpm t.pid = none → 16 ≤ t.pdu.length ∨ 0 ∈ t.pdu) := by
  have hnul : (∃ b ∈ t.pdu, (b == 0) = true) ↔ 0 ∈ t.pdu := by simp
  unfold handleNotify
  by_cases hprocess : t.action = blkTnProcess
  · rw [if_pos hprocess, Option.isSome_map, forall_prop_of_true hprocess, Procs.addPpmHash']
    cases p.findPpm t.pid with
    | some ppm => simp
    | none => rw [Option.isSome_map, Buffer.scanAtMost_isSome, hnul, forall_prop_of_true rfl]
  · refine iff_of_true ?_ fun hp => absurd hp hprocess
    rw [if_neg hprocess]
    split_ifs with hts hlen
    · rfl
    · rw [Option.isSome_map, Buffer.fetch_isSome, h, not_not.mp hlen]
      decide
    · rw [Option.isSome_map]
      exact outputPdu_isSome h
    · rfl
    · rfl

/-- What is done with a record stays in its payload: it is written to the dump, a notify is handled, and a line
is formatted, with an elapsed time `e`. -/
structure InPayload (fmts : Formats) (textOutput : Bool) (p : Procs) (c : Clock) (native : Bool) (t : BlkIoTrace)
    (e : UInt64) : Prop where
  binary : (outputPdu t).isSome
  notify : t.isNotify = true ∨ textOutput = true ∧ t.isMessage = true → (handleNotify p c native t).isSome
  text : t.isNotify = false → textOutput = true → ∀ act ∈ lineAct t, (processFmt fmts ⟨act, t, e⟩).isSome

/-- The name of a new pid is long enough or has an end, and a line finds what it takes. -/
def PayloadSuits (fmts : Formats) (textOutput : Bool) (p : Procs) (t : BlkIoTrace) (e : UInt64) : Prop :=
  (t.action = blkTnProcess → p.findPpm t.pid = none → 16 ≤ t.pdu.length ∨ 0 ∈ t.pdu) ∧
    (t.isNotify = false → textOutput = true →
      ∀ act ∈ lineAct t, Line.taken fmts ⟨act, t, e⟩ ≤ t.pdu.length)

theorem inPayload_iff (h : Complete t) :
    InPayload fmts textOutput p c native t e ↔ PayloadSuits fmts textOutput p t e := by
  have hprocess : t.action = blkTnProcess → t.isNotify = true := by
    intro hp
    rw [BlkIoTrace.isNotify, BlkIoTrace.hasTc, BlkIoTrace.isMessage, hp]
    decide
  have htext : ∀ act, (processFmt fmts ⟨act, t, e⟩).isSome ↔ Line.taken fmts ⟨act, t, e⟩ ≤ t.pdu.length :=
    fun act => @processFmt_isSome fmts ⟨act, t, e⟩ h
  constructor
  · rintro ⟨-, hnotify, hline⟩
    refine ⟨fun hp => ?_, fun hnot hout act hact => (htext act).mp (hline hnot hout act hact)⟩
    exact (handleNotify_isSome h).mp (hnotify (Or.inl (hprocess hp))) hp
  · rintro ⟨hname, hline⟩
    refine ⟨outputPdu_isSome h, fun _ => (handleNotify_isSome h).mpr hname, fun hnot hout act hact => ?_⟩
    exact (htext act).mpr (hline hnot hout act hact)

end

end Blkparse

/-! ## `btt` -/

namespace Btt

open SearchTree

/-- What `add_trace` makes of the payload of a `PROCESS` notify: where `strchr` finds a slash the name ends. It
is read again by `process_alloc`. -/
def processName (t : BlkIoTrace) : Option (List UInt8) :=
  if t.pid = 0 then some (notifiedName 0 [])
  else do
    let front ← Buffer.scan (fun b => b == 0x2f || b == 0) t.pdu
    let slash := t.pdu[front.length]? == some 0x2f
    Buffer.scan (· == 0) (if slash then t.pdu.set front.length 0 else t.pdu)

/-- The payload of a message is copied. -/
def messageText (t : BlkIoTrace) : Option (List UInt8) := Buffer.fetch t.pdu 0 t.pduLen.toNat

section

variable {τ : Type*} [LinearOrder τ] {clock : BitTime τ} {opts : Options τ} {t : BlkIoTrace}

/-- Where the slash or the NUL is, the name ends. -/
theorem processName_split {front rest : List UInt8} {b : UInt8} (hpid : t.pid ≠ 0) (hpdu : t.pdu = front ++ b :: rest)
    (hb : b = 0x2f ∨ b = 0) (hfront : ∀ a ∈ front, a ≠ 0x2f ∧ a ≠ 0) :
    processName t = some front ∧ notifiedName t.pid t.pdu = front := by
  have hscan : Buffer.scan (fun b => b == 0x2f || b == 0) t.pdu = some front := by
    refine Buffer.scan_eq_some_iff.mpr ⟨b, rest, hpdu, ?_, fun a ha => ?_⟩
    · simpa using hb
    · simpa using hfront a ha
  have hnul : ∀ a ∈ front, (a == 0) = false := fun a ha => by simpa using (hfront a ha).2
  constructor
  · rw [processName, if_neg hpid, hscan, hpdu]
    dsimp only [Option.bind_eq_bind, Option.bind_some]
    refine Buffer.scan_eq_some_iff.mpr ⟨0, rest, ?_, rfl, hnul⟩
    rcases hb with rfl | rfl
    · simp
    · simp
  · have hkeep : ∀ f : UInt8 → Bool, (∀ a ∈ front, f a = true) → f b = false →
        (front ++ b :: rest).takeWhile f = front := fun f hf hfb => by
      rw [List.takeWhile_append_of_pos hf, List.takeWhile_cons_of_neg (by simp [hfb]), List.append_nil]
    rw [notifiedName, if_neg hpid, hpdu]
    rcases hb with rfl | rfl
    · rw [List.takeWhile_append_of_pos (by simpa using fun a ha => (hfront a ha).2),
        List.takeWhile_append_of_pos (by simpa using fun a ha => (hfront a ha).1)]
      simp
    · rw [hkeep (fun a => decide (a ≠ 0)) (by simpa using fun a ha => (hfront a ha).2) rfl]
      exact List.takeWhile_eq_self_iff.mpr (by simpa using fun a ha => (hfront a ha).1)

theorem processName_eq {name : List UInt8} (h : processName t = some name) :
    name = notifiedName t.pid t.pdu := by
  by_cases hpid : t.pid = 0
  · rw [processName, if_pos hpid] at h
    rw [← Option.some.inj h, hpid]
    rfl
  · have hbound := h
    rw [processName, if_neg hpid] at hbound
    obtain ⟨front, hscan, -⟩ := Option.bind_eq_some_iff.mp hbound
    obtain ⟨b, rest, hpdu, hb, hfront⟩ := Buffer.scan_eq_some_iff.mp hscan
    obtain ⟨hname, hnotified⟩ := processName_split hpid hpdu (by simpa using hb) (by simpa using hfront)
    rw [hnotified]
    exact Option.some.inj (h.symm.trans hname)

theorem processName_isSome : (processName t).isSome ↔ (t.pid ≠ 0 → 0x2f ∈ t.pdu ∨ 0 ∈ t.pdu) := by
  by_cases hpid : t.pid = 0
  · rw [processName, if_pos hpid]
    exact iff_of_true rfl fun h => absurd hpid h
  · have hends : (0x2f ∈ t.pdu ∨ 0 ∈ t.pdu) ↔ (Buffer.scan (fun b => b == 0x2f || b == 0) t.pdu).isSome := by
      rw [Buffer.scan_isSome]
      constructor
      · rintro (hslash | hnul)
        · exact ⟨_, hslash, rfl⟩
        · exact ⟨_, hnul, rfl⟩
      · rintro ⟨b, hmem, hb⟩
        have hcases : b = 0x2f ∨ b = 0 := by simpa using hb
        rcases hcases with rfl | rfl
        · exact .inl hmem
        · exact .inr hmem
    rw [forall_prop_of_true hpid, hends]
    cases hscan : Buffer.scan (fun b => b == 0x2f || b == 0) t.pdu with
    | none =>
      rw [processName, if_neg hpid, hscan]
      rfl
    | some front =>
      obtain ⟨b, rest, hpdu, hb, hfront⟩ := Buffer.scan_eq_some_iff.mp hscan
      rw [(processName_split hpid hpdu (by simpa using hb) (by simpa using hfront)).1]

/-- **`add_trace`** stops just at a payload that is too short. -/
theorem addTrace_isSome_iff {bal : Balancer Iop} {s : State} :
    (s.addTrace bal opts clock t).isSome ↔ Readable clock opts t := by
  constructor
  · intro h hfate
    dsimp only [State.addTrace] at h
    rw [hfate] at h
    dsimp only [State.analyse] at h
    constructor
    · intro hremap hignore
      rw [hremap] at h
      dsimp only [State.traceRemap] at h
      rw [hignore] at h
      by_contra hshort
      rw [if_neg Bool.false_ne_true, if_pos (not_le.mp hshort)] at h
      exact nomatch h
    · rintro (hunplug | hunplug)
      · rw [hunplug] at h
        dsimp only [State.traceUnplugIo, State.getNioUp] at h
        by_contra hshort
        rw [if_pos (not_le.mp hshort)] at h
        exact nomatch h
      · rw [hunplug] at h
        dsimp only [State.traceUnplugTimer, State.getNioUp] at h
        by_contra hshort
        rw [if_pos (not_le.mp hshort)] at h
        exact nomatch h
  · intro h
    obtain ⟨s', hs'⟩ := @addTrace_isSome τ _ clock opts t bal h s
    rw [hs']
    rfl

variable (clock opts) in
/-- What is done with a record stays in its payload: that of a `PROCESS` notify or a message is read by
`add_trace`, that of an IO by the handlers. -/
structure InPayload (bal : Balancer Iop) (s : State) (t : BlkIoTrace) : Prop where
  name : t.action = blkTnProcess → (processName t).isSome
  message : t.isMessage = true → (messageText t).isSome
  io : (s.addTrace bal opts clock t).isSome

variable (clock opts) in
/-- The name of a pid but 0 has an end, and an IO has the words that are read. -/
def PayloadSuits (t : BlkIoTrace) : Prop :=
  (t.action = blkTnProcess → t.pid ≠ 0 → 0x2f ∈ t.pdu ∨ 0 ∈ t.pdu) ∧ Readable clock opts t

theorem inPayload_iff {bal : Balancer Iop} {s : State} (h : Blkparse.Complete t) :
    InPayload clock opts bal s t ↔ PayloadSuits clock opts t := by
  constructor
  · rintro ⟨hname, -, hio⟩
    exact ⟨fun hp => processName_isSome.mp (hname hp), addTrace_isSome_iff.mp hio⟩
  · rintro ⟨hname, hio⟩
    exact ⟨fun hp => processName_isSome.mpr (hname hp), fun _ => Blkparse.outputPdu_isSome h,
      addTrace_isSome_iff.mpr hio⟩

end

end Btt

/-! ## Both programs -/

/-- **Reads of payloads**: all that both programs read of a record is in its payload just if that suits what
they take it for. -/
theorem payloadReads_iff {t : BlkIoTrace} (h : Blkparse.Complete t) (fmts : Blkparse.Formats) (textOutput : Bool)
    (p : Blkparse.Procs) (c : Blkparse.Clock) (native : Bool) (e : UInt64) {τ : Type*} [LinearOrder τ]
    (clock : Btt.BitTime τ) (opts : Btt.Options τ) (bal : SearchTree.Balancer Btt.Iop) (s : Btt.State) :
    (Blkparse.InPayload fmts textOutput p c native t e ∧ Btt.InPayload clock opts bal s t) ↔
      Blkparse.PayloadSuits fmts textOutput p t e ∧ Btt.PayloadSuits clock opts t := by
  rw [Blkparse.inPayload_iff h, Btt.inPayload_iff h]

/-- A remap with a payload of zeros. -/
def remapOf (pduLen : UInt16) : BlkIoTrace :=
  { Blkparse.queueRecord 5 0 1 3 with
    action := 0x0110000f
    pduLen := pduLen
    pdu := List.replicate pduLen.toNat 0 }

theorem complete_remapOf (pduLen : UInt16) : Blkparse.Complete (remapOf pduLen) := List.length_replicate

/-- A remap with the 16 bytes. -/
theorem payloadReads_iff_sixteen :
    Blkparse.InPayload (fun _ => none) true {} {} true (remapOf 16) 0 ∧
      Btt.InPayload Btt.exactTime Btt.plainOptions Btt.listBalancer {} (remapOf 16) := by
  have hact : Blkparse.lineAct (remapOf 16) = some .A := by decide
  refine (payloadReads_iff (complete_remapOf 16) _ _ _ _ _ _ _ _ _ _).mpr ⟨⟨nofun, ?_⟩, nofun, ?_⟩
  · intro _ _ act hmem
    obtain rfl : Blkparse.Act.A = act := Option.some.inj (hact.symm.trans hmem)
    decide
  · intro _
    exact ⟨fun _ _ => by decide, by rintro (h | h) <;> exact absurd h (by decide)⟩

/-- A valid remap with 8 bytes: both programs read on behind them. -/
theorem not_inPayload : verifyTrace (remapOf 8) = false ∧
    ¬ Blkparse.InPayload (fun _ => none) true {} {} true (remapOf 8) 0 ∧
    ¬ Btt.InPayload Btt.exactTime Btt.plainOptions Btt.listBalancer {} (remapOf 8) := by
  refine ⟨by decide, fun h => ?_, fun h => ?_⟩
  · have hline := h.text (by decide) rfl .A (by decide)
    revert hline
    decide
  · have hio := h.io
    revert hio
    decide

end Blktrace
