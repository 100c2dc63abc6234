import Blktrace.Blkparse.Slots

/-!
# The three loops of pipe mode

What a turn of each loop does, and the rule by which something kept by every turn holds after the
loop: `showLoop_induction`, `readEvents_induction`, `sortLoop_induction`.

Of the ways out of the wait in `check_sequence` only some are alive in this mode.
`smallest_seq_read` is never lowered from the 0 it was cleared to, so nothing is looked for in
`rb_last`; and no device has a CPU map, so the first record of a CPU never waits for others
(`checkSequence_plain`).
-/

namespace Blktrace.Blkparse

/-! ## The order of the tree -/

/-- Time, then device, then sequence number. -/
def orderKey (bit : BlkIoTrace) : ℕ ×ₗ ℕ ×ₗ ℕ :=
  toLex (bit.time.toNat, toLex (bit.device.toNat, bit.sequence.toNat))

theorem goesLeft_iff (bit other : BlkIoTrace) :
    goesLeft bit other = true ↔ orderKey bit < orderKey other := by
  rw [orderKey, orderKey, Prod.Lex.toLex_lt_toLex, Prod.Lex.toLex_lt_toLex]
  simp only [goesLeft, UInt64.lt_iff_toNat_lt, UInt32.lt_iff_toNat_lt, gt_iff_lt]
  split_ifs <;> simp <;> omega

theorem traceRbInsert_perm (t : Trace) (ts : List Trace) : (traceRbInsert t ts).Perm (t :: ts) := by
  induction ts with
  | nil => exact List.Perm.refl _
  | cons other rest ih =>
    rw [traceRbInsert]
    split
    · exact List.Perm.refl _
    · exact (ih.cons other).trans (List.Perm.swap t other rest)

/-- A tree in order. -/
def TreeSorted (ts : List Trace) : Prop :=
  ts.Pairwise fun a b => orderKey a.bit ≤ orderKey b.bit

theorem traceRbInsert_sorted {t : Trace} {ts : List Trace} (h : TreeSorted ts) :
    TreeSorted (traceRbInsert t ts) := by
  induction ts with
  | nil => exact List.pairwise_singleton _ _
  | cons other rest ih =>
    obtain ⟨hle, hrest⟩ := List.pairwise_cons.mp h
    rw [traceRbInsert]
    split
    case isTrue hlt =>
      have hlt' := (goesLeft_iff t.bit other.bit).mp hlt
      refine List.pairwise_cons.mpr ⟨fun a ha => ?_, h⟩
      rcases List.mem_cons.mp ha with rfl | ha
      · exact hlt'.le
      · exact hlt'.le.trans (hle a ha)
    case isFalse hge =>
      have hge' : orderKey other.bit ≤ orderKey t.bit :=
        not_lt.mp fun hlt => hge ((goesLeft_iff t.bit other.bit).mpr hlt)
      refine List.pairwise_cons.mpr ⟨fun a ha => ?_, ih hrest⟩
      rcases List.mem_cons.mp ((traceRbInsert_perm t rest).mem_iff.mp ha) with rfl | ha
      · exact hge'
      · exact hle a ha

/-! ## The wait -/

theorem checkCpuMap_plain {pdi : PerDevInfo} (hp : pdi.Plain) (ts : List Trace) :
    checkCpuMap pdi ts = false := by
  simp [checkCpuMap, hp.1]

/-- **`check_sequence` of a slot of pipe mode.** -/
theorem checkSequence_plain {pdi : PerDevInfo} (hp : pdi.Plain) (find : Find) (ts : List Trace)
    (bit : BlkIoTrace) (force : Bool) :
    checkSequence find pdi ts bit force =
      if (pdi.cpus bit.cpu).lastSequence + 1 = 0 ∨
          bit.sequence.toUInt64 = (pdi.cpus bit.cpu).lastSequence + 1 then some pdi
      else if force then
        some (pdi.setCpu bit.cpu (skipTo (pdi.cpus bit.cpu)
          ((pdi.cpus bit.cpu).lastSequence + 1) bit.sequence.toUInt64))
      else none := by
  have hzero : ¬ (pdi.cpus bit.cpu).lastSequence + 1 < (pdi.cpus bit.cpu).smallestSeqRead := by
    rw [hp.2, UInt64.lt_iff_toNat_lt]
    exact Nat.not_lt_zero _
  simp only [checkSequence, checkCpuMap_plain hp, if_neg hzero]
  by_cases h0 : (pdi.cpus bit.cpu).lastSequence + 1 = 0
  · simp [h0]
  · by_cases hseq : bit.sequence.toUInt64 = (pdi.cpus bit.cpu).lastSequence + 1
    · simp [hseq]
    · cases force <;> simp [h0, hseq]

theorem checkSequence_dev {pdi pdi' : PerDevInfo} (hp : pdi.Plain) {find : Find} {ts : List Trace}
    {bit : BlkIoTrace} {force : Bool} (h : checkSequence find pdi ts bit force = some pdi') :
    pdi'.dev = pdi.dev ∧ pdi'.Plain := by
  rw [checkSequence_plain hp] at h
  split at h
  · cases h
    exact ⟨rfl, hp⟩
  · split at h
    · cases h
      refine ⟨rfl, hp.1, fun cpu => ?_⟩
      by_cases hcpu : cpu = bit.cpu
      · subst hcpu
        simp only [PerDevInfo.setCpu, Function.update_self, skipTo]
        split
        · exact hp.2 _
        · split <;> exact hp.2 _
      · simp only [PerDevInfo.setCpu, Function.update_of_ne hcpu]
        exact hp.2 cpu
    · cases h

/-- What showing a record does to its slot. -/
theorem show_spec (o : Opts) (pdi : PerDevInfo) (bit : BlkIoTrace) :
    (pdi.show o bit).dev = pdi.dev ∧ (pdi.Plain → (pdi.show o bit).Plain) ∧
      (∀ cpu, cpu ≠ bit.cpu → (pdi.show o bit).cpus cpu = pdi.cpus cpu) ∧
      ((pdi.show o bit).cpus bit.cpu).lastSequence =
        (if bit.isMessage then (pdi.cpus bit.cpu).lastSequence else bit.sequence.toUInt64) ∧
      ((pdi.show o bit).cpus bit.cpu).skips = (pdi.cpus bit.cpu).skips := by
  refine ⟨rfl, fun hp => ⟨hp.1, fun cpu => ?_⟩, fun cpu hcpu => ?_, ?_, ?_⟩
  · by_cases hcpu : cpu = bit.cpu
    · subst hcpu
      cases h : bit.isMessage <;> simp [PerDevInfo.show, traceRbInsertLast, PerDevInfo.setCpu,
        PerDevInfo.checkTime, h, hp.2]
    · simp [PerDevInfo.show, traceRbInsertLast, PerDevInfo.setCpu, PerDevInfo.checkTime,
        Function.update_of_ne hcpu, hp.2]
  · simp [PerDevInfo.show, traceRbInsertLast, PerDevInfo.setCpu, PerDevInfo.checkTime,
      Function.update_of_ne hcpu]
  · cases h : bit.isMessage <;> simp [PerDevInfo.show, traceRbInsertLast, PerDevInfo.setCpu,
      PerDevInfo.checkTime, h]
  · cases h : bit.isMessage <;> simp [PerDevInfo.show, traceRbInsertLast, PerDevInfo.setCpu,
      PerDevInfo.checkTime, h]

/-! ## A pass over the tree -/

/-- The state after a record is shown through slot `i`, which `check_sequence` left as `pdi`. -/
def PipeState.shown (o : Opts) (s : PipeState) (devices : List PerDevInfo) (i : Nat)
    (pdi : PerDevInfo) (bit : BlkIoTrace) : PipeState :=
  { s with
    devices := devices.set i (pdi.show o bit)
    events := if o.masks bit then s.events ++ [.dump i pdi.dev bit.cpu bit] else s.events }

/-- What lets a record out of the tree, and leaves its slot as `pdi'`. -/
def Passes (find : Find) (pdi pdi' : PerDevInfo) (ts : List Trace) (bit : BlkIoTrace)
    (force : Bool) : Prop :=
  (bit.isMessage = true ∧ pdi' = pdi) ∨
    (bit.isMessage = false ∧ checkSequence find pdi ts bit force = some pdi')

/-- **A turn of the loop** stops with the record still in the tree, or shows it. -/
theorem showLoop_cons (o : Opts) (find : Find) (force : Bool) (t : Trace) (rest : List Trace)
    (pdi : Option Nat) (s : PipeState) :
    (∃ devices, (devices = s.devices ∨ devices = (lookDev s.devices pdi t.bit.device).1) ∧
      (force = true ∨ ¬ s.readSequence - t.readSequence < 1 → t.bit.isMessage = false ∧
        checkSequence find (devAt (lookDev s.devices pdi t.bit.device).1
          (lookDev s.devices pdi t.bit.device).2) (t :: rest) t.bit force = none) ∧
      showLoop o find force (t :: rest) pdi s = ({ s with devices, rbSort := t :: rest }, [])) ∨
    ∃ devices i pdi', lookDev s.devices pdi t.bit.device = (devices, i) ∧
      Passes find (devAt devices i) pdi' (t :: rest) t.bit force ∧
      showLoop o find force (t :: rest) pdi s =
        ((showLoop o find force rest (some i) (s.shown o devices i pdi' t.bit)).1,
          t.bit :: (showLoop o find force rest (some i) (s.shown o devices i pdi' t.bit)).2) := by
  have htime : ¬ lastAllowedTime < t.bit.time := not_lt.mpr (Word.le_max _)
  rw [showLoop]
  split
  case isTrue hseq =>
    refine Or.inl ⟨s.devices, Or.inl rfl, fun hgo => ?_, rfl⟩
    rcases hgo with hf | hold <;> simp_all
  case isFalse =>
    generalize hlook : lookDev s.devices pdi t.bit.device = look
    obtain ⟨devices, i⟩ := look
    dsimp only
    cases hm : t.bit.isMessage with
    | true =>
      refine Or.inr ⟨devices, i, devAt devices i, rfl, Or.inl ⟨hm, rfl⟩, ?_⟩
      simp only [if_true, htime, decide_false, Bool.and_false, Bool.false_eq_true, if_false]
      rfl
    | false =>
      simp only [Bool.false_eq_true, if_false]
      cases hcheck : checkSequence find (devAt devices i) (t :: rest) t.bit force with
      | none => exact Or.inl ⟨devices, Or.inr rfl, fun _ => ⟨trivial, rfl⟩, rfl⟩
      | some pdi' =>
        refine Or.inr ⟨devices, i, pdi', rfl, Or.inr ⟨hm, hcheck⟩, ?_⟩
        simp only [htime, decide_false, Bool.and_false, Bool.false_eq_true, if_false]
        rfl

/-- A pass changes the devices, the tree and the log. -/
theorem showLoop_frame (o : Opts) (find : Find) (force : Bool) (ts : List Trace)
    (pdi : Option Nat) (s : PipeState) :
    (showLoop o find force ts pdi s).1 = { s with
      devices := (showLoop o find force ts pdi s).1.devices
      rbSort := (showLoop o find force ts pdi s).1.rbSort
      events := (showLoop o find force ts pdi s).1.events } := by
  induction ts generalizing pdi s with
  | nil => rfl
  | cons t rest ih =>
    rcases showLoop_cons o find force t rest pdi s with
      ⟨devices, -, -, heq⟩ | ⟨devices, i, pdi', -, -, heq⟩
    · rw [heq]
    · rw [heq]
      exact ih (some i) (s.shown o devices i pdi' t.bit)

/-- A pass takes records from the front of the tree. -/
theorem showLoop_split (o : Opts) (find : Find) (force : Bool) (ts : List Trace)
    (pdi : Option Nat) (s : PipeState) :
    ∃ done, ts = done ++ (showLoop o find force ts pdi s).1.rbSort ∧
      (showLoop o find force ts pdi s).2 = done.map Trace.bit := by
  induction ts generalizing pdi s with
  | nil => exact ⟨[], rfl, rfl⟩
  | cons t rest ih =>
    rcases showLoop_cons o find force t rest pdi s with
      ⟨devices, -, -, heq⟩ | ⟨devices, i, pdi', -, -, heq⟩
    · exact ⟨[], by rw [heq]; rfl, by rw [heq]; rfl⟩
    · obtain ⟨done, h1, h2⟩ := ih (some i) (s.shown o devices i pdi' t.bit)
      rw [heq]
      refine ⟨t :: done, ?_, ?_⟩
      · rw [List.cons_append, ← h1]
      · rw [List.map_cons, ← h2]

/-- The records a log dumps. -/
def dumps (events : List Event) : List BlkIoTrace :=
  events.filterMap fun
    | .notify _ _ => none
    | .dump _ _ _ bit => some bit

theorem dumps_append (events events' : List Event) :
    dumps (events ++ events') = dumps events ++ dumps events' := List.filterMap_append

/-- A pass dumps what it takes out, as far as the mask lets it. -/
theorem showLoop_dumps (o : Opts) (find : Find) (force : Bool) (ts : List Trace)
    (pdi : Option Nat) (s : PipeState) :
    dumps (showLoop o find force ts pdi s).1.events
      = dumps s.events ++ (showLoop o find force ts pdi s).2.filter o.masks := by
  induction ts generalizing pdi s with
  | nil => simp [showLoop]
  | cons t rest ih =>
    rcases showLoop_cons o find force t rest pdi s with
      ⟨devices, -, -, heq⟩ | ⟨devices, i, pdi', -, -, heq⟩
    · rw [heq]
      simp
    · rw [heq]
      dsimp only
      rw [ih (some i) (s.shown o devices i pdi' t.bit), List.filter_cons, PipeState.shown]
      cases o.masks t.bit with
      | true => simp [dumps]
      | false => simp

/-! ## The slots in a pass -/

/-- What a whole run keeps of the devices. -/
structure DevsOk (devices : List PerDevInfo) : Prop where
  slotsOk : SlotsOk devices
  plain : ∀ pdi ∈ devices, pdi.Plain

theorem DevsOk.init (names : Nat) : DevsOk (List.replicate names {}) := by
  refine ⟨List.pairwise_replicate.mpr (Or.inr fun h => h), fun pdi h => ?_⟩
  rw [List.eq_of_mem_replicate h]
  exact PerDevInfo.plain_default

theorem DevsOk.look {devices : List PerDevInfo} (h : DevsOk devices) {pdi : Option Nat}
    (hc : CacheOk devices pdi) (dev : UInt32) : DevsOk (lookDev devices pdi dev).1 :=
  have hl := lookDev_looked h.slotsOk hc dev
  ⟨hl.slotsOk, hl.plain h.plain⟩

theorem DevsOk.set {devices : List PerDevInfo} (h : DevsOk devices) {i : Nat} {pdi : PerDevInfo}
    (hdev : pdi.dev = (devAt devices i).dev) (hp : pdi.Plain) : DevsOk (devices.set i pdi) := by
  refine ⟨slotsOk_congr (set_dev hdev) h.slotsOk, fun p hmem => ?_⟩
  rcases List.mem_or_eq_of_mem_set hmem with hmem | rfl
  · exact h.plain p hmem
  · exact hp

theorem CacheOk.set {devices : List PerDevInfo} {cache : Option Nat} (h : CacheOk devices cache)
    {i : Nat} {pdi : PerDevInfo} (hdev : pdi.dev = (devAt devices i).dev) :
    CacheOk (devices.set i pdi) cache := by
  intro j hj
  have hsame : (devAt (devices.set i pdi) j).dev = (devAt devices j).dev := by
    have hlt := (slotOf_spec (h j hj)).1
    by_cases hji : j = i
    · subst hji
      rw [devAt_set_self hlt, hdev]
    · rw [devAt_set_of_ne hji]
  rw [hsame, slotOf_congr (set_dev hdev)]
  exact h j hj

theorem CacheOk.none (devices : List PerDevInfo) : CacheOk devices none := fun _ h => by cases h

theorem Passes.dev {find : Find} {pdi pdi' : PerDevInfo} {ts : List Trace} {bit : BlkIoTrace}
    {force : Bool} (hp : pdi.Plain) (h : Passes find pdi pdi' ts bit force) :
    pdi'.dev = pdi.dev ∧ pdi'.Plain := by
  rcases h with ⟨-, rfl⟩ | ⟨-, h⟩
  · exact ⟨rfl, hp⟩
  · exact checkSequence_dev hp h

/-- **The rule of a pass.** What is kept when a record's slot is looked up, and when the record is
shown, holds after the pass. -/
theorem showLoop_induction {o : Opts} {find : Find} {force : Bool}
    {P : List PerDevInfo → List BlkIoTrace → Prop} {ts : List Trace} {pdi : Option Nat}
    {s : PipeState} {past : List BlkIoTrace}
    (hlook : ∀ devices cache past t, t ∈ ts → DevsOk devices → CacheOk devices cache →
      P devices past → P (lookDev devices cache t.bit.device).1 past)
    (hshow : ∀ devices i pdi' past t rest, t ∈ ts → DevsOk devices →
      slotOf devices t.bit.device = some i →
      Passes find (devAt devices i) pdi' (t :: rest) t.bit force →
      P devices past → P (devices.set i (pdi'.show o t.bit)) (past ++ [t.bit]))
    (hd : DevsOk s.devices) (hc : CacheOk s.devices pdi) (h : P s.devices past) :
    DevsOk (showLoop o find force ts pdi s).1.devices ∧
      P (showLoop o find force ts pdi s).1.devices
        (past ++ (showLoop o find force ts pdi s).2) := by
  induction ts generalizing pdi s past with
  | nil => exact ⟨hd, by simpa [showLoop] using h⟩
  | cons t rest ih =>
    have hlooked := lookDev_looked hd.slotsOk hc t.bit.device
    have hd₁ := hd.look hc t.bit.device
    have h₁ := hlook s.devices pdi past t List.mem_cons_self hd hc h
    rcases showLoop_cons o find force t rest pdi s with
      ⟨devices, hdevices, -, heq⟩ | ⟨devices, i, pdi', hlk, hpass, heq⟩
    · rw [heq]
      dsimp only
      rw [List.append_nil]
      rcases hdevices with rfl | rfl
      · exact ⟨hd, h⟩
      · exact ⟨hd₁, h₁⟩
    · rw [hlk] at hlooked hd₁ h₁
      dsimp only at hlooked hd₁ h₁
      obtain ⟨hdev, hplain⟩ := hpass.dev (devAt_plain hd₁.plain i)
      obtain ⟨hsdev, hsplain, -⟩ := show_spec o pdi' t.bit
      have h₂ := hshow devices i pdi' past t rest List.mem_cons_self hd₁ hlooked.found hpass h₁
      have hd₂ : DevsOk (s.shown o devices i pdi' t.bit).devices :=
        hd₁.set (hsdev.trans hdev) (hsplain hplain)
      have hc₂ : CacheOk (s.shown o devices i pdi' t.bit).devices (some i) :=
        hlooked.cacheOk.set (hsdev.trans hdev)
      obtain ⟨h3, h4⟩ := ih (fun d c p u hu => hlook d c p u (List.mem_cons_of_mem _ hu))
        (fun d j p' p u r hu => hshow d j p' p u r (List.mem_cons_of_mem _ hu)) hd₂ hc₂ h₂
      rw [heq]
      refine ⟨h3, ?_⟩
      rw [List.append_assoc] at h4
      exact h4

/-- The forced pass empties the tree. -/
theorem showLoop_force {o : Opts} {find : Find} {ts : List Trace} {pdi : Option Nat}
    {s : PipeState} (hd : DevsOk s.devices) (hc : CacheOk s.devices pdi) :
    (showLoop o find true ts pdi s).1.rbSort = [] := by
  induction ts generalizing pdi s with
  | nil => rfl
  | cons t rest ih =>
    have hlooked := lookDev_looked hd.slotsOk hc t.bit.device
    have hd₁ := hd.look hc t.bit.device
    rcases showLoop_cons o find true t rest pdi s with
      ⟨devices, -, hstop, -⟩ | ⟨devices, i, pdi', hlk, hpass, heq⟩
    · -- a plain slot lets every record out
      have hnone := (hstop (Or.inl rfl)).2
      rw [checkSequence_plain (devAt_plain hd₁.plain _)] at hnone
      split at hnone <;> simp at hnone
    · rw [hlk] at hlooked hd₁
      obtain ⟨hdev, hplain⟩ := hpass.dev (devAt_plain hd₁.plain i)
      obtain ⟨hsdev, hsplain, -⟩ := show_spec o pdi' t.bit
      rw [heq]
      exact @ih (some i) (s.shown o devices i pdi' t.bit)
        (hd₁.set (hsdev.trans hdev) (hsplain hplain)) (hlooked.cacheOk.set (hsdev.trans hdev))

/-! ## Reading a batch -/

/-- **The rule of a batch read.** -/
theorem readEvents_induction {o : Opts} {P : PipeState → Prop} {input : List (Option BlkIoTrace)}
    {events : Nat} {pdi : Option Nat} {s : PipeState}
    (hnative : ∀ s b, P s → P { s with native := some b })
    (hnotify : ∀ s b bit, P s → P (s.notify b bit))
    (hread : ∀ s cache b raw, some raw ∈ input → DevsOk s.devices → CacheOk s.devices cache →
      verifyTrace (traceToCpu b raw) = false → (traceToCpu b raw).isNotify = false → P s → P { s with
        devices := (lookDev s.devices cache (traceToCpu b raw).device).1
        traceList := ⟨traceToCpu b raw, s.readSequence⟩ :: s.traceList })
    (hd : DevsOk s.devices) (hc : CacheOk s.devices pdi) (h : P s) :
    DevsOk (readEvents o input events pdi s).1.devices ∧ P (readEvents o input events pdi s).1 := by
  induction input generalizing events pdi s with
  | nil => exact ⟨hd, h⟩
  | cons item rest ih =>
    have ih' := fun events {pdi} {s} => @ih events pdi s fun s c b raw hmem =>
      hread s c b raw (List.mem_cons_of_mem _ hmem)
    cases item with
    | none =>
      rw [readEvents]
      split
      · split
        · exact ih' _ hd hc h
        · exact ⟨hd, h⟩
      · exact ⟨hd, h⟩
    | some raw =>
      rw [readEvents]
      split
      case isFalse => exact ⟨hd, h⟩
      case isTrue =>
        cases lookNative s.native raw.magic with
        | none => exact ⟨hd, h⟩
        | some b =>
          dsimp only
          split
          · exact ⟨hd, hnative s b h⟩
          · split
            · exact ih' _ hd hc (hnative s b h)
            case isFalse hv =>
              split
              · exact ih' _ hd hc (hnotify _ b _ (hnative s b h))
              case isFalse hn =>
                have hlooked := lookDev_looked hd.slotsOk hc (traceToCpu b raw).device
                refine ih' _ (hd.look hc _) hlooked.cacheOk ?_
                exact hread { s with native := some b } pdi b raw List.mem_cons_self hd hc
                  (by simpa using hv) (by simpa using hn) (hnative s b h)

/-- The same for what does not hang on the slots. -/
theorem readEvents_rule {o : Opts} {P : PipeState → Prop}
    (hnative : ∀ s b, P s → P { s with native := some b })
    (hnotify : ∀ s b bit, verifyTrace bit = false → bit.isNotify = true → P s → P (s.notify b bit))
    (hread : ∀ s devices t, verifyTrace t.bit = false → t.bit.isNotify = false → P s →
      P { s with devices, traceList := t :: s.traceList })
    (input : List (Option BlkIoTrace)) (events : Nat) (pdi : Option Nat) {s : PipeState}
    (h : P s) : P (readEvents o input events pdi s).1 := by
  induction input generalizing events pdi s with
  | nil => exact h
  | cons item rest ih =>
    cases item with
    | none =>
      rw [readEvents]
      split
      · split
        · exact ih _ _ h
        · exact h
      · exact h
    | some raw =>
      rw [readEvents]
      split
      case isFalse => exact h
      case isTrue =>
        cases lookNative s.native raw.magic with
        | none => exact h
        | some b =>
          have hb := hnative s b h
          dsimp only
          split
          · exact hb
          · split
            · exact ih _ _ hb
            case isFalse hv =>
              split
              case isTrue hnot => exact ih _ _ (hnotify _ b _ (by simpa using hv) hnot hb)
              case isFalse hnot => exact ih _ _ (hread _ _ _ (by simpa using hv) (by simpa using hnot) hb)

/-- A batch read leaves the tree, the passes and what is dumped as they were. -/
theorem readEvents_frame (o : Opts) (input : List (Option BlkIoTrace)) (events : Nat)
    (pdi : Option Nat) (s : PipeState) :
    (readEvents o input events pdi s).1 = { s with
      native := (readEvents o input events pdi s).1.native
      devices := (readEvents o input events pdi s).1.devices
      traceList := (readEvents o input events pdi s).1.traceList
      clock := (readEvents o input events pdi s).1.clock
      events := (readEvents o input events pdi s).1.events } ∧
    dumps (readEvents o input events pdi s).1.events = dumps s.events := by
  apply readEvents_rule (P := fun s' => s' = { s with
    native := s'.native
    devices := s'.devices
    traceList := s'.traceList
    clock := s'.clock
    events := s'.events } ∧ dumps s'.events = dumps s.events)
  · rintro s' b ⟨h, hdumps⟩
    rw [h]
    exact ⟨rfl, hdumps⟩
  · rintro s' b bit - - ⟨h, hdumps⟩
    rw [h]
    refine ⟨rfl, ?_⟩
    rw [PipeState.notify, dumps_append]
    exact (List.append_nil _).trans hdumps
  · rintro s' devices t - - ⟨h, hdumps⟩
    rw [h]
    exact ⟨rfl, hdumps⟩
  · exact ⟨rfl, rfl⟩

/-- What is left of the pipe is a rest of it, and shorter once an event was read. -/
theorem readEvents_rest (o : Opts) (input : List (Option BlkIoTrace)) (events : Nat)
    (pdi : Option Nat) (s : PipeState) :
    (readEvents o input events pdi s).2.2 <:+ input ∧
      (events < (readEvents o input events pdi s).2.1 →
        (readEvents o input events pdi s).2.2.length < input.length) := by
  induction input generalizing events pdi s with
  | nil => exact ⟨List.suffix_refl _, fun h => absurd h (Nat.lt_irrefl _)⟩
  | cons item rest ih =>
    have hstop : rest <:+ item :: rest ∧ (events < events → rest.length < (item :: rest).length) :=
      ⟨List.suffix_cons _ _, fun h => absurd h (Nat.lt_irrefl _)⟩
    have hkeep : item :: rest <:+ item :: rest ∧
        (events < events → (item :: rest).length < (item :: rest).length) :=
      ⟨List.suffix_refl _, fun h => absurd h (Nat.lt_irrefl _)⟩
    have hgo : ∀ events' pdi' s', (readEvents o rest events' pdi' s').2.2 <:+ item :: rest ∧
        (events < (readEvents o rest events' pdi' s').2.1 →
          (readEvents o rest events' pdi' s').2.2.length < (item :: rest).length) := by
      intro events' pdi' s'
      have hsuf := (ih events' pdi' s').1
      exact ⟨hsuf.trans (List.suffix_cons _ _), fun _ => Nat.lt_succ_of_le hsuf.length_le⟩
    cases item with
    | none =>
      rw [readEvents]
      split
      · split
        · exact hgo _ _ _
        · exact hstop
      · exact hkeep
    | some raw =>
      rw [readEvents]
      split
      case isFalse => exact hkeep
      case isTrue =>
        cases lookNative s.native raw.magic with
        | none => exact hstop
        | some b =>
          dsimp only
          split
          · exact hstop
          · split
            · exact hgo _ _ _
            · split
              · exact hgo _ _ _
              · exact hgo _ _ _

/-- The fuel of `doPipe` is enough: more changes nothing. -/
theorem pipeLoop_fuel (o : Opts) (find : Find) {n m : Nat} {input : List (Option BlkIoTrace)}
    (hn : input.length < n) (hm : input.length < m) (s : PipeState) :
    pipeLoop o find n input s = pipeLoop o find m input s := by
  induction n generalizing m input s with
  | zero => exact absurd hn (Nat.not_lt_zero _)
  | succ n ih =>
    cases m with
    | zero => exact absurd hm (Nat.not_lt_zero _)
    | succ m =>
      obtain ⟨-, hlen⟩ := readEvents_rest o input 0 none s
      rw [pipeLoop, pipeLoop]
      generalize readEvents o input 0 none s = r at *
      obtain ⟨s', events, rest⟩ := r
      dsimp only at *
      split
      case isTrue => rfl
      case isFalse hev =>
        have hlt := hlen (Nat.pos_of_ne_zero hev)
        split
        · rfl
        · exact ih (by omega) (by omega) _

/-! ## Sorting a batch -/

/-- A record with its time made relative. -/
def relative (genesis : UInt64) (bit : BlkIoTrace) : BlkIoTrace :=
  { bit with time := bit.time - genesis }

/-- The state after one record is sorted through slot `i`. -/
def PipeState.sorted (o : Opts) (s : PipeState) (devices : List PerDevInfo) (i : Nat) (t : Trace) :
    PipeState :=
  let bit := relative s.genesisTime t.bit
  let s := { s with devices := devices.set i ((devAt devices i).readSeq bit) }
  if checkStopwatch o bit then s
  else
    { s with
      rbSort := traceRbInsert ⟨bit, t.readSequence⟩ s.rbSort
      stored := s.stored ++ [bit] }

/-- The update of `youngest`, for which 0 means that it is not set. -/
def younger (youngest time : UInt64) : UInt64 :=
  if time < youngest || youngest == 0 then time else youngest

theorem sortLoop_cons (o : Opts) (t : Trace) (rest : List Trace) (pdi : Option Nat)
    (youngest : UInt64) (s : PipeState) :
    sortLoop o (t :: rest) pdi youngest s = sortLoop o rest
      (some (lookDev s.devices pdi t.bit.device).2)
      (younger youngest (relative s.genesisTime t.bit).time)
      (s.sorted o (lookDev s.devices pdi t.bit.device).1
        (lookDev s.devices pdi t.bit.device).2 t) := by
  rw [sortLoop, PipeState.sorted]
  cases h : checkStopwatch o (relative s.genesisTime t.bit) with
  | true =>
    rw [relative] at h
    simp only [h, if_true]
    rfl
  | false =>
    rw [relative] at h
    simp only [h, Bool.false_eq_true, if_false]
    rfl

/-- A sorted batch changes the devices, the tree and what was stored. -/
theorem sortLoop_frame (o : Opts) (ts : List Trace) (pdi : Option Nat) (youngest : UInt64)
    (s : PipeState) :
    (sortLoop o ts pdi youngest s).1 = { s with
      devices := (sortLoop o ts pdi youngest s).1.devices
      rbSort := (sortLoop o ts pdi youngest s).1.rbSort
      stored := (sortLoop o ts pdi youngest s).1.stored
      traceList := [] } ∧
    (sortLoop o ts pdi youngest s).2 =
      (ts.map fun t => (relative s.genesisTime t.bit).time).foldl younger youngest := by
  induction ts generalizing pdi youngest s with
  | nil => exact ⟨rfl, rfl⟩
  | cons t rest ih =>
    rw [sortLoop_cons]
    obtain ⟨h1, h2⟩ := ih (some (lookDev s.devices pdi t.bit.device).2)
      (younger youngest (relative s.genesisTime t.bit).time)
      (s.sorted o (lookDev s.devices pdi t.bit.device).1
        (lookDev s.devices pdi t.bit.device).2 t)
    generalize lookDev s.devices pdi t.bit.device = look at *
    have hgen : (s.sorted o look.1 look.2 t).genesisTime = s.genesisTime := by
      rw [PipeState.sorted]
      dsimp only
      split <;> rfl
    refine ⟨?_, ?_⟩
    · rw [h1, PipeState.sorted]
      dsimp only
      split <;> rfl
    · rw [h2, hgen]
      rfl

theorem set_devAt (devices : List PerDevInfo) (i : Nat) :
    devices.set i (devAt devices i) = devices := by
  induction devices generalizing i with
  | nil => rfl
  | cons pdi rest ih =>
    cases i with
    | zero => rfl
    | succ i => exact congrArg (pdi :: ·) (ih i)

theorem readSeq_plain {pdi : PerDevInfo} (hp : pdi.Plain) (bit : BlkIoTrace) :
    pdi.readSeq bit = pdi := by
  have hlow : ¬ bit.sequence.toUInt64 < (pdi.cpus bit.cpu).smallestSeqRead := by
    rw [hp.2, UInt64.lt_iff_toNat_lt]
    exact Nat.not_lt_zero _
  simp only [PerDevInfo.readSeq, if_neg hlow]

/-- **The rule of a sorted batch.** -/
theorem sortLoop_induction {o : Opts} {P : PipeState → List Trace → Prop} {ts : List Trace}
    {pdi : Option Nat} {youngest : UInt64} {s : PipeState}
    (hstep : ∀ s cache t rest, DevsOk s.devices → CacheOk s.devices cache → P s (t :: rest) →
      P ({ s.sorted o s.devices 0 t with
        devices := (lookDev s.devices cache t.bit.device).1 }) rest)
    (hd : DevsOk s.devices) (hc : CacheOk s.devices pdi) (h : P s ts) :
    DevsOk (sortLoop o ts pdi youngest s).1.devices ∧ ∃ s', P s' [] ∧
      (sortLoop o ts pdi youngest s).1 = { s' with traceList := [] } := by
  induction ts generalizing pdi youngest s with
  | nil => exact ⟨hd, s, h, rfl⟩
  | cons t rest ih =>
    have heq := sortLoop_cons o t rest pdi youngest s
    have hlooked := lookDev_looked hd.slotsOk hc t.bit.device
    have hd₁ := hd.look hc t.bit.device
    have hnext := hstep s pdi t rest hd hc h
    generalize lookDev s.devices pdi t.bit.device = look at *
    obtain ⟨devices, i⟩ := look
    dsimp only at *
    -- `smallest_seq_read` stays, so the slot does
    have hsame : s.sorted o devices i t = { s.sorted o s.devices 0 t with devices := devices } := by
      rw [PipeState.sorted, PipeState.sorted, readSeq_plain (devAt_plain hd₁.plain i), set_devAt]
      dsimp only
      split <;> rfl
    rw [heq, hsame]
    exact ih hd₁ hlooked.cacheOk hnext

end Blktrace.Blkparse
