import Blktrace.Lib.Arrivals
import Blktrace.TraceFile
import Blktrace.Blkparse.PipeRun

/-!
# The bytes of a pipe

`read_events` takes a record in two reads, of its header and of its payload. Only the first read of a header may
find nothing: a read that has begun waits for the rest. So what the loops over records are given is what the bytes
carry, and the moments between two records, however the bytes come in.
-/

namespace Blktrace.Blkparse.Fd

open Arrivals

/-! ## The functions -/

/-- `read_data`, with `got` already read: what it has read, none where it returns 1. -/
def readData (block : Bool) : Arrivals UInt8 → ℕ → List UInt8 → Option (List UInt8) × Arrivals UInt8
  | [], bytes, got => (if bytes = 0 then some got else none, [])
  | none :: as, bytes, got =>
    if bytes = 0 then (some got, none :: as)
    else if got = [] ∧ block = false then (none, as)
    else readData block as bytes got
  | some bs :: as, bytes, got =>
    if bytes = 0 then (some got, some bs :: as)
    else if bytes < bs.length then (some (got ++ bs.take bytes), some (bs.drop bytes) :: as)
    else readData block as (bytes - bs.length) (got ++ bs)

/-- `get_pdulen`. -/
def getPdulen (native : Bool) (bit : BlkIoTrace) : ℕ :=
  if native then bit.pduLen.toNat else (bswap16 bit.pduLen).toNat

/-- The loop of `read_events`, for at most `fuel` turns. -/
def readEvents (o : Opts) : ℕ → Arrivals UInt8 → Nat → Option Nat → PipeState →
    PipeState × Nat × Arrivals UInt8
  | 0, as, events, _, s => (s, events, as)
  | fuel + 1, as, events, pdi, s =>
    if events < o.rbBatch then
      match readData (decide (events = 0)) as traceSize [] with
      | (none, as) => (s, events, as)
      | (some hdr, as) =>
        let bit := loadTrace hdr
        match lookNative s.native bit.magic with
        | none => (s, events, as)
        | some b =>
          let s := { s with native := some b }
          if !checkMagic (getMagic b bit) then (s, events, as)
          else
            -- a payload of no bytes is not read
            match readData true as (getPdulen b bit) [] with
            | (none, as) => (s, events, as)
            | (some pdu, as) =>
              let bit := traceToCpu b { bit with pdu := pdu }
              if verifyTrace bit then readEvents o fuel as events pdi s
              else if bit.isNotify then readEvents o fuel as events pdi (s.notify b bit)
              else
                let (devices, i) := lookDev s.devices pdi bit.device
                readEvents o fuel as (events + 1) (some i)
                  { s with devices, traceList := ⟨bit, s.readSequence⟩ :: s.traceList }
    else (s, events, as)

/-- The `while` of `do_pipe`, for at most `fuel` turns. -/
def pipeLoop (o : Opts) (find : Find) : ℕ → Arrivals UInt8 → PipeState → PipeState
  | 0, _, s => s
  | fuel + 1, as, s =>
    let (s, events, rest) := readEvents o (weight as) as 0 none s
    if events = 0 then s
    else
      let (s, youngest) := sortEntries o { s with readSequence := s.readSequence + 1 }
      if o.stopwatchEnd < youngest then s
      else pipeLoop o find fuel rest (showEntriesRb o find false s)

/-- `do_pipe`. -/
def doPipe (o : Opts) (find : Find) (names : Nat) (as : Arrivals UInt8) : PipeState :=
  let s := pipeLoop o find (weight as + 1) as (.init names)
  if s.rbSort = [] then s else showEntriesRb o find true s

/-! ## A read -/

/-- A read that may wait, or has begun, waits. -/
theorem readData_await {block : Bool} (as : Arrivals UInt8) (bytes : ℕ) {got : List UInt8}
    (h : block = true ∨ got ≠ []) : readData block as bytes got = as.await bytes got := by
  induction as generalizing bytes got with
  | nil => rfl
  | cons a as ih =>
    cases a with
    | none =>
      have hwait : ¬ (got = [] ∧ block = false) := by
        rintro ⟨hgot, hblock⟩
        rcases h with h | h
        · rw [h] at hblock
          cases hblock
        · exact h hgot
      rw [readData, await, if_neg hwait, ih bytes h]
    | some bs =>
      rw [readData, await]
      split_ifs with hzero hlt
      · rfl
      · rfl
      · exact ih _ (h.imp_right fun hgot => by simp [hgot])

/-- A read that finds something waits for the rest. -/
theorem readData_some {bs : List UInt8} (hbs : bs ≠ []) (block : Bool) (as : Arrivals UInt8) (bytes : ℕ) :
    readData block (some bs :: as) bytes [] = await (some bs :: as) bytes [] := by
  rw [readData, await]
  split_ifs with hzero hlt
  · rfl
  · rfl
  · exact readData_await as _ (.inr hbs)

/-- A read of more than there is. -/
theorem readData_of_lt {as : Arrivals UInt8} {bytes : ℕ} (h : as.all.length < bytes) (block : Bool)
    (got : List UInt8) : ∃ rest, readData block as bytes got = (none, rest) ∧ rest <:+ as := by
  have hzero : bytes ≠ 0 := Nat.ne_of_gt (Nat.zero_lt_of_lt h)
  induction as generalizing bytes got with
  | nil => exact ⟨[], by rw [readData, if_neg hzero], List.suffix_refl _⟩
  | cons a as ih =>
    cases a with
    | none =>
      rw [readData, if_neg hzero]
      split_ifs
      · exact ⟨as, rfl, List.suffix_cons _ _⟩
      · obtain ⟨rest, hread, hsuf⟩ := ih h got hzero
        exact ⟨rest, hread, hsuf.trans (List.suffix_cons _ _)⟩
    | some bs =>
      rw [all_some, List.length_append] at h
      rw [readData, if_neg hzero, if_neg (by omega)]
      obtain ⟨rest, hread, hsuf⟩ := @ih (bytes - bs.length) (by omega) (got ++ bs) (by omega)
      exact ⟨rest, hread, hsuf.trans (List.suffix_cons _ _)⟩

/-! ## What the bytes carry -/

/-- The bytes carry these records, with these moments between them, for a reader that takes them for
`native`. -/
inductive Carries : Option Bool → Arrivals UInt8 → List (Option BlkIoTrace) → Prop
  /-- No header is left. -/
  | ends {native : Option Bool} {as : Arrivals UInt8} (h : as.all.length < traceSize) : Carries native as []
  | pause {native : Option Bool} {as : Arrivals UInt8} {input : List (Option BlkIoTrace)}
    (h : Carries native as input) : Carries native (none :: as) (none :: input)
  /-- The payload is cut. -/
  | cut {b : Bool} {bs hdr : List UInt8} {as rest : Arrivals UInt8} (hbs : bs ≠ [])
    (hhdr : await (some bs :: as) traceSize [] = (some hdr, rest))
    (hmagic : checkMagic (getMagic b (loadTrace hdr)) = true)
    (hpdu : rest.all.length < getPdulen b (loadTrace hdr)) : Carries (some b) (some bs :: as) []
  /-- Nothing is read behind a header that tells no byte order, or has no magic. -/
  | stray {native : Option Bool} {bs hdr : List UInt8} {as rest : Arrivals UInt8}
    {input : List (Option BlkIoTrace)} (hbs : bs ≠ [])
    (hhdr : await (some bs :: as) traceSize [] = (some hdr, rest))
    (hstray : ∀ b ∈ lookNative native (loadTrace hdr).magic, checkMagic (getMagic b (loadTrace hdr)) = false)
    (h : Carries (lookNative native (loadTrace hdr).magic) rest input) :
    Carries native (some bs :: as) (some (loadTrace hdr) :: input)
  | record {native : Option Bool} {b : Bool} {bs hdr pdu : List UInt8} {as mid rest : Arrivals UInt8}
    {input : List (Option BlkIoTrace)} (hbs : bs ≠ [])
    (hhdr : await (some bs :: as) traceSize [] = (some hdr, mid))
    (hnative : lookNative native (loadTrace hdr).magic = some b)
    (hmagic : checkMagic (getMagic b (loadTrace hdr)) = true)
    (hpdu : mid.await (getPdulen b (loadTrace hdr)) [] = (some pdu, rest)) (h : Carries (some b) rest input) :
    Carries native (some bs :: as) (some { loadTrace hdr with pdu := pdu } :: input)

/-- Each record and each moment is something that arrives. -/
theorem Carries.length_le {native : Option Bool} {as : Arrivals UInt8} {input : List (Option BlkIoTrace)}
    (h : Carries native as input) : input.length ≤ weight as := by
  have hsize : 0 < traceSize := by decide
  induction h with
  | ends => exact Nat.zero_le _
  | pause _ ih =>
    simp only [weight, all_none, List.length_cons] at ih ⊢
    omega
  | cut => exact Nat.zero_le _
  | stray _ hhdr _ _ ih =>
    have hweight := weight_await hhdr
    rw [List.length_cons]
    omega
  | record _ hhdr _ _ hpdu _ ih =>
    have hweight := weight_await hhdr
    have hrest := weight_await hpdu
    rw [List.length_cons]
    omega

/-- **A batch of bytes** is a batch of what they carry. -/
theorem readEvents_carries {o : Opts} {native : Option Bool} {as : Arrivals UInt8}
    {input : List (Option BlkIoTrace)} (h : Carries native as input) {fuel : ℕ} (hfuel : weight as ≤ fuel)
    {events : Nat} {pdi : Option Nat} {s : PipeState} (hs : s.native = native) :
    ∃ s' events' rest input', readEvents o fuel as events pdi s = (s', events', rest) ∧
      Blkparse.readEvents o input events pdi s = (s', events', input') ∧ Carries s'.native rest input' ∧
      weight rest ≤ weight as := by
  have hsize : 0 < traceSize := by decide
  induction h generalizing fuel events pdi s with
  | @ends native as h =>
    cases fuel with
    | zero => exact ⟨s, events, as, [], rfl, rfl, .ends h, Nat.le_refl _⟩
    | succ fuel =>
      rw [readEvents]
      split_ifs with hbatch
      · obtain ⟨rest, hread, hsuf⟩ := readData_of_lt h (decide (events = 0)) []
        rw [hread]
        exact ⟨s, events, rest, [], rfl, rfl,
          .ends (lt_of_le_of_lt (all_suffix hsuf).length_le h), weight_suffix hsuf⟩
      · exact ⟨s, events, as, [], rfl, rfl, .ends h, Nat.le_refl _⟩
  | @pause native as input h ih =>
    have hweight : weight as + 1 = weight (none :: as) := by
      simp only [weight, all_none, List.length_cons]
      omega
    cases fuel with
    | zero => omega
    | succ fuel =>
      rw [readEvents, Blkparse.readEvents]
      by_cases hbatch : events < o.rbBatch
      · rw [if_pos hbatch, if_pos hbatch]
        by_cases hfirst : events = 0
        · -- the read waits
          obtain ⟨s', events', rest, input', hread, hrecords, hcarries, hle⟩ :=
            @ih (fuel + 1) (by omega) events pdi s hs
          refine ⟨s', events', rest, input', ?_, ?_, hcarries, by omega⟩
          · rw [← hread, readEvents, if_pos hbatch, hfirst]
            rfl
          · simpa only [if_pos hfirst] using hrecords
        · have hstop : readData (decide (events = 0)) (none :: as) traceSize [] = (none, as) := by
            rw [readData, if_neg (Nat.ne_of_gt hsize), if_pos ⟨rfl, decide_eq_false hfirst⟩]
          rw [hstop]
          exact ⟨s, events, as, input, rfl, if_neg hfirst, hs ▸ h, by omega⟩
      · rw [if_neg hbatch, if_neg hbatch]
        exact ⟨s, events, none :: as, none :: input, rfl, rfl, .pause (hs ▸ h), Nat.le_refl _⟩
  | @cut b bs hdr as rest hbs hhdr hmagic hpdu =>
    have hcarries : Carries s.native (some bs :: as) [] := hs ▸ .cut hbs hhdr hmagic hpdu
    cases fuel with
    | zero => exact ⟨s, events, some bs :: as, [], rfl, rfl, hcarries, Nat.le_refl _⟩
    | succ fuel =>
      rw [readEvents]
      split_ifs with hbatch
      · have hsame : { s with native := some b } = s := by rw [← hs]
        have hlook : lookNative s.native (loadTrace hdr).magic = some b := by
          rw [hs]
          rfl
        have hread : readData true rest (getPdulen b (loadTrace hdr)) [] = (none, []) := by
          rw [readData_await _ _ (.inl rfl), await_of_lt hpdu]
        rw [readData_some hbs, hhdr]
        simp only [hlook, hmagic, Bool.not_true, Bool.false_eq_true, if_false, hread, hsame]
        exact ⟨s, events, [], [], rfl, rfl, .ends hsize, Nat.zero_le _⟩
      · exact ⟨s, events, some bs :: as, [], rfl, rfl, hcarries, Nat.le_refl _⟩
  | @stray native bs hdr as rest input hbs hhdr hstray h ih =>
    have hweight := weight_await hhdr
    have hcarries : Carries s.native (some bs :: as) (some (loadTrace hdr) :: input) :=
      hs ▸ .stray hbs hhdr hstray h
    cases fuel with
    | zero => omega
    | succ fuel =>
      rw [readEvents, Blkparse.readEvents]
      split_ifs with hbatch
      · rw [readData_some hbs, hhdr]
        dsimp only
        subst hs
        cases hlook : lookNative s.native (loadTrace hdr).magic with
        | none =>
          refine ⟨s, events, rest, input, rfl, rfl, ?_, by omega⟩
          have hnone : s.native = none := by
            cases hnative : s.native with
            | none => rfl
            | some b => rw [hnative] at hlook; cases hlook
          rw [hnone]
          rwa [hlook] at h
        | some b =>
          dsimp only
          rw [if_pos (by rw [hstray b hlook]; rfl), if_pos (by rw [hstray b hlook]; rfl)]
          rw [hlook] at h
          exact ⟨{ s with native := some b }, events, rest, input, rfl, rfl, h, by omega⟩
      · exact ⟨s, events, some bs :: as, _, rfl, rfl, hcarries, Nat.le_refl _⟩
  | @record native b bs hdr pdu as mid rest input hbs hhdr hnative hmagic hpdu h ih =>
    have hweight := weight_await hhdr
    have hweight' := weight_await hpdu
    have hcarries : Carries s.native (some bs :: as) (some { loadTrace hdr with pdu := pdu } :: input) :=
      hs ▸ .record hbs hhdr hnative hmagic hpdu h
    cases fuel with
    | zero => omega
    | succ fuel =>
      have hgo : ∀ (events : Nat) (pdi : Option Nat) (s : PipeState), s.native = some b →
          ∃ s' events' rest' input', readEvents o fuel rest events pdi s = (s', events', rest') ∧
            Blkparse.readEvents o input events pdi s = (s', events', input') ∧
            Carries s'.native rest' input' ∧ weight rest' ≤ weight (some bs :: as) := by
        intro events pdi s hs
        obtain ⟨s', events', rest', input', hread, hrecords, hleft, hle⟩ :=
          @ih fuel (by omega) events pdi s hs
        exact ⟨s', events', rest', input', hread, hrecords, hleft, by omega⟩
      rw [readEvents, Blkparse.readEvents]
      split_ifs with hbatch
      · have hread : readData true mid (getPdulen b (loadTrace hdr)) [] = (some pdu, rest) := by
          rw [readData_await _ _ (.inl rfl), hpdu]
        have hmagic' : checkMagic (getMagic b { loadTrace hdr with pdu := pdu }) = true := hmagic
        rw [readData_some hbs, hhdr]
        simp only [hs, hnative, hmagic, hmagic', Bool.not_true, Bool.false_eq_true, if_false, hread]
        split_ifs with hverify hnotify
        · exact hgo events pdi _ rfl
        · exact hgo events pdi _ rfl
        · exact hgo (events + 1) _ _ rfl
      · exact ⟨s, events, some bs :: as, _, rfl, rfl, hcarries, Nat.le_refl _⟩

/-- **A run over bytes** is the run over what they carry. -/
theorem pipeLoop_carries {o : Opts} {find : Find} {as : Arrivals UInt8} {input : List (Option BlkIoTrace)}
    {s : PipeState} (h : Carries s.native as input) (fuel : ℕ) :
    pipeLoop o find fuel as s = Blkparse.pipeLoop o find fuel input s := by
  induction fuel generalizing as input s with
  | zero => rfl
  | succ fuel ih =>
    obtain ⟨s', events, rest, input', hread, hrecords, hleft, -⟩ :=
      @readEvents_carries o _ _ _ h _ (Nat.le_refl _) 0 none s rfl
    rw [pipeLoop, Blkparse.pipeLoop, hread, hrecords]
    dsimp only
    split_ifs with hnone hpast
    · rfl
    · rfl
    · have hframe := (sortEntries_frame o { s' with readSequence := s'.readSequence + 1 }).1
      have hnative := congrArg PipeState.native hframe
      apply ih
      rw [showEntriesRb, showLoop_frame]
      dsimp only at hnative ⊢
      rw [hnative]
      exact hleft

theorem doPipe_carries (o : Opts) (find : Find) (names : Nat) {as : Arrivals UInt8}
    {input : List (Option BlkIoTrace)} (h : Carries none as input) :
    doPipe o find names as = Blkparse.doPipe o find names input := by
  have hfuel := pipeLoop_fuel o find (Nat.lt_succ_of_le h.length_le) (Nat.lt_succ_self _) (.init names)
  rw [doPipe, Blkparse.doPipe, pipeLoop_carries (s := .init names) h, hfuel]

/-! ## Whole records -/

theorem loadTrace_take {bs : List UInt8} (h : traceSize ≤ bs.length) :
    loadTrace (bs.take traceSize) = loadTrace bs := by
  have hstore := onto_headerLayout false bs h
  rw [headerLayout_size] at hstore
  rw [loadTrace, loadTrace, ← hstore, Bytes.Layout.load_store_self]

theorem getPdulen_eq (native : Bool) (bit : BlkIoTrace) :
    getPdulen native bit = (traceToCpu native bit).pduLen.toNat := by
  cases native <;> rfl

theorem traceToCpu_pdu (native : Bool) (bit : BlkIoTrace) (pdu : List UInt8) :
    traceToCpu native { bit with pdu := pdu } = { traceToCpu native bit with pdu := pdu } := by
  cases native <;> rfl

/-- A whole record in front of some bytes, for a reader that takes the header first. -/
structure Front (native : Bool) (t : BlkIoTrace) (bs rest : List UInt8) : Prop where
  header : traceSize ≤ bs.length
  behind : bs.drop traceSize = t.pdu ++ rest
  pdulen : getPdulen native (loadTrace (bs.take traceSize)) = t.pdu.length
  record : traceToCpu native { loadTrace (bs.take traceSize) with pdu := t.pdu } = t
  valid : verifyTrace (traceToCpu native (loadTrace (bs.take traceSize))) = false

theorem Whole.front {native : Bool} {t : BlkIoTrace} (ht : Whole t) {bs rest : List UInt8}
    (h : bs = t.image (!native) ++ rest) : Front native t bs rest := by
  have hlong : traceSize ≤ bs.length := by
    rw [h, List.length_append, length_image]
    omega
  have hload : traceToCpu native (loadTrace (bs.take traceSize)) = { t with pdu := [] } := by
    rw [loadTrace_take hlong, h, traceToCpu_image_native]
  refine ⟨hlong, ?_, ?_, ?_, ?_⟩
  · rw [h, BlkIoTrace.image, List.append_assoc]
    exact Bytes.Layout.drop_store (headerLayout (!native)) t.header _
  · rw [getPdulen_eq, hload, ht.complete]
  · rw [traceToCpu_pdu, hload]
  · rw [hload]
    exact ht.valid

/-- What is left of a record that is cut. -/
def CutOff (native : Bool) (tail : List UInt8) : Prop :=
  tail.length < traceSize ∨
    (checkMagic (getMagic native (loadTrace tail)) = true ∧ tail.length < recordSize native tail)

/-- **Whole valid records are carried as they are**, whatever the pieces and the moments. What is left of one
that is cut is not: the first one tells the byte order before it is known to be cut. -/
theorem carries_fileOf {native : Bool} {known : Option Bool} (hknown : Admits known native) {as : Arrivals UInt8}
    (hproper : Proper as) {ts : List BlkIoTrace} {tail : List UInt8} (hall : as.all = fileOf (!native) ts ++ tail)
    (hts : ∀ t ∈ ts, Whole t) (htail : CutOff native tail)
    (hfirst : tail.length < traceSize ∨ known = some native ∨ ts ≠ []) :
    ∃ input, Carries known as input ∧ ValidPipe native input ∧ hostRecords native input = ts := by
  have hsize : 0 < traceSize := by decide
  induction hn : weight as using Nat.strong_induction_on generalizing known as ts with
  | _ n ih =>
    subst hn
    cases as with
    | nil =>
      have hnil : ts = [] := by
        cases ts with
        | nil => rfl
        | cons t ts =>
          have hlength := congrArg List.length hall
          rw [fileOf_cons, List.length_append, List.length_append, length_image, all_nil,
            List.length_nil] at hlength
          omega
      rw [hnil]
      exact ⟨[], .ends hsize, fun _ hraw => absurd hraw List.not_mem_nil, rfl⟩
    | cons a as =>
      cases a with
      | none =>
        obtain ⟨input, hcarries, hvalid, hhost⟩ :=
          ih (weight as) (by simp [weight]) hknown (proper_none.mp hproper) hall hts hfirst rfl
        refine ⟨none :: input, .pause hcarries, fun raw hraw => ?_, hhost⟩
        exact hvalid raw ((List.mem_cons.mp hraw).resolve_left (Option.some_ne_none raw))
      | some bs =>
        have hbs := (proper_some.mp hproper).1
        cases ts with
        | nil =>
          have htail' : all (some bs :: as) = tail := hall
          refine ⟨[], ?_, fun _ hraw => absurd hraw List.not_mem_nil, rfl⟩
          by_cases hshort : tail.length < traceSize
          · exact .ends (by rwa [htail'])
          obtain ⟨hmagic, hcut⟩ := htail.resolve_left hshort
          obtain rfl := (hfirst.resolve_left hshort).resolve_right (not_not.mpr rfl)
          have hlong : traceSize ≤ tail.length := not_lt.mp hshort
          obtain ⟨rest, hawait, hrest, -⟩ := await_of_le hproper (n := traceSize) (by rwa [htail']) []
          rw [htail', List.nil_append] at hawait
          rw [htail'] at hrest
          refine .cut hbs hawait (by rwa [loadTrace_take hlong]) ?_
          rw [hrest, loadTrace_take hlong, getPdulen_eq, List.length_drop]
          rw [recordSize] at hcut
          omega
        | cons t ts =>
          obtain ⟨ht, hts⟩ := List.forall_mem_cons.mp hts
          have hall' : all (some bs :: as) = t.image (!native) ++ (fileOf (!native) ts ++ tail) := by
            rw [hall, fileOf_cons, List.append_assoc]
          have hfront := Whole.front ht hall'
          obtain ⟨mid, hhdr, hmid, hmidProper⟩ := await_of_le hproper hfront.header []
          rw [List.nil_append] at hhdr
          rw [hfront.behind] at hmid
          obtain ⟨rest, hpdu, hrest, hrestProper⟩ := await_of_le hmidProper
            (n := getPdulen native (loadTrace ((all (some bs :: as)).take traceSize)))
            (by rw [hfront.pdulen, hmid, List.length_append]; omega) []
          rw [hfront.pdulen, hmid, List.take_left, List.nil_append, ← hfront.pdulen] at hpdu
          rw [hfront.pdulen, hmid, List.drop_left] at hrest
          have hweight := weight_await hhdr
          have hweight' := weight_await hpdu
          obtain ⟨input, hcarries, hvalid, hhost⟩ :=
            @ih (weight rest) (by omega) (some native)
            (fun b hb => (Option.some.inj hb).symm) rest hrestProper ts hrest hts (.inr (.inl rfl)) rfl
          have hlook :
              lookNative known (loadTrace ((all (some bs :: as)).take traceSize)).magic = some native := by
            cases known with
            | none => exact checkDataEndianness_of_valid hfront.valid
            | some b => rw [hknown b rfl]; rfl
          refine ⟨_, .record hbs hhdr hlook (checkMagic_of_valid hfront.valid) hpdu hcarries, ?_, ?_⟩
          · intro raw hmem
            rcases List.mem_cons.mp hmem with heq | hmem
            · rw [Option.some.inj heq, hfront.record]
              exact ht.valid
            · exact hvalid raw hmem
          · show traceToCpu native _ :: hostRecords native input = t :: ts
            rw [hfront.record, hhost]

end Blktrace.Blkparse.Fd
