import Blktrace.Btreplay.Recorded

/-!
# The bunches of an output stream

What `stream_add_io` and `stream_close` leave: the specifications in order, in bunches of at most
`max_pkts_per_bunch`, all but the last one already in the file.
-/

namespace Blktrace.Btreplay

open Bytes

variable {ndebug : Bool} {lim : Limits} {pad : IoStream → IoSpec → UInt32}

/-- What a packet says of an IO. -/
def IoPkt.content (p : IoPkt) : UInt64 × UInt64 × UInt32 := (p.sector, p.nbytes, p.rw)

def IoSpec.content (s : IoSpec) : UInt64 × UInt64 × UInt32 := (s.sector, s.bytes.toUInt64, s.rw)

/-- The contents of bunches, one after the other. -/
def contents (bunches : List IoBunch) : List (UInt64 × UInt64 × UInt32) :=
  bunches.flatMap fun b => b.pkts.map IoPkt.content

/-- All of it fits the bunch that the first IO opens. -/
def OneBunch (lim : Limits) : List IoSpec → Prop
  | [] => True
  | first :: rest =>
    rest.length < lim.maxPktsPerBunch ∧ ∀ s ∈ rest, s.time - first.time ≤ lim.maxBunchTm

instance : DecidablePred (OneBunch lim)
  | [] => .isTrue trivial
  | _ :: _ => inferInstanceAs (Decidable (_ ∧ _))

/-- The stream after the specifications `specs`, with the bunches `closed` written. -/
structure Stored (lim : Limits) (specs : List IoSpec) (closed : List IoBunch)
    (stream : IoStream) : Prop where
  ofp : stream.ofp = streamOpen.ofp ++ closed.flatMap IoBunch.image
  bunches : stream.bunches = UInt64.ofNat closed.length
  pkts : stream.pkts = UInt64.ofNat (closed.map fun b => b.pkts.length).sum
  closedWF : ∀ b ∈ closed, b.WF
  empty : stream.cur = none ↔ specs = []
  curWF : ∀ b ∈ stream.cur, b.WF ∧ b.pkts.length ≤ lim.maxPktsPerBunch
  content : contents (closed ++ stream.cur.toList) = specs.map IoSpec.content
  lastTime : ∀ s ∈ specs.getLast?, stream.lastTime = s.time
  /-- As long as nothing is written, the bunch is the one of the first IO. -/
  start : closed = [] → ∀ s ∈ specs.head?, stream.startTime = s.time
  one : closed = [] ↔ OneBunch lim specs

theorem stored_open : Stored lim [] [] streamOpen where
  ofp := by simp
  bunches := rfl
  pkts := rfl
  closedWF _ h := by cases h
  empty := ⟨fun _ => rfl, fun _ => rfl⟩
  curWF _ h := by cases h
  content := rfl
  lastTime _ h := by cases h
  start _ _ h := by cases h
  one := ⟨fun _ => trivial, fun _ => rfl⟩

theorem oneBunch_append {specs : List IoSpec} {spec : IoSpec} {start : UInt64}
    (hne : specs ≠ []) (hstart : ∀ s ∈ specs.head?, start = s.time) :
    OneBunch lim (specs ++ [spec]) ↔ OneBunch lim specs ∧
      specs.length < lim.maxPktsPerBunch ∧ spec.time - start ≤ lim.maxBunchTm := by
  cases specs with
  | nil => exact absurd rfl hne
  | cons first rest =>
    rw [hstart first rfl]
    simp only [List.cons_append, OneBunch, List.length_append, List.mem_append, List.mem_singleton,
      List.length_cons, List.length_nil]
    constructor
    · rintro ⟨hlen, hall⟩
      exact ⟨⟨by omega, fun s hs => hall s (.inl hs)⟩, by omega, hall spec (.inr rfl)⟩
    · rintro ⟨⟨_, hall⟩, hlen, hspec⟩
      refine ⟨hlen, fun s hs => ?_⟩
      rcases hs with hs | rfl
      · exact hall s hs
      · exact hspec

/-! ## One IO -/

/-- The packet `io_bunch_add` makes. -/
def IoSpec.pkt (s : IoSpec) (pad : UInt32) : IoPkt := ⟨s.sector, s.bytes.toUInt64, s.rw, pad⟩

/-- A bunch with one more packet. -/
def IoBunch.add (b : IoBunch) (pkt : IoPkt) : IoBunch :=
  ⟨{ b.hdr with npkts := b.hdr.npkts + 1 }, b.pkts ++ [pkt]⟩

theorem IoBunch.WF.add {b : IoBunch} (h : b.WF) (hlt : b.pkts.length < btMaxPkts) (pkt : IoPkt) :
    (b.add pkt).WF where
  npkts := by
    have hlen := h.npkts
    unfold btMaxPkts at hlt
    show (b.hdr.npkts + 1).toNat = (b.pkts ++ [pkt]).length
    rw [UInt64.toNat_add, hlen, List.length_append]
    have hone : (1 : UInt64).toNat = 1 := rfl
    rw [hone, List.length_singleton]
    omega
  pos := by
    show 1 ≤ (b.pkts ++ [pkt]).length
    rw [List.length_append, List.length_singleton]
    omega
  le := by
    show (b.pkts ++ [pkt]).length ≤ btMaxPkts
    rw [List.length_append, List.length_singleton]
    exact hlt

/-- The bunch `io_bunch_create` and the first `io_bunch_add` make. -/
theorem wf_single (spec : IoSpec) (pkt : IoPkt) : IoBunch.WF ⟨⟨1, spec.time⟩, [pkt]⟩ where
  npkts := rfl
  pos := le_refl 1
  le := show 1 ≤ btMaxPkts by decide

theorem bunchDone_eq_false {stream : IoStream} {b : IoBunch} (hb : b.WF) (spec : IoSpec) :
    bunchDone lim stream b spec = false ↔
      b.pkts.length < lim.maxPktsPerBunch ∧ spec.time - stream.startTime ≤ lim.maxBunchTm := by
  have hmax : (UInt64.ofNat lim.maxPktsPerBunch).toNat = lim.maxPktsPerBunch :=
    UInt64.toNat_ofNat_of_lt' (lt_trans lim.pkts_le (by decide))
  rw [bunchDone, Bool.or_eq_false_iff, decide_eq_false_iff_not, decide_eq_false_iff_not, ge_iff_le,
    UInt64.le_iff_toNat_le, hmax, hb.npkts, not_le, gt_iff_lt, not_lt]

theorem ioBunchAdd_eq {stream : IoStream} {b : IoBunch} {p : UInt32} (hcur : stream.cur = some b)
    (hlt : b.hdr.npkts.toNat < btMaxPkts) (spec : IoSpec) :
    ioBunchAdd ndebug p stream spec =
      assertThat ndebug (stream.lastTime = 0 || stream.lastTime ≤ spec.time) >>= fun _ =>
        .ok { stream with cur := some (b.add (spec.pkt p)), lastTime := spec.time } := by
  have hroom : decide (b.hdr.npkts < UInt64.ofNat btMaxPkts) = true := by
    rw [decide_eq_true_iff, UInt64.lt_iff_toNat_lt]
    exact hlt
  unfold ioBunchAdd
  rw [hcur]
  dsimp only
  rw [hroom, assertThat_true]
  rfl

theorem ioBunchAdd_create {p : UInt32} (stream : IoStream) (spec : IoSpec) :
    ioBunchAdd ndebug p (ioBunchCreate stream spec.time) spec =
      assertThat ndebug (stream.lastTime = 0 || stream.lastTime ≤ spec.time) >>= fun _ =>
        .ok { stream with
          startTime := spec.time
          cur := some ⟨⟨1, spec.time⟩, [spec.pkt p]⟩
          lastTime := spec.time } :=
  @ioBunchAdd_eq _ (ioBunchCreate stream spec.time) _ p rfl (show 0 < btMaxPkts by decide) spec

/-- `stream_flush` of a bunch with packets in it. -/
theorem streamFlush_eq {stream : IoStream} {b : IoBunch} (hcur : stream.cur = some b)
    (hb : b.WF) :
    streamFlush ndebug stream =
      .ok { stream with
        ofp := stream.ofp ++ b.image
        bunches := stream.bunches + 1
        pkts := stream.pkts + b.hdr.npkts } := by
  have hpos := hb.pos
  have hzero : b.hdr.npkts ≠ 0 := by
    intro h
    have hlen := hb.npkts
    rw [h] at hlen
    have hnone : (0 : UInt64).toNat = 0 := rfl
    omega
  have hle : decide (b.hdr.npkts ≤ UInt64.ofNat btMaxPkts) = true := by
    rw [decide_eq_true_iff, UInt64.le_iff_toNat_le, hb.npkts]
    exact hb.le
  unfold streamFlush
  rw [hcur]
  dsimp only
  rw [if_neg hzero, hle, assertThat_true]
  rfl

@[simp] theorem IoSpec.content_pkt (s : IoSpec) (p : UInt32) : (s.pkt p).content = s.content := rfl

theorem contents_append (bs bs' : List IoBunch) :
    contents (bs ++ bs') = contents bs ++ contents bs' := List.flatMap_append

@[simp] theorem contents_singleton (b : IoBunch) : contents [b] = b.pkts.map IoPkt.content := by
  simp [contents]

section

variable {specs : List IoSpec} {closed : List IoBunch} {stream : IoStream}

/-- With nothing written, the bunch holds every IO there was. -/
theorem Stored.length_eq (h : Stored lim specs [] stream) {b : IoBunch}
    (hcur : stream.cur = some b) : b.pkts.length = specs.length := by
  have hlen := congrArg List.length h.content
  rw [hcur, List.nil_append, Option.toList_some, contents_singleton, List.length_map,
    List.length_map] at hlen
  exact hlen

/-- The first IO opens a bunch. -/
theorem Stored.create (h : Stored lim specs closed stream) (hcur : stream.cur = none)
    (spec : IoSpec) (p : UInt32) :
    Stored lim (specs ++ [spec]) closed
      { stream with
        startTime := spec.time
        cur := some ⟨⟨1, spec.time⟩, [spec.pkt p]⟩
        lastTime := spec.time } := by
  have hnil : specs = [] := h.empty.mp hcur
  subst hnil
  have hclosed : closed = [] := h.one.mpr trivial
  subst hclosed
  exact
    { ofp := h.ofp
      bunches := h.bunches
      pkts := h.pkts
      closedWF := h.closedWF
      empty := ⟨fun hc => (by cases hc), fun hc => (by cases hc)⟩
      curWF := by
        intro b hb
        cases hb
        exact ⟨wf_single spec _, lim.pkts_pos⟩
      content := by simp
      lastTime := by simp
      start := by simp
      one := ⟨fun _ => ⟨lim.pkts_pos, fun s hs => (by cases hs)⟩, fun _ => rfl⟩ }

/-- An IO that fits joins the bunch. -/
theorem Stored.append (h : Stored lim specs closed stream) {b : IoBunch}
    (hcur : stream.cur = some b) {spec : IoSpec} (hdone : bunchDone lim stream b spec = false)
    (p : UInt32) :
    Stored lim (specs ++ [spec]) closed
      { stream with cur := some (b.add (spec.pkt p)), lastTime := spec.time } := by
  obtain ⟨hb, hle⟩ := h.curWF b hcur
  have hne : specs ≠ [] := fun hnil => by rw [h.empty.mpr hnil] at hcur; cases hcur
  obtain ⟨hroom, htime⟩ := (bunchDone_eq_false hb spec).mp hdone
  have hlim := lim.pkts_le
  refine
    { ofp := h.ofp
      bunches := h.bunches
      pkts := h.pkts
      closedWF := h.closedWF
      empty := ⟨fun hc => (by cases hc), fun hc => (by simp at hc)⟩
      curWF := ?_
      content := ?_
      lastTime := by simp
      start := ?_
      one := ?_ }
  · intro b' hb'
    cases hb'
    refine ⟨hb.add (by unfold btMaxPkts; omega) _, ?_⟩
    show (b.pkts ++ [spec.pkt p]).length ≤ _
    rw [List.length_append, List.length_singleton]
    exact hroom
  · have hcontents := h.content
    rw [hcur, Option.toList_some, contents_append, contents_singleton] at hcontents
    rw [Option.toList_some, contents_append, contents_singleton, List.map_append, ← hcontents]
    simp [IoBunch.add]
  · intro hclosed s hs
    rw [List.head?_append_of_ne_nil _ hne] at hs
    exact h.start hclosed s hs
  · by_cases hclosed : closed = []
    · rw [oneBunch_append hne (h.start hclosed), ← h.one]
      subst hclosed
      rw [← h.length_eq hcur]
      exact ⟨fun _ => ⟨rfl, hroom, htime⟩, fun _ => rfl⟩
    · refine ⟨fun hc => absurd hc hclosed, fun hone => ?_⟩
      cases specs with
      | nil => exact absurd rfl hne
      | cons first rest =>
        rw [@oneBunch_append lim _ _ first.time hne (by simp)] at hone
        exact h.one.mpr hone.1

/-- An IO that is late, or finds the bunch full, has it written and opens the next. -/
theorem Stored.flush (h : Stored lim specs closed stream) {b : IoBunch}
    (hcur : stream.cur = some b) {spec : IoSpec} (hdone : bunchDone lim stream b spec = true)
    (p : UInt32) :
    Stored lim (specs ++ [spec]) (closed ++ [b])
      { stream with
        ofp := stream.ofp ++ b.image
        bunches := stream.bunches + 1
        pkts := stream.pkts + b.hdr.npkts
        startTime := spec.time
        cur := some ⟨⟨1, spec.time⟩, [spec.pkt p]⟩
        lastTime := spec.time } := by
  obtain ⟨hb, hle⟩ := h.curWF b hcur
  have hne : specs ≠ [] := fun hnil => by rw [h.empty.mpr hnil] at hcur; cases hcur
  have hclosed : closed ++ [b] ≠ [] := by simp
  refine
    { ofp := ?_
      bunches := ?_
      pkts := ?_
      closedWF := ?_
      empty := ⟨fun hc => (by cases hc), fun hc => (by simp at hc)⟩
      curWF := ?_
      content := ?_
      lastTime := by simp
      start := fun hc => absurd hc hclosed
      one := ⟨fun hc => absurd hc hclosed, fun hone => ?_⟩ }
  · simp [h.ofp]
  · rw [h.bunches, List.length_append, List.length_singleton, UInt64.ofNat_add]
    rfl
  · have hpkts : b.hdr.npkts = UInt64.ofNat b.pkts.length := by
      rw [← hb.npkts, UInt64.ofNat_toNat]
    rw [h.pkts, hpkts, ← UInt64.ofNat_add]
    simp
  · intro b' hb'
    rcases List.mem_append.mp hb' with hb' | hb'
    · exact h.closedWF b' hb'
    · rw [List.mem_singleton.mp hb']
      exact hb
  · intro b' hb'
    cases hb'
    exact ⟨wf_single spec _, lim.pkts_pos⟩
  · have hcontents := h.content
    rw [hcur, Option.toList_some] at hcontents
    rw [Option.toList_some, contents_append, hcontents, contents_singleton, List.map_append]
    rfl
  · -- the IO would have fitted
    exfalso
    by_cases hnil : closed = []
    · rw [oneBunch_append hne (h.start hnil)] at hone
      subst hnil
      rw [← h.length_eq hcur] at hone
      rw [(bunchDone_eq_false hb spec).mpr hone.2] at hdone
      cases hdone
    · cases specs with
      | nil => exact hne rfl
      | cons first rest =>
        rw [@oneBunch_append lim _ _ first.time hne (by simp)] at hone
        exact hnil (h.one.mpr hone.1)

/-- **`stream_add_io`**, but for the assertion on the order of times. -/
theorem Stored.add (h : Stored lim specs closed stream) (spec : IoSpec) (p : UInt32) :
    ∃ stream' closed', Stored lim (specs ++ [spec]) closed' stream' ∧
      streamAddIo ndebug lim p stream spec =
        assertThat ndebug (stream.lastTime = 0 || stream.lastTime ≤ spec.time) >>= fun _ =>
          .ok stream' := by
  cases hcur : stream.cur with
  | none =>
    refine ⟨_, closed, h.create hcur spec p, ?_⟩
    unfold streamAddIo
    rw [hcur]
    exact ioBunchAdd_create stream spec
  | some b =>
    obtain ⟨hb, hle⟩ := h.curWF b hcur
    have hlim := lim.pkts_le
    cases hdone : bunchDone lim stream b spec with
    | false =>
      refine ⟨_, closed, h.append hcur hdone p, ?_⟩
      have hroom := ((bunchDone_eq_false hb spec).mp hdone).1
      unfold streamAddIo
      rw [hcur]
      simp only [hdone, Bool.false_eq_true, if_false]
      exact ioBunchAdd_eq hcur (by rw [hb.npkts]; unfold btMaxPkts; omega) spec
    | true =>
      refine ⟨_, closed ++ [b], h.flush hcur hdone p, ?_⟩
      unfold streamAddIo
      rw [hcur]
      simp only [hdone, if_true, streamFlush_eq hcur hb]
      exact ioBunchAdd_create _ spec

end

/-! ## A whole trace -/

/-- The time of the first IO, but for those of time 0. -/
def firstTime (specs : List IoSpec) : UInt64 := ((specs.map IoSpec.time).find? (· ≠ 0)).getD 0

theorem firstTime_append (specs : List IoSpec) (spec : IoSpec) :
    firstTime (specs ++ [spec]) = if firstTime specs = 0 then spec.time else firstTime specs := by
  unfold firstTime
  rw [List.map_append, List.find?_append]
  cases hfind : (specs.map IoSpec.time).find? (· ≠ 0) with
  | none =>
    by_cases hzero : spec.time = 0
    · simp [hzero]
    · simp [hzero]
  | some g =>
    have hg : g ≠ 0 := by simpa using List.find?_some hfind
    simp [hg]

/-- The first time is that of the first IO, unless that one is at 0 and another is not. -/
theorem firstTime_cons (first : IoSpec) (rest : List IoSpec) :
    firstTime (first :: rest) = first.time ↔
      first.time ≠ 0 ∨ ∀ s ∈ rest, s.time = 0 := by
  unfold firstTime
  by_cases hzero : first.time = 0
  · rw [List.map_cons, List.find?_cons_of_neg (by simpa using hzero), hzero]
    cases hfind : (rest.map IoSpec.time).find? (· ≠ 0) with
    | none => simpa using hfind
    | some g =>
      have hg : g ≠ 0 := by simpa using List.find?_some hfind
      obtain ⟨s, hs, hsg⟩ := List.mem_map.mp (List.mem_of_find?_eq_some hfind)
      simp only [Option.getD_some, hg, ne_eq, not_true, false_or, false_iff, not_forall]
      exact ⟨s, hs, by rw [hsg]; exact hg⟩
  · rw [List.map_cons, List.find?_cons_of_pos (by simpa using hzero)]
    simp [hzero]

theorem firstTime_le {specs : List IoSpec} {t : UInt64} (h : ∀ s ∈ specs, s.time ≤ t) :
    firstTime specs ≤ t := by
  unfold firstTime
  cases hfind : (specs.map IoSpec.time).find? (· ≠ 0) with
  | none => exact UInt64.zero_le
  | some g =>
    obtain ⟨s, hs, hsg⟩ := List.mem_map.mp (List.mem_of_find?_eq_some hfind)
    rw [Option.getD_some, ← hsg]
    exact h s hs

theorem foldlM_snoc {α β ε : Type} (f : β → α → Except ε β) (b : β) (as : List α) (a : α) :
    (as ++ [a]).foldlM f b = as.foldlM f b >>= fun b => f b a := by
  rw [List.foldlM_append]
  congr 1
  funext b
  rw [List.foldlM_cons]
  cases f b a <;> rfl

theorem foldlM_recordSpec {specs : List IoSpec} {genesis : UInt64} {stream : IoStream}
    (h : specs.foldlM (recordSpec ndebug lim pad) (0, streamOpen) = .ok (genesis, stream)) :
    genesis = firstTime specs ∧ ∃ closed, Stored lim specs closed stream := by
  induction specs using List.reverseRecOn generalizing genesis stream with
  | nil =>
    cases h
    exact ⟨rfl, [], stored_open⟩
  | append_singleton specs spec ih =>
    rw [foldlM_snoc] at h
    cases hfold : specs.foldlM (recordSpec ndebug lim pad) (0, streamOpen) with
    | error e =>
      rw [hfold] at h
      cases h
    | ok s =>
      rw [hfold] at h
      obtain ⟨g, str⟩ := s
      obtain ⟨hg, closed, hstored⟩ := ih hfold
      obtain ⟨str', closed', hstored', hadd⟩ :=
        @Stored.add ndebug _ _ _ _ hstored spec (pad str spec)
      replace h : recordSpec ndebug lim pad (g, str) spec = .ok (genesis, stream) := h
      unfold recordSpec at h
      dsimp only at h
      rw [hadd] at h
      rw [firstTime_append, ← hg]
      unfold nextGenesis at h
      cases hassert : assertThat ndebug (decide (str.lastTime = 0) || decide (str.lastTime ≤ spec.time))
        <;> rw [hassert] at h <;> split_ifs at h ⊢ <;> cases h
      · exact ⟨rfl, closed', hstored'⟩
      · exact ⟨rfl, closed', hstored'⟩

/-- IOs in the order of their times stop nothing. -/
theorem foldlM_recordSpec_total {specs : List IoSpec}
    (h : specs.Pairwise fun s s' => s.time ≤ s'.time) :
    ∃ s, specs.foldlM (recordSpec ndebug lim pad) (0, streamOpen) = .ok s := by
  induction specs using List.reverseRecOn with
  | nil => exact ⟨_, rfl⟩
  | append_singleton specs spec ih =>
    obtain ⟨hspecs, -, hlast⟩ := List.pairwise_append.mp h
    have hle : ∀ s ∈ specs, s.time ≤ spec.time := fun s hs => hlast s hs spec (by simp)
    obtain ⟨⟨g, str⟩, hfold⟩ := ih hspecs
    obtain ⟨hg, closed, hstored⟩ := foldlM_recordSpec hfold
    obtain ⟨str', closed', -, hadd⟩ := @Stored.add ndebug _ _ _ _ hstored spec (pad str spec)
    have htime : (decide (str.lastTime = 0) || decide (str.lastTime ≤ spec.time)) = true := by
      rw [Bool.or_eq_true, decide_eq_true_iff, decide_eq_true_iff]
      cases hs : specs.getLast? with
      | none =>
        have hnil : specs = [] := List.getLast?_eq_none_iff.mp hs
        subst hnil
        cases hfold
        exact .inl rfl
      | some s =>
        rw [hstored.lastTime s hs]
        exact .inr (hle s (List.mem_of_getLast? hs))
    have hgen : ∃ g', nextGenesis g spec = .ok g' := by
      unfold nextGenesis
      rw [hg]
      split_ifs with hzero hlt
      · exact ⟨_, rfl⟩
      · exact absurd hlt (not_lt.mpr (firstTime_le hle))
      · exact ⟨_, rfl⟩
    obtain ⟨g', hgen⟩ := hgen
    refine ⟨(g', str'), ?_⟩
    rw [foldlM_snoc, hfold]
    show recordSpec ndebug lim pad (g, str) spec = _
    unfold recordSpec
    dsimp only
    rw [hgen, hadd, htime, assertThat_true]
    rfl

/-- What `btrecord` leaves for the IOs `specs`: a header and bunches. The header counts the bunches
that were written when it was put together, all but the last. -/
structure Recorded (lim : Limits) (specs : List IoSpec) (hdr : IoFileHdr)
    (bunches : List IoBunch) : Prop where
  version : hdr.version = mkBtversion btverMjr btverMnr btverSub
  genesis : hdr.genesis = firstTime specs
  nbunches : hdr.nbunches = UInt64.ofNat (bunches.length - 1)
  totalPkts : hdr.totalPkts = UInt64.ofNat (bunches.dropLast.map fun b => b.pkts.length).sum
  wf : ∀ b ∈ bunches, b.WF
  content : contents bunches = specs.map IoSpec.content
  empty : bunches = [] ↔ specs = []
  one : bunches.length ≤ 1 ↔ OneBunch lim specs

/-- `stream_close`, on a stream with everything stored. -/
theorem Stored.close {specs : List IoSpec} {closed : List IoBunch} {stream : IoStream}
    (h : Stored lim specs closed stream) {iip : IfileInfo} (hg : iip.genesis = firstTime specs) :
    ∃ hdr bunches, Recorded lim specs hdr bunches ∧
      streamClose ndebug iip stream =
        .ok (ioFileHdrLayout.store hdr ++ bunches.flatMap IoBunch.image) := by
  have hopen : streamOpen.ofp.length = ioFileHdrLayout.size := by
    show (ioFileHdrLayout.store _ ++ List.drop _ []).length = _
    simp
  have hbody : ∀ bs : List IoBunch, (streamOpen.ofp ++ bs.flatMap IoBunch.image).drop
      ioFileHdrLayout.size = bs.flatMap IoBunch.image := fun bs => by rw [← hopen, List.drop_left]
  cases hcur : stream.cur with
  | none =>
    have hspecs := h.empty.mp hcur
    subst hspecs
    have hclosed : closed = [] := h.one.mpr trivial
    subst hclosed
    refine ⟨⟨mkBtversion btverMjr btverMnr btverSub, iip.genesis, stream.bunches, stream.pkts⟩, [],
      { version := rfl
        genesis := hg
        nbunches := h.bunches
        totalPkts := h.pkts
        wf := fun _ hb => (by cases hb)
        content := rfl
        empty := ⟨fun _ => rfl, fun _ => rfl⟩
        one := ⟨fun _ => trivial, fun _ => Nat.zero_le 1⟩ }, ?_⟩
    unfold streamClose streamFlush
    rw [hcur]
    show Except.ok (ioFileHdrLayout.store _ ++ stream.ofp.drop _) = _
    rw [h.ofp, hbody]
  | some b =>
    obtain ⟨hb, -⟩ := h.curWF b hcur
    have hne : specs ≠ [] := fun hnil => by rw [h.empty.mpr hnil] at hcur; cases hcur
    have hcontent := h.content
    rw [hcur, Option.toList_some] at hcontent
    refine ⟨⟨mkBtversion btverMjr btverMnr btverSub, iip.genesis, stream.bunches, stream.pkts⟩, closed ++ [b],
      { version := rfl
        genesis := hg
        nbunches := by
          rw [List.length_append, List.length_singleton, Nat.add_sub_cancel]
          exact h.bunches
        totalPkts := by
          rw [List.dropLast_concat]
          exact h.pkts
        wf := ?_
        content := hcontent
        empty := ⟨fun hc => (by simp at hc), fun hc => absurd hc hne⟩
        one := ?_ }, ?_⟩
    · intro b' hb'
      rcases List.mem_append.mp hb' with hb' | hb'
      · exact h.closedWF b' hb'
      · rw [List.mem_singleton.mp hb']
        exact hb
    · rw [← h.one, List.length_append, List.length_singleton, ← List.length_eq_zero_iff]
      omega
    · unfold streamClose
      rw [streamFlush_eq hcur hb]
      show Except.ok (ioFileHdrLayout.store _ ++ (stream.ofp ++ b.image).drop _) = _
      rw [h.ofp, List.append_assoc, ← List.flatMap_singleton IoBunch.image b, ← List.flatMap_append,
        hbody]

/-- **`process`, where it comes to its end.** -/
theorem process_ok {file out : List UInt8} (h : process ndebug lim pad file = .ok out) :
    ∃ hdr bunches, Recorded lim (queueSpecs (traceRecords file)) hdr bunches ∧
      out = ioFileHdrLayout.store hdr ++ bunches.flatMap IoBunch.image := by
  unfold process at h
  have hfold := @processLoop_eq ndebug lim pad (file.length + 1) (file.length + 1) { ifd := file }
    streamOpen (Nat.lt_succ_self _) (Nat.lt_succ_self _)
  cases hloop : processLoop ndebug lim pad (file.length + 1) { ifd := file } streamOpen with
  | error e =>
    rw [hloop] at h
    cases h
  | ok s =>
    rw [hloop] at h hfold
    obtain ⟨iip, stream⟩ := s
    obtain ⟨hg, closed, hstored⟩ := foldlM_recordSpec (foldlM_recordStep.mp hfold.symm).2
    obtain ⟨hdr, bunches, hrecorded, hclose⟩ := @Stored.close ndebug _ _ _ _ hstored _ hg
    refine ⟨hdr, bunches, hrecorded, ?_⟩
    replace h : streamClose ndebug iip stream = .ok out := h
    rw [hclose] at h
    cases h
    rfl

/-- Whole records in a known byte order, in the order of their times: `process` comes to its
end. -/
theorem process_total {file : List UInt8}
    (hlook : ∀ r ∈ readTrace (file.length + 1) none file, r.1.isSome)
    (htime : (queueSpecs (traceRecords file)).Pairwise fun s s' => s.time ≤ s'.time) :
    ∃ out, process ndebug lim pad file = .ok out := by
  have hfold := @processLoop_eq ndebug lim pad (file.length + 1) (file.length + 1) { ifd := file }
    streamOpen (Nat.lt_succ_self _) (Nat.lt_succ_self _)
  obtain ⟨s, hs⟩ := @foldlM_recordSpec_total ndebug lim pad _ htime
  have hsteps := foldlM_recordStep.mpr
    ⟨fun r hr => by rw [hlook r hr, assertThat_true], hs⟩
  unfold process
  cases hloop : processLoop ndebug lim pad (file.length + 1) { ifd := file } streamOpen with
  | error e =>
    rw [hloop] at hfold
    rw [← hfold] at hsteps
    cases hsteps
  | ok t =>
    rw [hloop] at hfold
    rw [← hfold] at hsteps
    obtain ⟨iip, stream⟩ := t
    cases hsteps
    obtain ⟨hg, closed, hstored⟩ := foldlM_recordSpec hs
    obtain ⟨hdr, bunches, -, hclose⟩ := @Stored.close ndebug _ _ _ _ hstored _ hg
    exact ⟨_, hclose⟩

end Blktrace.Btreplay
