import Blktrace.Btreplay.RecordReplay

/-!
# How `btrecord` groups the IOs

`stream_add_io` is greedy: an IO joins the current bunch unless that is full or was opened too long ago.
For IOs in the order of their times the assertions hold, and what is written is the coarsest such grouping.
Where an IO is earlier than the one before it the assertion of `io_bunch_add` fails, and `next_io`
refuses it only if it is earlier than the first one.
-/

namespace Blktrace.Btreplay

variable {ndebug : Bool} {lim : Limits} {pad : IoStream → IoSpec → UInt32}

/-! ## Groups -/

/-- The bunch has the IOs in it, and the time of the first one. -/
structure IoBunch.Of (b : IoBunch) (ios : List IoSpec) : Prop where
  timeStamp : ∀ first ∈ ios.head?, b.hdr.timeStamp = first.time
  npkts : b.hdr.npkts.toNat = ios.length
  content : b.pkts.map IoPkt.content = ios.map IoSpec.content

/-- The IOs fit a bunch that the first of them opens. -/
structure Together (lim : Limits) (ios : List IoSpec) : Prop where
  pos : 1 ≤ ios.length
  le : ios.length ≤ lim.maxPktsPerBunch
  inTime : ∀ first ∈ ios.head?, ∀ s ∈ ios,
    first.time ≤ s.time ∧ s.time.toNat - first.time.toNat ≤ lim.maxBunchTm.toNat

/-- The bunch is full, or the next IO is too late for it. -/
def ClosedBy (lim : Limits) (ios next : List IoSpec) : Prop :=
  ios.length = lim.maxPktsPerBunch ∨
    ∀ first ∈ ios.head?, ∀ s ∈ next.head?, lim.maxBunchTm.toNat < s.time.toNat - first.time.toNat

/-- The IOs are cut into bunches, none of which is closed early. -/
structure Grouped (lim : Limits) (specs : List IoSpec) (groups : List (List IoSpec)) : Prop where
  flatten : groups.flatten = specs
  together : ∀ ios ∈ groups, Together lim ios
  closed : groups.IsChain (ClosedBy lim)

/-! ## One IO -/

/-- The stream after the IOs of `done`, each group a bunch in the file, and of `last`. -/
structure Bunched (lim : Limits) (done : List (List IoSpec)) (last : List IoSpec) (stream : IoStream) :
    Prop where
  ofp : ∃ bunches, List.Forall₂ IoBunch.Of bunches done ∧
    stream.ofp = streamOpen.ofp ++ bunches.flatMap IoBunch.image
  cur : ∃ b, stream.cur = some b ∧ b.WF ∧ b.Of last
  startTime : ∀ first ∈ last.head?, stream.startTime = first.time
  lastTime : ∀ s ∈ last.getLast?, stream.lastTime = s.time
  together : ∀ ios ∈ done ++ [last], Together lim ios
  closed : (done ++ [last]).IsChain (ClosedBy lim)

theorem together_single (lim : Limits) (spec : IoSpec) : Together lim [spec] where
  pos := le_refl 1
  le := lim.pkts_pos
  inTime := by
    intro first hfirst s hs
    obtain rfl := Option.some.inj hfirst
    rw [List.mem_singleton.mp hs]
    exact ⟨le_refl _, by rw [Nat.sub_self]; exact Nat.zero_le _⟩

theorem of_single (spec : IoSpec) (p : UInt32) : IoBunch.Of ⟨⟨1, spec.time⟩, [spec.pkt p]⟩ [spec] where
  timeStamp := by
    intro first hfirst
    exact congrArg IoSpec.time (Option.some.inj hfirst)
  npkts := rfl
  content := rfl

theorem orderly_true {stream : IoStream} {spec : IoSpec} (h : stream.lastTime ≤ spec.time) :
    (decide (stream.lastTime = 0) || decide (stream.lastTime ≤ spec.time)) = true := by
  rw [decide_eq_true h, Bool.or_true]

/-- The first IO opens a bunch. -/
theorem bunched_open (spec : IoSpec) (p : UInt32) :
    ∃ stream, streamAddIo ndebug lim p streamOpen spec = .ok stream ∧ Bunched lim [] [spec] stream := by
  refine ⟨{ streamOpen with
      startTime := spec.time
      cur := some ⟨⟨1, spec.time⟩, [spec.pkt p]⟩
      lastTime := spec.time }, ?_,
    { ofp := ⟨[], .nil, (List.append_nil _).symm⟩
      cur := ⟨_, rfl, wf_single spec _, of_single spec p⟩
      startTime := fun first h => congrArg IoSpec.time (Option.some.inj h)
      lastTime := fun s h => congrArg IoSpec.time (Option.some.inj h)
      together := List.forall_mem_singleton.mpr (together_single lim spec)
      closed := .singleton _ }⟩
  show ioBunchAdd ndebug p (ioBunchCreate streamOpen spec.time) spec = _
  have hzero : streamOpen.lastTime ≤ spec.time := UInt64.zero_le
  rw [ioBunchAdd_create, orderly_true hzero, assertThat_true]
  rfl

section

variable {done : List (List IoSpec)} {last : List IoSpec} {stream : IoStream} {spec : IoSpec}

/-- An IO that fits the bunch. -/
theorem Bunched.join (h : Bunched lim done last stream) (hle : stream.lastTime ≤ spec.time)
    (hstart : stream.startTime ≤ spec.time) {b : IoBunch} (hcur : stream.cur = some b)
    (hdone : bunchDone lim stream b spec = false) (p : UInt32) :
    ∃ stream', streamAddIo ndebug lim p stream spec = .ok stream' ∧
      Bunched lim done (last ++ [spec]) stream' := by
  obtain ⟨b', hcur', hb, hof⟩ := h.cur
  obtain rfl := Option.some.inj (hcur.symm.trans hcur')
  obtain ⟨hroom, htime⟩ := (bunchDone_eq_false hb spec).mp hdone
  have hlen : b.pkts.length = last.length := by rw [← hb.npkts, hof.npkts]
  have hlim := lim.pkts_le
  have hmax : b.pkts.length < btMaxPkts := by
    unfold btMaxPkts
    omega
  have hlast := h.together last (List.mem_append_right _ List.mem_cons_self)
  have hne : last ≠ [] := List.ne_nil_of_length_pos hlast.pos
  have hhead : (last ++ [spec]).head? = last.head? := List.head?_append_of_ne_nil _ hne
  rw [UInt64.le_iff_toNat_le, Word.toNat_sub_of_le hstart] at htime
  refine ⟨{ stream with cur := some (b.add (spec.pkt p)), lastTime := spec.time }, ?_,
    { ofp := h.ofp, cur := ⟨b.add (spec.pkt p), rfl, hb.add hmax _, ?_⟩, startTime := ?_,
      lastTime := by simp, together := ?_, closed := ?_ }⟩
  · unfold streamAddIo
    rw [hcur]
    simp only [hdone, Bool.false_eq_true, if_false]
    show ioBunchAdd ndebug p stream spec = _
    rw [ioBunchAdd_eq hcur (by rw [hb.npkts]; exact hmax) spec, orderly_true hle, assertThat_true]
    rfl
  · refine ⟨?_, ?_, ?_⟩
    · rw [hhead]
      exact hof.timeStamp
    · rw [(hb.add hmax (spec.pkt p)).npkts, List.length_append, ← hlen]
      exact List.length_append
    · show (b.pkts ++ [spec.pkt p]).map IoPkt.content = _
      rw [List.map_append, hof.content, List.map_append]
      rfl
  · rw [hhead]
    exact h.startTime
  · intro ios hios
    rcases List.mem_append.mp hios with hios | hios
    · exact h.together ios (List.mem_append_left _ hios)
    · rw [List.mem_singleton.mp hios]
      refine ⟨?_, ?_, ?_⟩
      · rw [List.length_append]
        exact Nat.le_add_left _ _
      · rw [List.length_append, ← hlen]
        exact hroom
      · rw [hhead]
        intro first hfirst s hs
        rcases List.mem_append.mp hs with hs | hs
        · exact hlast.inTime first hfirst s hs
        · rw [List.mem_singleton.mp hs, ← h.startTime first hfirst]
          exact ⟨hstart, htime⟩
  · have hclosed := h.closed
    rw [List.isChain_append] at hclosed ⊢
    refine ⟨hclosed.1, .singleton _, fun ios hios next hnext => ?_⟩
    obtain rfl := Option.some.inj hnext
    rcases hclosed.2.2 ios hios last rfl with hfull | hlate
    · exact .inl hfull
    · right
      rw [hhead]
      exact hlate

/-- An IO that does not has the bunch written, and opens the next. -/
theorem Bunched.close (h : Bunched lim done last stream) (hle : stream.lastTime ≤ spec.time)
    (hstart : stream.startTime ≤ spec.time) {b : IoBunch} (hcur : stream.cur = some b)
    (hdone : bunchDone lim stream b spec = true) (p : UInt32) :
    ∃ stream', streamAddIo ndebug lim p stream spec = .ok stream' ∧
      Bunched lim (done ++ [last]) [spec] stream' := by
  obtain ⟨b', hcur', hb, hof⟩ := h.cur
  obtain rfl := Option.some.inj (hcur.symm.trans hcur')
  obtain ⟨bunches, hbunches, hofp⟩ := h.ofp
  have hlen : b.pkts.length = last.length := by rw [← hb.npkts, hof.npkts]
  have hlast := h.together last (List.mem_append_right _ List.mem_cons_self)
  have hnot : ¬ (b.pkts.length < lim.maxPktsPerBunch ∧ spec.time - stream.startTime ≤ lim.maxBunchTm) := by
    rw [← bunchDone_eq_false hb, hdone]
    exact nofun
  refine ⟨{ stream with
      ofp := stream.ofp ++ b.image
      bunches := stream.bunches + 1
      pkts := stream.pkts + b.hdr.npkts
      startTime := spec.time
      cur := some ⟨⟨1, spec.time⟩, [spec.pkt p]⟩
      lastTime := spec.time }, ?_,
    { ofp := ⟨bunches ++ [b], ?_, ?_⟩
      cur := ⟨_, rfl, wf_single spec _, of_single spec p⟩
      startTime := fun first h => congrArg IoSpec.time (Option.some.inj h)
      lastTime := fun s h => congrArg IoSpec.time (Option.some.inj h)
      together := ?_, closed := ?_ }⟩
  · unfold streamAddIo
    rw [hcur]
    simp only [hdone, if_true, streamFlush_eq hcur hb]
    show ioBunchAdd ndebug p (ioBunchCreate _ spec.time) spec = _
    rw [ioBunchAdd_create, orderly_true hle, assertThat_true]
    rfl
  · exact List.rel_append hbunches (.cons hof .nil)
  · show stream.ofp ++ b.image = _
    rw [hofp, List.flatMap_append, List.flatMap_singleton, List.append_assoc]
  · intro ios hios
    rcases List.mem_append.mp hios with hios | hios
    · exact h.together ios hios
    · rw [List.mem_singleton.mp hios]
      exact together_single lim spec
  · rw [List.isChain_append]
    refine ⟨h.closed, .singleton _, fun ios hios next hnext => ?_⟩
    obtain rfl := Option.some.inj hnext
    rw [List.getLast?_concat] at hios
    obtain rfl := Option.some.inj hios
    rw [not_and_or] at hnot
    rcases hnot with hfull | hlate
    · left
      exact le_antisymm hlast.le (hlen ▸ not_lt.mp hfull)
    · right
      intro first hfirst s hs
      obtain rfl := Option.some.inj hs
      rw [UInt64.le_iff_toNat_le, Word.toNat_sub_of_le hstart, h.startTime first hfirst] at hlate
      exact not_le.mp hlate

end

/-! ## All IOs -/

/-- **A run of `stream_add_io`** over IOs in the order of their times. -/
theorem bunched_foldlM {specs : List IoSpec} (hne : specs ≠ [])
    (h : specs.Pairwise fun s s' => s.time ≤ s'.time) :
    ∃ stream done last, specs.foldlM (fun stream spec => streamAddIo ndebug lim (pad stream spec) stream spec)
        streamOpen = .ok stream ∧ Bunched lim done last stream ∧ (done ++ [last]).flatten = specs := by
  induction specs using List.reverseRecOn with
  | nil => exact absurd rfl hne
  | append_singleton specs spec ih =>
    obtain ⟨hspecs, -, hlast⟩ := List.pairwise_append.mp h
    by_cases hnil : specs = []
    · subst hnil
      obtain ⟨stream, hstream, hb⟩ := @bunched_open ndebug lim spec (pad streamOpen spec)
      refine ⟨stream, [], [spec], ?_, hb, rfl⟩
      show (streamAddIo ndebug lim (pad streamOpen spec) streamOpen spec >>= pure) = _
      rw [hstream]
      rfl
    obtain ⟨stream, done, last, hfold, hb, hflat⟩ := ih hnil hspecs
    have hlastgroup := hb.together last (List.mem_append_right _ List.mem_cons_self)
    have hlne : last ≠ [] := List.ne_nil_of_length_pos hlastgroup.pos
    have hmem : ∀ s ∈ last, s.time ≤ spec.time := by
      intro s hs
      refine hlast s ?_ spec List.mem_cons_self
      rw [← hflat, List.flatten_append]
      exact List.mem_append_right _ (by simpa using hs)
    have hle : stream.lastTime ≤ spec.time := by
      rw [hb.lastTime _ (List.getLast?_eq_some_getLast hlne)]
      exact hmem _ (List.getLast_mem hlne)
    have hstart : stream.startTime ≤ spec.time := by
      rw [hb.startTime _ (List.head?_eq_some_head hlne)]
      exact hmem _ (List.head_mem hlne)
    obtain ⟨b, hcur, -⟩ := hb.cur
    rw [foldlM_snoc, hfold]
    show ∃ stream' done last, streamAddIo ndebug lim (pad stream spec) stream spec = .ok stream' ∧ _ ∧ _
    cases hdone : bunchDone lim stream b spec with
    | false =>
      obtain ⟨stream', hadd, hb'⟩ := hb.join hle hstart hcur hdone (pad stream spec)
      refine ⟨stream', done, last ++ [spec], hadd, hb', ?_⟩
      rw [← hflat]
      simp
    | true =>
      obtain ⟨stream', hadd, hb'⟩ := hb.close hle hstart hcur hdone (pad stream spec)
      refine ⟨stream', done ++ [last], [spec], hadd, hb', ?_⟩
      rw [List.flatten_append, hflat]
      rfl

/-- **Bunching.** For IOs in the order of their times no assertion fails, and the file has behind its header
a bunch for each group of a greedy grouping. -/
theorem bunches_grouped (ndebug : Bool) (lim : Limits) (pad : IoStream → IoSpec → UInt32)
    {specs : List IoSpec} (h : specs.Pairwise fun s s' => s.time ≤ s'.time) :
    ∃ stream groups bunches,
      (specs.foldlM (fun stream spec => streamAddIo ndebug lim (pad stream spec) stream spec) streamOpen >>=
        streamFlush ndebug) = .ok stream ∧
      stream.ofp = streamOpen.ofp ++ bunches.flatMap IoBunch.image ∧
      List.Forall₂ IoBunch.Of bunches groups ∧ Grouped lim specs groups := by
  by_cases hne : specs = []
  · subst hne
    exact ⟨streamOpen, [], [], rfl, (List.append_nil _).symm, .nil, rfl, nofun, .nil⟩
  obtain ⟨stream, done, last, hfold, hb, hflat⟩ := @bunched_foldlM ndebug lim pad specs hne h
  obtain ⟨bunches, hbunches, hofp⟩ := hb.ofp
  obtain ⟨b, hcur, hwf, hof⟩ := hb.cur
  refine ⟨{ stream with
      ofp := stream.ofp ++ b.image
      bunches := stream.bunches + 1
      pkts := stream.pkts + b.hdr.npkts }, done ++ [last], bunches ++ [b], ?_, ?_,
    List.rel_append hbunches (.cons hof .nil), hflat, hb.together, hb.closed⟩
  · rw [hfold]
    exact streamFlush_eq hcur hwf
  · show stream.ofp ++ b.image = _
    rw [hofp, List.flatMap_append, List.flatMap_singleton, List.append_assoc]

theorem bunches_grouped_twoIos : ∃ stream groups bunches,
    ((queueSpecs twoIos).foldlM (fun stream spec => streamAddIo true defaultLimits 0 stream spec) streamOpen >>=
      streamFlush true) = .ok stream ∧
    stream.ofp = streamOpen.ofp ++ bunches.flatMap IoBunch.image ∧
    List.Forall₂ IoBunch.Of bunches groups ∧ Grouped defaultLimits (queueSpecs twoIos) groups :=
  bunches_grouped true defaultLimits (fun _ _ => 0) (by decide)

/-! ## The assertions -/

theorem queueSpecs_cons (t : BlkIoTrace) (ts : List BlkIoTrace) :
    queueSpecs (t :: ts) =
      if matchAction t.action then (ioFields true t).spec :: queueSpecs ts else queueSpecs ts := by
  unfold queueSpecs
  rw [List.filter_cons]
  split_ifs <;> rfl

/-- What `next_io` returns, for at most `fuel` calls, an error where it refuses an IO. -/
def readIos (ndebug : Bool) : ℕ → IfileInfo → Except Stop (List IoSpec)
  | 0, _ => .ok []
  | fuel + 1, iip => do
    match ← nextIo ndebug (iip.ifd.length + 1) iip with
    | (_, none) => .ok []
    | (iip, some spec) => do
      let specs ← readIos ndebug fuel iip
      .ok (spec :: specs)

/-- A call by turns of `next_io`. -/
theorem readIos_succ (fuel : ℕ) (iip : IfileInfo) :
    readIos ndebug (fuel + 1) iip = nextIoPass ndebug iip >>= fun p =>
      match p with
      | .eof => .ok []
      | .again iip => readIos ndebug (fuel + 1) iip
      | .io iip spec => readIos ndebug fuel iip >>= fun specs => .ok (spec :: specs) := by
  rw [readIos, nextIo_succ]
  cases hpass : nextIoPass ndebug iip with
  | error e => rfl
  | ok p =>
    cases p with
    | eof => rfl
    | io iip' spec => rfl
    | again iip' =>
      have hlt := nextIoPass_again hpass
      show (nextIo ndebug iip.ifd.length iip' >>= _) = readIos ndebug (fuel + 1) iip'
      rw [readIos, nextIo_fuel hlt (Nat.lt_succ_self iip'.ifd.length)]

/-- None of the IOs is earlier than the first one, as far as `next_io` can tell. -/
def Accepted (genesis : UInt64) (specs : List IoSpec) : Prop :=
  ∃ genesis', specs.foldlM nextGenesis genesis = .ok genesis'

/-- **What `next_io` accepts**: the byte order is known, and the IOs are those of the file. -/
theorem accepted_of_readIos {fuel fuel' : ℕ} {iip : IfileInfo} {specs : List IoSpec}
    (h : iip.ifd.length < fuel) (h' : iip.ifd.length < fuel') (hread : readIos false fuel iip = .ok specs) :
    (∀ r ∈ readTrace fuel' iip.native iip.ifd, r.1.isSome) ∧
      specs = queueSpecs ((readTrace fuel' iip.native iip.ifd).filterMap (·.2)) ∧
      Accepted iip.genesis specs := by
  induction fuel' generalizing iip specs fuel with
  | zero => exact absurd h' (Nat.not_lt_zero _)
  | succ fuel' ih =>
    obtain ⟨fuel, rfl⟩ := Nat.exists_eq_add_one_of_ne_zero (Nat.ne_of_gt (Nat.zero_lt_of_lt h))
    rw [readIos_succ, nextIoPass_eq] at hread
    rw [readTrace]
    cases hfront : front iip.native iip.ifd with
    | short =>
      rw [hfront] at hread
      obtain rfl := Except.ok.inj hread
      exact ⟨List.forall_mem_nil _, rfl, _, rfl⟩
    | cut native =>
      rw [hfront] at hread
      cases native with
      | none => cases hread
      | some native =>
        obtain rfl := Except.ok.inj hread
        exact ⟨List.forall_mem_singleton.mpr rfl, rfl, _, rfl⟩
    | whole native t rest =>
      have hlt := front_length hfront
      have hlt' : rest.length < fuel' := Nat.lt_of_lt_of_le hlt (Nat.le_of_lt_succ h')
      rw [hfront] at hread
      cases native with
      | none => cases hread
      | some native =>
        have hcons : ((some native, some t) :: readTrace fuel' (some native) rest).filterMap (·.2) =
          t :: (readTrace fuel' (some native) rest).filterMap (·.2) := rfl
        dsimp only
        rw [List.forall_mem_cons, hcons, queueSpecs_cons]
        replace hread : ((if matchAction t.action then
            setGenesis { iip with ifd := rest, native := some native } (ioFields true t).spec
          else .ok (.again { iip with ifd := rest, native := some native })) >>= _) = .ok specs := hread
        cases hmatch : matchAction t.action with
        | false =>
          rw [hmatch, if_neg Bool.false_ne_true] at hread
          rw [if_neg Bool.false_ne_true]
          replace hread : readIos false (fuel + 1) { iip with ifd := rest, native := some native } =
            .ok specs := hread
          obtain ⟨hlook, hspecs, haccept⟩ := ih (hlt.trans h) hlt' hread
          exact ⟨⟨rfl, hlook⟩, hspecs, haccept⟩
        | true =>
          rw [hmatch, if_pos rfl, setGenesis_eq] at hread
          rw [if_pos rfl]
          cases hgenesis : nextGenesis iip.genesis (ioFields true t).spec with
          | error e =>
            dsimp only at hread
            rw [hgenesis] at hread
            cases hread
          | ok genesis =>
            dsimp only at hread
            rw [hgenesis] at hread
            replace hread : (readIos false fuel
              { iip with ifd := rest, native := some native, genesis := genesis } >>=
                fun specs => .ok ((ioFields true t).spec :: specs)) = .ok specs := hread
            cases hrest : readIos false fuel
              { iip with ifd := rest, native := some native, genesis := genesis } with
            | error e =>
              rw [hrest] at hread
              cases hread
            | ok specs' =>
              rw [hrest] at hread
              obtain rfl := Except.ok.inj hread
              have hlt'' : rest.length < fuel := Nat.lt_of_lt_of_le hlt (Nat.le_of_lt_succ h)
              obtain ⟨hlook, hspecs, genesis', hgenesis'⟩ := ih hlt'' hlt' hrest
              refine ⟨⟨rfl, hlook⟩, congrArg _ hspecs, genesis', ?_⟩
              rw [List.foldlM_cons, hgenesis]
              exact hgenesis'

/-- Only the queue records count, and where the byte order is known nothing else can go wrong. -/
theorem foldlM_recordStep_eq {rs : List (Option Bool × Option BlkIoTrace)} (h : ∀ r ∈ rs, r.1.isSome)
    (s : UInt64 × IoStream) :
    rs.foldlM (recordStep ndebug lim pad) s =
      (queueSpecs (rs.filterMap (·.2))).foldlM (recordSpec ndebug lim pad) s := by
  induction rs generalizing s with
  | nil => rfl
  | cons r rs ih =>
    obtain ⟨hr, hrs⟩ := List.forall_mem_cons.mp h
    rw [List.foldlM_cons, recordStep, hr, assertThat_true]
    obtain ⟨native, t⟩ := r
    cases t with
    | none => exact ih hrs s
    | some t =>
      show ((if matchAction t.action then recordSpec ndebug lim pad s (ioFields true t).spec else .ok s) >>=
        fun s => rs.foldlM (recordStep ndebug lim pad) s) = _
      have hcons : ((native, some t) :: rs).filterMap (·.2) = t :: rs.filterMap (·.2) := rfl
      rw [hcons, queueSpecs_cons]
      cases hmatch : matchAction t.action with
      | false => exact ih hrs s
      | true =>
        rw [if_pos rfl, if_pos rfl, List.foldlM_cons]
        exact congrArg _ (funext fun s => ih hrs s)

theorem foldlM_nextGenesis {specs : List IoSpec} {genesis : UInt64}
    (h : specs.foldlM nextGenesis 0 = .ok genesis) : genesis = firstTime specs := by
  induction specs using List.reverseRecOn generalizing genesis with
  | nil => exact (Except.ok.inj h).symm
  | append_singleton specs spec ih =>
    rw [foldlM_snoc] at h
    cases hprev : specs.foldlM nextGenesis 0 with
    | error e =>
      rw [hprev] at h
      nomatch h
    | ok g =>
      rw [hprev] at h
      replace h : nextGenesis g spec = .ok genesis := h
      rw [firstTime_append, ← ih hprev]
      unfold nextGenesis at h
      split_ifs at h ⊢
      · exact (Except.ok.inj h).symm
      · exact (Except.ok.inj h).symm

/-- Where the last of IOs in order is not the latest of them with one more, that one is earlier. -/
theorem lt_getLast {specs : List IoSpec} {spec : IoSpec}
    (hsorted : specs.Pairwise fun s s' => s.time ≤ s'.time)
    (h : ¬ (specs ++ [spec]).Pairwise fun s s' => s.time ≤ s'.time) :
    ∃ last ∈ specs.getLast?, spec.time < last.time := by
  have hlate : ∃ s ∈ specs, ¬ s.time ≤ spec.time := by
    by_contra hnone
    simp only [not_exists, not_and, not_not] at hnone
    apply h
    refine List.pairwise_append.mpr ⟨hsorted, List.pairwise_singleton _ _, fun s hs s' hs' => ?_⟩
    rw [List.mem_singleton.mp hs']
    exact hnone s hs
  obtain ⟨s, hs, hlt⟩ := hlate
  have hne : specs ≠ [] := List.ne_nil_of_mem hs
  refine ⟨specs.getLast hne, List.getLast?_eq_some_getLast hne, (UInt64.not_le.mp hlt).trans_le ?_⟩
  rw [← List.dropLast_concat_getLast hne] at hs hsorted
  rcases List.mem_append.mp hs with hs | hs
  · exact (List.pairwise_append.mp hsorted).2.2 s hs _ List.mem_cons_self
  · rw [List.mem_singleton.mp hs]

/-- **IOs that are accepted and not in the order of their times** are more than `io_bunch_add` asserts. -/
theorem foldlM_recordSpec_aborts {specs : List IoSpec} (haccept : Accepted 0 specs)
    (h : ¬ specs.Pairwise fun s s' => s.time ≤ s'.time) :
    specs.foldlM (recordSpec false lim pad) (0, streamOpen) = .error .assertion := by
  induction specs using List.reverseRecOn with
  | nil => exact absurd .nil h
  | append_singleton specs spec ih =>
    obtain ⟨genesis, hgenesis⟩ := haccept
    rw [foldlM_snoc] at hgenesis ⊢
    cases hprev : specs.foldlM nextGenesis 0 with
    | error e =>
      rw [hprev] at hgenesis
      nomatch hgenesis
    | ok g =>
      by_cases hsorted : specs.Pairwise fun s s' => s.time ≤ s'.time
      · obtain ⟨⟨g', stream⟩, hfold⟩ := @foldlM_recordSpec_total false lim pad specs hsorted
        obtain ⟨hfirst, closed, hstored⟩ := foldlM_recordSpec hfold
        obtain ⟨last, hlast, hlt⟩ := lt_getLast hsorted h
        obtain ⟨stream', closed', -, hadd⟩ :=
          @Stored.add false _ _ _ _ hstored spec (pad stream spec)
        rw [hprev, foldlM_nextGenesis hprev, ← hfirst] at hgenesis
        replace hgenesis : nextGenesis g' spec = .ok genesis := hgenesis
        have hzero : stream.lastTime ≠ 0 := by
          rw [hstored.lastTime last hlast]
          intro h0
          exact absurd (h0 ▸ hlt) (UInt64.not_lt.mpr UInt64.zero_le)
        have hearly : (decide (stream.lastTime = 0) || decide (stream.lastTime ≤ spec.time)) = false := by
          rw [decide_eq_false hzero, hstored.lastTime last hlast,
            decide_eq_false (UInt64.not_le.mpr hlt)]
          rfl
        rw [hfold]
        show recordSpec false lim pad (g', stream) spec = _
        rw [recordSpec, hgenesis]
        show (streamAddIo false lim (pad stream spec) stream spec >>= _) = _
        rw [hadd, hearly]
        rfl
      · rw [ih ⟨g, hprev⟩ hsorted]
        rfl

/-- So `btrecord` aborts on them. -/
theorem process_aborts {file : List UInt8} {specs : List IoSpec}
    (haccept : readIos false (file.length + 1) { ifd := file } = .ok specs)
    (h : ¬ specs.Pairwise fun s s' => s.time ≤ s'.time) :
    process false lim pad file = .error .assertion := by
  obtain ⟨hlook, rfl, haccept⟩ :=
    accepted_of_readIos (Nat.lt_succ_self _) (Nat.lt_succ_self file.length) haccept
  have hfold := @processLoop_eq false lim pad (file.length + 1) (file.length + 1) { ifd := file }
    streamOpen (Nat.lt_succ_self _) (Nat.lt_succ_self _)
  rw [foldlM_recordStep_eq hlook, foldlM_recordSpec_aborts haccept h] at hfold
  unfold process
  cases hloop : processLoop false lim pad (file.length + 1) { ifd := file } streamOpen with
  | error e =>
    rw [hloop] at hfold
    rw [Except.error.inj hfold]
    rfl
  | ok s =>
    rw [hloop] at hfold
    nomatch hfold

/-- **The assertions of `btrecord`** hold for a file that `next_io` accepts just if its IOs are in the order
of their times. -/
theorem asserts_iff (lim : Limits) (pad : IoStream → IoSpec → UInt32) {file : List UInt8}
    {specs : List IoSpec} (haccept : readIos false (file.length + 1) { ifd := file } = .ok specs) :
    process false lim pad file ≠ .error .assertion ↔ specs.Pairwise fun s s' => s.time ≤ s'.time := by
  constructor
  · intro hnot
    by_contra hsorted
    exact hnot (process_aborts haccept hsorted)
  · intro hsorted
    obtain ⟨hlook, rfl, -⟩ :=
      accepted_of_readIos (Nat.lt_succ_self _) (Nat.lt_succ_self file.length) haccept
    obtain ⟨out, hout⟩ := @process_total false lim pad file hlook hsorted
    rw [hout]
    exact nofun

theorem asserts_iff_twoIos :
    process false defaultLimits (fun _ _ => 0) (traceImage false twoIos) ≠ .error .assertion ↔
      (queueSpecs twoIos).Pairwise fun s s' => s.time ≤ s'.time := by
  apply asserts_iff
  decide

/-- Three IOs, the last of them earlier than the one before it and later than the first. -/
def lateIos : List BlkIoTrace :=
  [Blkparse.queueRecord 0x800000 0 1 1000, Blkparse.queueRecord 0x800000 0 2 3000,
    Blkparse.queueRecord 0x800000 0 3 2000]

set_option maxRecDepth 4000 in
/-- `next_io` accepts each of them, and `btrecord` aborts. -/
theorem not_asserts :
    readIos false ((traceImage false lateIos).length + 1) { ifd := traceImage false lateIos } =
        .ok (queueSpecs lateIos) ∧
      process false defaultLimits (fun _ _ => 0) (traceImage false lateIos) = .error .assertion := by
  have haccept : readIos false ((traceImage false lateIos).length + 1) { ifd := traceImage false lateIos } =
      .ok (queueSpecs lateIos) := by decide
  exact ⟨haccept, process_aborts haccept (by decide)⟩

end Blktrace.Btreplay
