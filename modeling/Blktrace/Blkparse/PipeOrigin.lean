import Blktrace.Blkparse.PipeOrder

/-!
# The time origin of a pipe-mode run

`find_genesis` takes the least time of a batch for the origin, and 0 for "not set yet": a first
batch that reaches down to time 0 leaves the origin to be found again, and a later batch may reach
below it (`doPipe_oneOrigin`).
-/

namespace Blktrace.Blkparse

/-! ## The least time of a batch -/

/-- The first half of `find_genesis`, on the records alone. -/
def leastTime (bits : List BlkIoTrace) : UInt64 :=
  bits.foldl (fun g bit => if bit.time < g then bit.time else g) 0xffffffffffffffff

theorem minTime_eq (ts : List Trace) : minTime ts = leastTime (ts.map Trace.bit) := by
  rw [minTime, leastTime, List.foldl_map]

theorem foldl_least (bits : List BlkIoTrace) (g : UInt64) :
    let least := bits.foldl (fun g bit => if bit.time < g then bit.time else g) g
    least ≤ g ∧ (∀ bit ∈ bits, least ≤ bit.time) ∧
      (least = g ∨ ∃ bit ∈ bits, bit.time = least) := by
  induction bits generalizing g with
  | nil => exact ⟨le_refl g, by simp, Or.inl rfl⟩
  | cons bit rest ih =>
    rw [List.foldl_cons]
    split
    case isTrue hlt =>
      obtain ⟨h1, h2, h3⟩ := ih bit.time
      refine ⟨h1.trans hlt.le, List.forall_mem_cons.mpr ⟨h1, h2⟩, Or.inr ?_⟩
      rcases h3 with heq | ⟨b, hb, heq⟩
      · exact ⟨bit, List.mem_cons_self, heq.symm⟩
      · exact ⟨b, List.mem_cons_of_mem _ hb, heq⟩
    case isFalse hge =>
      obtain ⟨h1, h2, h3⟩ := ih g
      refine ⟨h1, List.forall_mem_cons.mpr ⟨h1.trans (not_lt.mp hge), h2⟩, ?_⟩
      rcases h3 with heq | ⟨b, hb, heq⟩
      · exact Or.inl heq
      · exact Or.inr ⟨b, List.mem_cons_of_mem _ hb, heq⟩

theorem leastTime_le {bits : List BlkIoTrace} {bit : BlkIoTrace} (h : bit ∈ bits) :
    leastTime bits ≤ bit.time := (foldl_least bits _).2.1 bit h

/-- The least time is one of a record. -/
theorem exists_leastTime {bits : List BlkIoTrace} (h : bits ≠ []) :
    ∃ bit ∈ bits, bit.time = leastTime bits := by
  rcases (foldl_least bits 0xffffffffffffffff).2.2 with heq | hmem
  · obtain ⟨bit, hbit⟩ := List.exists_mem_of_ne_nil bits h
    have hle := leastTime_le hbit
    have heq' : leastTime bits = 0xffffffffffffffff := heq
    rw [heq'] at hle ⊢
    exact ⟨bit, hbit, le_antisymm (Word.le_max _) hle⟩
  · exact hmem

theorem leastTime_eq_zero {bits : List BlkIoTrace} :
    leastTime bits = 0 ↔ ∃ bit ∈ bits, bit.time = 0 := by
  constructor
  · intro h
    have hne : bits ≠ [] := by
      rintro rfl
      revert h
      decide
    obtain ⟨bit, hbit, heq⟩ := exists_leastTime hne
    exact ⟨bit, hbit, heq.trans h⟩
  · rintro ⟨bit, hbit, heq⟩
    have hle := leastTime_le hbit
    rw [heq] at hle
    exact UInt64.le_zero_iff.mp hle

/-! ## The origin after some batches -/

/-- The least time of the first batch that does not reach down to 0, and 0 before there is one. -/
def originAt (raws : List (List BlkIoTrace)) : UInt64 :=
  ((raws.map leastTime).find? (· != 0)).getD 0

theorem originAt_concat (raws : List (List BlkIoTrace)) (raw : List BlkIoTrace) :
    originAt (raws ++ [raw]) = if originAt raws = 0 then leastTime raw else originAt raws := by
  rw [originAt, originAt, List.map_append, List.find?_append]
  cases h : (raws.map leastTime).find? (· != 0) with
  | some g =>
    have hg : ¬ g = 0 := by simpa using List.find?_some h
    simp [hg]
  | none =>
    by_cases hraw : leastTime raw = 0
    · simp [hraw]
    · simp [hraw]

/-- An origin above 0 is the least time of one of the batches. -/
theorem originAt_mem {raws : List (List BlkIoTrace)} (h : originAt raws ≠ 0) :
    ∃ raw ∈ raws, leastTime raw = originAt raws := by
  rw [originAt] at h ⊢
  cases hfind : (raws.map leastTime).find? (· != 0) with
  | none =>
    rw [hfind] at h
    exact absurd rfl h
  | some g => exact List.mem_map.mp (List.mem_of_find?_eq_some hfind)

theorem originAt_eq_zero {raws : List (List BlkIoTrace)} (h : originAt raws = 0) :
    ∀ raw ∈ raws, leastTime raw = 0 := by
  intro raw hraw
  by_contra hne
  rw [originAt] at h
  cases hfind : (raws.map leastTime).find? (· != 0) with
  | none =>
    have hno := List.find?_eq_none.mp hfind (leastTime raw) (List.mem_map_of_mem hraw)
    exact hno (by simpa using hne)
  | some g =>
    rw [hfind] at h
    have hg := List.find?_some hfind
    simp_all

/-- The origins of the batches sorted so far, and the one in force. -/
structure Origins (s : PipeState) : Prop where
  now : s.genesisTime = originAt (s.batches.map Batch.raw)
  each : ∀ pre b post, s.batches = pre ++ b :: post →
    b.before = originAt (pre.map Batch.raw) ∧ b.genesis = originAt ((pre ++ [b]).map Batch.raw)

theorem Origins.sortEntries {o : Opts} {s : PipeState} (h : Origins s) :
    Origins (Blkparse.sortEntries o s).1 := by
  obtain ⟨hframe, -⟩ := sortEntries_frame o s
  have hnew : originOf s.genesisTime s.traceList
      = originAt (s.batches.map Batch.raw ++ [s.traceList.map Trace.bit]) := by
    rw [originAt_concat, ← h.now, originOf, minTime_eq]
  rw [hframe]
  refine ⟨?_, fun pre b post heq => ?_⟩
  · dsimp only
    rw [List.map_append, hnew]
    rfl
  · dsimp only at heq
    rcases List.eq_nil_or_concat post with rfl | ⟨post', last, rfl⟩
    · -- the new batch
      obtain ⟨rfl, rfl⟩ := List.append_singleton_inj.mp heq
      refine ⟨h.now, ?_⟩
      rw [List.map_append]
      exact hnew
    · rw [List.concat_eq_append, ← List.cons_append, ← List.append_assoc] at heq
      obtain ⟨hpre, -⟩ := List.append_singleton_inj.mp heq
      exact h.each pre b post' hpre

theorem Origins.readEvents {o : Opts} {s : PipeState} (h : Origins s)
    (input : List (Option BlkIoTrace)) : Origins (Blkparse.readEvents o input 0 none s).1 := by
  rw [(readEvents_frame o input 0 none s).1]
  exact ⟨h.now, h.each⟩

theorem Origins.showEntriesRb {o : Opts} {find : Find} {force : Bool} {s : PipeState}
    (h : Origins s) : Origins (Blkparse.showEntriesRb o find force s) := by
  rw [Blkparse.showEntriesRb, showLoop_frame]
  exact ⟨h.now, h.each⟩

theorem Origins.turn {o : Opts} {input rest : List (Option BlkIoTrace)} {s s' s₁ : PipeState}
    {events : Nat} {youngest : UInt64} (h : Origins s)
    (hread : Blkparse.readEvents o input 0 none s = (s', events, rest))
    (hsort : Blkparse.sortEntries o { s' with readSequence := s'.readSequence + 1 } = (s₁, youngest)) :
    Origins s₁ := by
  have hnew := h.readEvents (o := o) input
  rw [hread] at hnew
  have hs₁ := Origins.sortEntries (o := o) (s := { s' with
    readSequence := s'.readSequence + 1 }) ⟨hnew.now, hnew.each⟩
  rwa [hsort] at hs₁

theorem Origins.init (names : Nat) : Origins (.init names) :=
  ⟨rfl, fun pre b post heq => by simp [PipeState.init] at heq⟩

theorem pipeLoop_origins (o : Opts) (find : Find) (names : Nat) (input : List (Option BlkIoTrace)) :
    Origins (pipeLoop o find (input.length + 1) input (.init names)) := by
  apply pipeLoop_induction (P := fun _ s => Origins s)
  · intro input s s' rest h heq
    have hnew := h.readEvents (o := o) input
    rwa [heq] at hnew
  · intro input s s' events rest s₁ youngest h heq _ hsort
    exact ⟨fun _ => h.turn heq hsort, fun _ => (h.turn heq hsort).showEntriesRb⟩
  · exact Nat.lt_succ_self _
  · exact Origins.init names

theorem doPipe_origins (o : Opts) (find : Find) (names : Nat) (input : List (Option BlkIoTrace)) :
    Origins (doPipe o find names input) := by
  rw [doPipe]
  split
  · exact pipeLoop_origins o find names input
  · exact (pipeLoop_origins o find names input).showEntriesRb

/-! ## One origin -/

/-- Whether the call of `find_genesis` for a batch, if there is one, moves `abs_start_time`. -/
def Batch.adjusts (b : Batch) : Bool :=
  b.before == 0 && b.clock.startTimestamp != 0 && b.clock.startTimestamp != b.genesis

/-- Where a batch does not adjust it, the clock is as before it. -/
theorem clockOf_of_not_adjusts {c : Clock} {before : UInt64} {ts : List Trace}
    (h : Batch.adjusts ⟨ts.map Trace.bit, c, before, originOf before ts⟩ = false) :
    clockOf c before ts = c := by
  rw [clockOf]
  split
  case isTrue h0 =>
    rw [Clock.findGenesis, if_neg]
    rintro ⟨hset, hne⟩
    simp [Batch.adjusts, originOf, h0, hset, hne] at h
  case isFalse => rfl

/-- One origin for a run: that of the first batch, with the clock moved to it at most once, and no
time that wraps below it. -/
structure OneOrigin (bs : List Batch) : Prop where
  single : ∃ g, (∀ first, bs.head? = some first → g = leastTime first.raw) ∧
    ∀ b ∈ bs, b.genesis = g
  once : (bs.filter Batch.adjusts).length ≤ 1
  noWrap : ∀ b ∈ bs, ∀ bit ∈ b.raw, (relative b.genesis bit).time ≤ bit.time

/-- **When there is one origin.** The first batch starts above 0 and nothing read later is older;
or every batch reaches down to 0, and at most one is sorted after a `TIMESTAMP` of a time above
0. -/
def OriginOk : List Batch → Prop
  | [] => True
  | first :: rest =>
    (leastTime first.raw ≠ 0 ∧ ∀ b ∈ rest, ∀ bit ∈ b.raw, leastTime first.raw ≤ bit.time) ∨
      ((∀ b ∈ first :: rest, ∃ bit ∈ b.raw, bit.time = 0) ∧
        ((first :: rest).filter fun b => b.clock.startTimestamp != 0).length ≤ 1)

section Log

variable {s : PipeState} (h : Origins s)

include h

/-- A first batch above 0 sets the origin for all. -/
theorem Origins.of_ne_zero {first : Batch} {rest : List Batch} (hs : s.batches = first :: rest)
    (hne : leastTime first.raw ≠ 0) {b : Batch} (hb : b ∈ s.batches) :
    b.genesis = leastTime first.raw ∧ (b ∈ rest → b.before ≠ 0) := by
  have hfind : ∀ raws, originAt (first.raw :: raws) = leastTime first.raw := by
    intro raws
    simp [originAt, hne]
  rw [hs] at hb
  have hrest : b ∈ rest → b.genesis = leastTime first.raw ∧ b.before ≠ 0 := by
    intro hb
    obtain ⟨pre, post, rfl⟩ := List.append_of_mem hb
    obtain ⟨h1, h2⟩ := h.each (first :: pre) b post (by rw [hs, List.cons_append])
    rw [List.map_cons, hfind] at h1
    rw [List.cons_append, List.map_cons, hfind] at h2
    exact ⟨h2, h1 ▸ hne⟩
  refine ⟨?_, fun hb => (hrest hb).2⟩
  rcases List.mem_cons.mp hb with rfl | hb
  · exact (h.each [] b rest hs).2.trans (hfind [])
  · exact (hrest hb).1

/-- As long as every batch reaches down to 0, the origin is 0 and looked for again each time. -/
theorem Origins.of_zero (hzero : ∀ b ∈ s.batches, leastTime b.raw = 0) {b : Batch}
    (hb : b ∈ s.batches) : b.genesis = 0 ∧ b.before = 0 := by
  have hfind : ∀ bs : List Batch, (∀ b ∈ bs, leastTime b.raw = 0) →
      originAt (bs.map Batch.raw) = 0 := by
    intro bs hbs
    have hnone : ((bs.map Batch.raw).map leastTime).find? (· != 0) = none := by
      rw [List.find?_eq_none]
      simpa using hbs
    rw [originAt, hnone]
    rfl
  obtain ⟨pre, post, heq⟩ := List.append_of_mem hb
  have hpre : ∀ c ∈ pre ++ [b], leastTime c.raw = 0 := by
    intro c hc
    apply hzero
    rw [heq]
    rcases List.mem_append.mp hc with hc | hc
    · exact List.mem_append_left _ hc
    · exact List.mem_append_right _ (List.mem_singleton.mp hc ▸ List.mem_cons_self)
  obtain ⟨h1, h2⟩ := h.each pre b post heq
  exact ⟨h2.trans (hfind _ hpre),
    h1.trans (hfind _ fun c hc => hpre c (List.mem_append_left _ hc))⟩

/-- A batch that does not reach down to 0 has an origin above 0. -/
theorem Origins.leastTime_eq_zero {b : Batch} (hb : b ∈ s.batches) (hg : b.genesis = 0) :
    leastTime b.raw = 0 := by
  obtain ⟨pre, post, heq⟩ := List.append_of_mem hb
  have horigin := (h.each pre b post heq).2
  rw [List.map_append, List.map_singleton, originAt_concat, hg] at horigin
  split at horigin
  · exact horigin.symm
  case isFalse hpre => exact absurd horigin.symm hpre

/-- The origin of a batch is the least time of one read by then. -/
theorem Origins.genesis_mem {pre post : List Batch} {b : Batch}
    (hs : s.batches = pre ++ b :: post) : ∃ c ∈ pre ++ [b], leastTime c.raw = b.genesis := by
  have hb : b ∈ s.batches := hs ▸ List.mem_append_right _ List.mem_cons_self
  by_cases hg : b.genesis = 0
  · exact ⟨b, List.mem_append_right _ (List.mem_singleton_self b),
      (h.leastTime_eq_zero hb hg).trans hg.symm⟩
  · have horigin := (h.each pre b post hs).2
    obtain ⟨raw, hraw, heq⟩ := originAt_mem (horigin ▸ hg)
    obtain ⟨c, hc, rfl⟩ := List.mem_map.mp hraw
    exact ⟨c, hc, heq.trans horigin.symm⟩

/-- In a trace in time order the origin of a batch is a time read by then, and no record of the batch
is before it. -/
theorem Origins.le {native : Bool} {input rest : List (Option BlkIoTrace)}
    (hread : ReadSoFar native input rest s)
    (hsorted : (pipeRecords native input).Pairwise fun a b => a.time ≤ b.time)
    {pre post : List Batch} {b : Batch} (hs : s.batches = pre ++ b :: post) :
    (∃ bit ∈ pipeRecords native input, bit.time = b.genesis) ∧
      ∀ bit ∈ b.raw, b.genesis ≤ bit.time := by
  obtain ⟨c, hc, hleast⟩ := h.genesis_mem hs
  have hcmem : c ∈ s.batches := by
    rw [hs]
    rcases List.mem_append.mp hc with hc | hc
    · exact List.mem_append_left _ hc
    · exact List.mem_append_right _ (List.mem_singleton.mp hc ▸ List.mem_cons_self)
  obtain ⟨first, hfirst, htime⟩ := exists_leastTime (hread.nonempty c hcmem)
  rw [hread.records] at hsorted ⊢
  rw [← hleast]
  refine ⟨⟨first, List.mem_append_left _
    (List.mem_flatMap.mpr ⟨c, hcmem, List.mem_reverse.mpr hfirst⟩), htime⟩, fun bit hbit => ?_⟩
  rcases List.mem_append.mp hc with hc | hc
  · rw [hs, List.flatMap_append, List.append_assoc] at hsorted
    rw [← htime]
    refine (List.pairwise_append.mp hsorted).2.2 first
      (List.mem_flatMap.mpr ⟨c, hc, List.mem_reverse.mpr hfirst⟩) bit ?_
    rw [List.flatMap_cons]
    exact List.mem_append_left _ (List.mem_append_left _ (List.mem_reverse.mpr hbit))
  · rw [List.mem_singleton.mp hc]
    exact leastTime_le hbit

theorem Origins.oneOrigin_iff : OneOrigin s.batches ↔ OriginOk s.batches := by
  cases hs : s.batches with
  | nil => exact ⟨fun _ => trivial, fun _ => ⟨⟨0, by simp, by simp⟩, by simp, by simp⟩⟩
  | cons first rest =>
    have hmem : ∀ b, b ∈ first :: rest → b ∈ s.batches := fun b hb => hs ▸ hb
    by_cases hne : leastTime first.raw = 0
    · -- then every batch must reach down to 0, and each looks for the origin again
      have hadjusts : (∀ b ∈ first :: rest, leastTime b.raw = 0) →
          (first :: rest).filter Batch.adjusts
            = (first :: rest).filter fun b => b.clock.startTimestamp != 0 := by
        intro hzero
        refine List.filter_congr fun b hb => ?_
        obtain ⟨hg, hbefore⟩ := h.of_zero (fun c hc => hzero c (hs ▸ hc)) (hmem b hb)
        rw [Batch.adjusts, hg, hbefore]
        simp
      constructor
      · intro hone
        obtain ⟨g, hfirst, hall⟩ := hone.single
        have hg : g = 0 := (hfirst first rfl).trans hne
        have hzero : ∀ b ∈ first :: rest, leastTime b.raw = 0 := fun b hb =>
          h.leastTime_eq_zero (hmem b hb) ((hall b hb).trans hg)
        refine Or.inr ⟨fun b hb => Blkparse.leastTime_eq_zero.mp (hzero b hb), ?_⟩
        rw [← hadjusts hzero]
        exact hone.once
      · rintro (⟨hpos, -⟩ | ⟨htimes, hcount⟩)
        · exact absurd hne hpos
        · have hzero : ∀ b ∈ first :: rest, leastTime b.raw = 0 := fun b hb =>
            Blkparse.leastTime_eq_zero.mpr (htimes b hb)
          have hg : ∀ b ∈ first :: rest, b.genesis = 0 := fun b hb =>
            (h.of_zero (fun c hc => hzero c (hs ▸ hc)) (hmem b hb)).1
          refine ⟨⟨0, fun b hb => ?_, hg⟩, ?_, fun b hb bit _ => ?_⟩
          · cases hb
            exact hne.symm
          · rw [hadjusts hzero]
            exact hcount
          · rw [hg b hb]
            exact Word.sub_le_iff.mpr UInt64.zero_le
    · -- the first batch sets the origin
      have hg : ∀ b ∈ first :: rest, b.genesis = leastTime first.raw := fun b hb =>
        (h.of_ne_zero hs hne (hmem b hb)).1
      constructor
      · intro hone
        refine Or.inl ⟨hne, fun b hb bit hbit => ?_⟩
        have hle := hone.noWrap b (List.mem_cons_of_mem _ hb) bit hbit
        rw [hg b (List.mem_cons_of_mem _ hb)] at hle
        exact Word.sub_le_iff.mp hle
      · rintro (⟨-, holder⟩ | ⟨htimes, -⟩)
        · refine ⟨⟨leastTime first.raw, fun b hb => ?_, hg⟩, ?_, fun b hb bit hbit => ?_⟩
          · cases hb
            rfl
          · have hrest : rest.filter Batch.adjusts = [] := by
              refine List.filter_eq_nil_iff.mpr fun b hb => ?_
              have hset := (h.of_ne_zero hs hne (hmem b (List.mem_cons_of_mem _ hb))).2 hb
              simp [Batch.adjusts, hset]
            rw [List.filter_cons, hrest]
            split <;> simp
          · rw [hg b hb]
            apply Word.sub_le_iff.mpr
            rcases List.mem_cons.mp hb with rfl | hb
            · exact leastTime_le hbit
            · exact holder b hb bit hbit
        · exact absurd (Blkparse.leastTime_eq_zero.mpr (htimes first List.mem_cons_self)) hne

end Log

/-- **The time origin of a run**: what is stored are the records of the batches with the origin of
their batch subtracted; and that origin is one, found once and below every time, exactly under
`OriginOk`. -/
theorem doPipe_oneOrigin (o : Opts) (find : Find) (names : Nat)
    (input : List (Option BlkIoTrace)) :
    (doPipe o find names input).stored = (doPipe o find names input).batches.flatMap
        (fun b => (b.raw.map (relative b.genesis)).filter fun bit => !checkStopwatch o bit) ∧
      (OneOrigin (doPipe o find names input).batches ↔
        OriginOk (doPipe o find names input).batches) :=
  ⟨(doPipe_tree o find names input).1.stored, (doPipe_origins o find names input).oneOrigin_iff⟩

/-- Time 10 and then, in a batch of its own, time 5: that one ends up at 2^64 - 5. And with times
0 and then 7 both records get time 0, from two origins. -/
theorem not_oneOrigin :
    ¬ OneOrigin (doPipe {} (fun _ _ _ => none) 0 [some (queueRecord 5 0 1 10), none,
        some (queueRecord 5 0 2 5)]).batches ∧
      ¬ OneOrigin (doPipe {} (fun _ _ _ => none) 0 [some (queueRecord 5 0 1 0), none,
        some (queueRecord 5 0 2 7)]).batches := by
  have hwrap : (doPipe {} (fun _ _ _ => none) 0 [some (queueRecord 5 0 1 10), none,
      some (queueRecord 5 0 2 5)]).batches = [⟨[queueRecord 5 0 1 10], {}, 0, 10⟩,
        ⟨[queueRecord 5 0 2 5], {}, 10, 10⟩] := by decide
  have htwo : (doPipe {} (fun _ _ _ => none) 0 [some (queueRecord 5 0 1 0), none,
      some (queueRecord 5 0 2 7)]).batches = [⟨[queueRecord 5 0 1 0], {}, 0, 0⟩,
        ⟨[queueRecord 5 0 2 7], {}, 0, 7⟩] := by decide
  constructor
  · rw [hwrap]
    intro h
    have hle := h.noWrap ⟨[queueRecord 5 0 2 5], {}, 10, 10⟩ (by simp) (queueRecord 5 0 2 5) (by simp)
    revert hle
    decide
  · rw [htwo]
    intro h
    obtain ⟨g, -, hall⟩ := h.single
    have h0 : (0 : UInt64) = g := hall ⟨[queueRecord 5 0 1 0], {}, 0, 0⟩ (by simp)
    have h7 : (7 : UInt64) = g := hall ⟨[queueRecord 5 0 2 7], {}, 0, 7⟩ (by simp)
    exact absurd (h0.trans h7.symm) (by decide)

end Blktrace.Blkparse
