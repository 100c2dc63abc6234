import Blktrace.Blkparse.FileMerge
import Blktrace.Blkparse.PipeOrigin

/-!
# The stopwatch in the two modes

`handle` dumps the records from `stopwatch_start` through `stopwatch_end`, as the manual page says,
and stops behind them. `check_stopwatch` of pipe mode leaves the end out, and measures from an
origin that may move once more while the trace starts at time 0. `stopwatch_modes` says for which
records that makes a difference.
-/

namespace Blktrace.Blkparse

/-! ## Selections of the parts of a list -/

section Select

variable {α β : Type} [DecidableEq β] (f : α → List β) (p : α → β → Bool) (q : β → Bool)

/-- Parts selected one way hold at most what is selected the other way, where the first is the
narrower on `x`. -/
theorem count_flatMap_le {x : β} (hq : q x = true) (parts : List α) :
    (parts.flatMap fun a => (f a).filter (p a)).count x
        ≤ (parts.flatMap fun a => (f a).filter q).count x ∧
      ((parts.flatMap fun a => (f a).filter (p a)).count x
          = (parts.flatMap fun a => (f a).filter q).count x →
        ∀ a ∈ parts, x ∈ f a → p a x = true) := by
  induction parts with
  | nil => simp
  | cons a parts ih =>
    obtain ⟨hle, heq⟩ := ih
    simp only [List.flatMap_cons, List.count_append, List.count_filter hq]
    by_cases hp : p a x = true
    · rw [List.count_filter hp]
      refine ⟨Nat.add_le_add_left hle _, fun h => List.forall_mem_cons.mpr ⟨fun _ => hp, ?_⟩⟩
      exact heq (Nat.add_left_cancel h)
    · have hnone : ((f a).filter (p a)).count x = 0 :=
        List.count_eq_zero.mpr fun hmem => hp (List.mem_filter.mp hmem).2
      rw [hnone, Nat.zero_add]
      refine ⟨hle.trans (Nat.le_add_left _ _), fun h => List.forall_mem_cons.mpr ⟨?_, ?_⟩⟩
      · intro hmem
        have hpos := List.count_pos_iff.mpr hmem
        omega
      · exact heq (by omega)

/-- **Two selections of the same parts agree** only if they do on each element of each part. -/
theorem flatMap_filter_perm_iff (parts : List α) :
    (parts.flatMap fun a => (f a).filter (p a)).Perm (parts.flatMap fun a => (f a).filter q) ↔
      ∀ a ∈ parts, ∀ x ∈ f a, p a x = q x := by
  constructor
  · intro h a ha x hx
    have hcount := List.perm_iff_count.mp h x
    cases hq : q x with
    | true => exact (count_flatMap_le f p q hq parts).2 hcount a ha hx
    | false =>
      by_contra hp
      have hmem : x ∈ parts.flatMap fun a => (f a).filter (p a) :=
        List.mem_flatMap.mpr ⟨a, ha, List.mem_filter.mpr ⟨hx, by simpa using hp⟩⟩
      obtain ⟨b, -, hb⟩ := List.mem_flatMap.mp (h.mem_iff.mp hmem)
      rw [(List.mem_filter.mp hb).2] at hq
      cases hq
  · intro h
    have heq : (parts.flatMap fun a => (f a).filter (p a))
        = parts.flatMap fun a => (f a).filter q :=
      List.flatMap_congr fun a ha => List.filter_congr fun x hx => h a ha x hx
    rw [heq]

end Select

/-! ## The window -/

/-- The manual page: from `start` through `end`. -/
def Opts.inSpan (o : Opts) (time : UInt64) : Bool :=
  decide (o.stopwatchStart ≤ time) && decide (time ≤ o.stopwatchEnd)

/-- Whether a raw record is to be dumped. -/
def Opts.wants (o : Opts) (genesis : UInt64) (bit : BlkIoTrace) : Bool :=
  o.masks bit && o.inSpan (bit.time - genesis)

/-- The raw records that are dumped of a batch. -/
def Batch.selected (o : Opts) (b : Batch) : List BlkIoTrace :=
  b.raw.filter fun bit => o.masks bit && !checkStopwatch o (relative b.genesis bit)

/-- The raw records that file mode dumps. -/
def FileState.selected (o : Opts) (s : FileState) : List BlkIoTrace :=
  (s.handled.map Prod.snd).filter (o.wants s.genesisTime)

/-! ## File mode -/

theorem dumps_notified (rbBatch cpu : Nat) (file : List BlkIoTrace) (native : Option Bool)
    (i : Nat) : dumps (msPrimeLoop rbBatch cpu file native i).notified = [] := by
  induction file generalizing native i with
  | nil => rfl
  | cons raw rest ih =>
    rw [msPrimeLoop]
    split
    · cases lookNative native raw.magic with
      | none => rfl
      | some b =>
        dsimp only
        cases msFetch cpu b raw with
        | err => rfl
        | skipped => exact ih _ _
        | notify bit => exact ih _ _
        | queued bit => exact ih _ _
    · rfl

theorem msPrime_dumps (o : Opts) (s : FileState) (msp : StreamId) :
    dumps (msPrime o s msp).1.events = dumps s.events := by
  rw [msPrime]
  split
  · rfl
  · dsimp only
    rw [dumps_append, dumps_notified, List.append_nil]

/-- What a file-mode run logs: the dumps are of the records selected. -/
def FileState.Logged (o : Opts) (s : FileState) : Prop :=
  dumps s.events = (s.selected o).map (relative s.genesisTime)

theorem msDeq_logged {o : Opts} {s : FileState} (h : s.Logged o) (msp : StreamId)
    (next : List StreamId) : (msDeq o s msp next).Logged o := by
  have hdeq : dumps (msDeq o s msp next).events = dumps s.events ∧
      (msDeq o s msp next).handled = s.handled ∧
      (msDeq o s msp next).genesisTime = s.genesisTime := by
    unfold msDeq
    dsimp only
    split
    · obtain ⟨-, hgen, hhandled⟩ := msPrime_frame o
        { s with
          streams := Function.update s.streams msp
            ⟨(s.streams msp).first.tail, (s.streams msp).fd⟩ } msp
      split <;> exact ⟨msPrime_dumps o _ msp, hhandled, hgen⟩
    · exact ⟨rfl, rfl, rfl⟩
  obtain ⟨hdumps, hhandled, hgen⟩ := hdeq
  rw [FileState.Logged, FileState.selected, hdumps, hhandled, hgen]
  exact h

/-- Nothing is dumped or handled while the files are set up. -/
theorem setup_dumps (o : Opts) (fs : List (StreamId × List BlkIoTrace)) :
    dumps (fs.foldl (setupFile o) {}).events = [] ∧ (fs.foldl (setupFile o) {}).handled = [] := by
  induction fs using List.reverseRecOn with
  | nil => exact ⟨rfl, rfl⟩
  | append_singleton fs f ih =>
    rw [List.foldl_append, List.foldl_cons, List.foldl_nil]
    refine ⟨?_, (setupFile_frame o _ f).1.trans ih.2⟩
    rw [setupFile]
    split
    · exact ih.1
    · rw [msAlloc]
      dsimp only
      split <;> exact (msPrime_dumps o _ f.1).trans ih.1

theorem FileReach.logged {o : Opts} {devs : List (List (List BlkIoTrace))} {more : Bool}
    {s : FileState} (h : FileReach o devs more s) : s.Logged o := by
  induction h with
  | setup => rw [FileState.Logged, FileState.selected, (setup_dumps o _).1, (setup_dumps o _).2]; rfl
  | start hs =>
    rw [fileStart, setupDevices_eq] at hs
    split at hs
    · simp at hs
    · simp only [Option.map_some, Option.some.injEq] at hs
      obtain ⟨hdumps, hhandled⟩ := setup_dumps o (filesFrom 0 devs)
      rw [← hs]
      split <;> rw [FileState.Logged, FileState.selected, hdumps, hhandled] <;> rfl
  | @handle s s' msp next more _ _ hh ih =>
    rw [Blkparse.handle] at hh
    cases hfirst : (s.streams msp).first with
    | nil =>
      rw [hfirst] at hh
      obtain ⟨rfl, -⟩ := Prod.mk.inj hh
      exact ih
    | cons t queue =>
      rw [hfirst] at hh
      dsimp only at hh
      rw [FileState.Logged, FileState.selected] at ih
      split at hh
      case isTrue hpast =>
        obtain ⟨rfl, -⟩ := Prod.mk.inj hh
        have hout : o.wants s.genesisTime t = false := by
          simp [Opts.wants, Opts.inSpan, not_le.mpr hpast]
        rw [FileState.Logged, FileState.selected, List.map_append, List.filter_append]
        simp only [List.map_cons, List.map_nil, List.filter_cons, hout, Bool.false_eq_true,
          if_false, List.filter_nil, List.append_nil]
        exact ih
      case isFalse hpast =>
        obtain ⟨rfl, -⟩ := Prod.mk.inj hh
        apply msDeq_logged
        have hwants : o.wants s.genesisTime t = (o.masks (relative s.genesisTime t) &&
            decide (o.stopwatchStart ≤ t.time - s.genesisTime)) := by
          simp [Opts.wants, Opts.inSpan, not_lt.mp hpast, Opts.masks, relative]
        rw [FileState.Logged, FileState.selected, List.map_append, List.filter_append,
          List.map_append, ← ih]
        simp only [List.map_cons, List.map_nil, List.filter_cons, List.filter_nil, hwants]
        rw [relative]
        split <;> simp [dumps, relative]

/-- All the records of the input files. -/
def filesRecords (native : Bool) (devs : List (List (List BlkIoTrace))) : List BlkIoTrace :=
  (inputFiles devs).flatMap fun f => fileRecords native f.2

section File

variable {o : Opts} (hb : 1 ≤ o.rbBatch) {native : Bool} {devs : List (List (List BlkIoTrace))}
  (hg : ∀ f ∈ inputFiles devs, GoodFile native f.1.2 f.2) {s : FileState}
  (hs : doFile o devs = some s)

include hb hg hs

/-- The genesis time of file mode is the least of all times. -/
theorem doFile_genesis : (∀ bit ∈ filesRecords native devs, s.genesisTime ≤ bit.time) ∧
    (filesRecords native devs ≠ [] →
      ∃ bit ∈ filesRecords native devs, bit.time = s.genesisTime) := by
  have hw := (fileMerge_spec o.rbBatch devs).1
  rw [doFile_genesisTime hb hs]
  refine ⟨fun bit hbit => ?_, fun hne => ?_⟩
  · obtain ⟨f, hf, hmem⟩ := List.mem_flatMap.mp hbit
    rw [← fileMerge_rem_of_good hb hg hf] at hmem
    exact genesisOf_le hb hg f.1 bit hmem
  · -- some stream has a record, so the chain has a head
    obtain ⟨bit, hbit⟩ := List.exists_mem_of_ne_nil _ hne
    obtain ⟨f, hf, hmem⟩ := List.mem_flatMap.mp hbit
    rw [← fileMerge_rem_of_good hb hg hf] at hmem
    have hin := (hw.mem f.1).mpr (List.ne_nil_of_mem hmem)
    rw [genesisOf]
    cases hc : (fileMerge o.rbBatch devs).chain with
    | nil =>
      rw [hc] at hin
      cases hin
    | cons msp next =>
      have hhead := (hw.mem msp).mp (hc ▸ List.mem_cons_self)
      obtain ⟨t, ts, hrem⟩ := List.exists_cons_of_ne_nil hhead
      have hmsp : msp ∈ (inputFiles devs).map Prod.fst := by
        by_contra hno
        exact hhead ((fileMerge_spec o.rbBatch devs).2.2.1 msp hno)
      obtain ⟨f', hf', rfl⟩ := List.mem_map.mp hmsp
      refine ⟨t, List.mem_flatMap.mpr ⟨f', hf', ?_⟩, (KMerge.front_cons _ _ hrem).symm⟩
      rw [← fileMerge_rem_of_good hb hg hf', hrem]
      exact List.mem_cons_self

/-- **File mode dumps what the manual page says.** -/
theorem doFile_selected :
    (s.selected o).Perm ((filesRecords native devs).filter (o.wants s.genesisTime)) := by
  have hd := doFile_delivers hb hg hs
  have hperm : (s.handled.map Prod.snd).Perm
      ((inputFiles devs).flatMap fun f => KMerge.taken f.1 s.handled) := by
    have hids := @KMerge.taken_perm _ _ _ _ (inputFiles_nodup devs) s.handled fun e he => by
      obtain ⟨f, hf, heq⟩ := hd.source e he
      exact heq ▸ List.mem_map_of_mem hf
    rwa [List.flatMap_map] at hids
  refine (hperm.filter _).trans ?_
  rw [filesRecords, List.filter_flatMap, List.filter_flatMap]
  refine List.Perm.of_eq (List.flatMap_congr fun f hf => ?_)
  obtain ⟨rest, heq, hpast⟩ := hd.complete f hf
  have hnone : rest.filter (o.wants s.genesisTime) = [] := by
    refine List.filter_eq_nil_iff.mpr fun t ht => ?_
    have hlt : o.stopwatchEnd < t.time - s.genesisTime := by simpa [Opts.past] using hpast t ht
    simp [Opts.wants, Opts.inSpan, not_le.mpr hlt]
  rw [heq, List.filter_append, hnone, List.append_nil]

end File

/-! ## Pipe mode -/

theorem checkStopwatch_eq (o : Opts) (bit : BlkIoTrace) :
    (!checkStopwatch o bit) = true ↔ o.stopwatchStart ≤ bit.time ∧ bit.time < o.stopwatchEnd := by
  simp [checkStopwatch, and_comm]

/-- What is dumped of each batch is what is selected of it, with its origin subtracted. -/
theorem doPipe_dumps (o : Opts) (find : Find) (names : Nat) (input : List (Option BlkIoTrace)) :
    (dumps (doPipe o find names input).events).Perm
      ((doPipe o find names input).batches.flatMap fun b =>
        (b.selected o).map (relative b.genesis)) := by
  have h := (doPipe_tree o find names input).1
  rw [h.dumped]
  refine (h.once.filter _).trans (List.Perm.of_eq ?_)
  rw [h.stored, List.filter_flatMap]
  refine List.flatMap_congr fun b _ => ?_
  rw [Batch.selected, List.filter_map, List.filter_map, List.filter_filter]
  rfl

theorem foldl_younger_le {times : List UInt64} (h : times.Pairwise fun a b => b ≤ a)
    {youngest : UInt64} (hy : youngest = 0 ∨ ∀ t ∈ times, t ≤ youngest) :
    ∀ t ∈ times, times.foldl younger youngest ≤ t := by
  -- from the second on, no time is above the one before
  have hnext : ∀ (t : UInt64) (ts : List UInt64), (t :: ts).Pairwise (fun a b => b ≤ a) →
      ts.foldl younger t ≤ t := by
    intro t ts hts
    induction ts generalizing t with
    | nil => exact le_refl t
    | cons u ts ih =>
      obtain ⟨hle, hts⟩ := List.pairwise_cons.mp hts
      have hu : younger t u = u := by
        rcases (hle u List.mem_cons_self).lt_or_eq with hlt | rfl
        · simp [younger, hlt]
        · simp [younger]
      rw [List.foldl_cons, hu]
      exact (ih u hts).trans (hle u List.mem_cons_self)
  induction times generalizing youngest with
  | nil => simp
  | cons t ts ih =>
    have ht : younger youngest t = t := by
      rcases hy with rfl | hle
      · simp [younger]
      · rcases (hle t List.mem_cons_self).lt_or_eq with hlt | rfl
        · simp [younger, hlt]
        · simp [younger]
    obtain ⟨hle, hts⟩ := List.pairwise_cons.mp h
    rw [List.foldl_cons, ht]
    exact List.forall_mem_cons.mpr ⟨hnext t ts h, ih hts (Or.inr hle)⟩

/-- Where the origin of a batch is `d` after that of the trace, a record at `x` is in the window
that pipe mode takes exactly if it is in the one of the manual page. For `d = 0` that only fails
at the very end. -/
def Opts.SameSpan (o : Opts) (x d : ℕ) : Prop :=
  (o.stopwatchStart.toNat ≤ x → x ≤ o.stopwatchEnd.toNat →
      o.stopwatchStart.toNat + d ≤ x ∧ x < o.stopwatchEnd.toNat + d) ∧
    (o.stopwatchEnd.toNat < x → o.stopwatchStart.toNat + d ≤ x → o.stopwatchEnd.toNat + d ≤ x)

/-- No record that is looked at is in one of the two windows only. -/
def EdgeFree (o : Opts) (genesis : UInt64) (raws : List (List BlkIoTrace)) : Prop :=
  ∀ pre raw post, raws = pre ++ raw :: post → ∀ bit ∈ raw, o.masks bit = true →
    o.SameSpan (bit.time - genesis).toNat (originAt (pre ++ [raw]) - genesis).toNat

theorem sameSpan_iff {o : Opts} {genesis origin time : UInt64} (hg : genesis ≤ origin)
    (ho : origin ≤ time) :
    (decide (o.stopwatchStart ≤ time - origin ∧ time - origin < o.stopwatchEnd)
        = o.inSpan (time - genesis)) ↔
      o.SameSpan (time - genesis).toNat (origin - genesis).toNat := by
  have hsub := Word.toNat_sub_of_le ho
  have hsub' := Word.toNat_sub_of_le (hg.trans ho)
  have hsub'' := Word.toNat_sub_of_le hg
  rw [UInt64.le_iff_toNat_le] at hg ho
  rw [Opts.inSpan, Bool.eq_iff_iff, Opts.SameSpan]
  simp only [decide_eq_true_eq, Bool.and_eq_true, UInt64.le_iff_toNat_le, UInt64.lt_iff_toNat_lt]
  omega

section Pipe

variable {o : Opts} {find : Find} {names : Nat} {native : Bool} {input : List (Option BlkIoTrace)}
  (hv : ValidPipe native input)
  (hsorted : (pipeRecords native input).Pairwise fun a b => a.time ≤ b.time)

include hv hsorted

/-- The batches of a trace in time order, and what is left where `do_pipe` stops early: no record
is before the origin of its batch, no origin before that of the trace, and what is left is past the
end of the window. -/
theorem doPipe_sorted (hb : 1 ≤ o.rbBatch) {genesis : UInt64}
    (hg : ∀ bit ∈ pipeRecords native input, genesis ≤ bit.time) :
    ∃ left, pipeRecords native input
        = (doPipe o find names input).batches.flatMap (fun b => b.raw.reverse) ++ left ∧
      (∀ pre b post, (doPipe o find names input).batches = pre ++ b :: post →
        genesis ≤ b.genesis ∧ ∀ bit ∈ b.raw, b.genesis ≤ bit.time) ∧
      ∀ bit ∈ left, o.stopwatchEnd < bit.time - genesis := by
  obtain ⟨rest, hread, hend⟩ := @pipeLoop_read o find native names input hv
  have horigins := pipeLoop_origins o find names input
  -- the origin of a batch is a time read by then
  have horigin : ∀ pre b post, (doPipe o find names input).batches = pre ++ b :: post →
      genesis ≤ b.genesis ∧ ∀ bit ∈ b.raw, b.genesis ≤ bit.time := by
    intro pre b post heq
    rw [doPipe_batches] at heq
    obtain ⟨⟨first, hfirst, htime⟩, hle⟩ := horigins.le hread hsorted heq
    exact ⟨htime ▸ hg first hfirst, hle⟩
  rw [← doPipe_batches] at hend
  have hrecords := hread.records
  have hne := hread.nonempty
  rw [← doPipe_batches] at hrecords hne
  rw [hrecords] at hsorted hg
  refine ⟨pipeRecords native rest, hrecords, horigin, fun bit hbit => ?_⟩
  rcases hend hb with rfl | ⟨b, hlast, hpast⟩
  · cases hbit
  · obtain ⟨pre, heq⟩ := List.getLast?_eq_some_iff.mp hlast
    obtain ⟨hle, hraw⟩ := horigin pre b [] heq
    have hbmem : b ∈ (doPipe o find names input).batches := by
      rw [heq]
      exact List.mem_append_right _ (List.mem_singleton_self b)
    obtain ⟨t, ht⟩ := List.exists_mem_of_ne_nil _ (hne b hbmem)
    have hbefore : t.time ≤ bit.time :=
      (List.pairwise_append.mp hsorted).2.2 t
        (List.mem_flatMap.mpr ⟨b, hbmem, List.mem_reverse.mpr ht⟩) bit hbit
    -- the times of a batch go down in `trace_list`
    have hdown : (b.raw.map fun bit => (relative b.genesis bit).time).Pairwise
        fun a c => c ≤ a := by
      rw [heq, List.flatMap_append, List.flatMap_singleton] at hsorted
      have hrev := (List.pairwise_append.mp (List.pairwise_append.mp hsorted).1).2.1
      rw [List.pairwise_reverse] at hrev
      rw [List.pairwise_map]
      exact hrev.imp_of_mem fun {a c} ha hc hac => Word.sub_mono (hraw c hc) hac
    have hyoung := foldl_younger_le hdown (Or.inl rfl) _ (List.mem_map_of_mem ht)
    exact lt_of_lt_of_le hpast (hyoung.trans (Word.sub_le_sub hle (hraw t ht) hbefore))

/-- **Pipe mode dumps the same records** exactly if no record is at the edge. -/
theorem doPipe_selected_iff (hb : 1 ≤ o.rbBatch) {genesis : UInt64}
    (hg : ∀ bit ∈ pipeRecords native input, genesis ≤ bit.time) :
    ((doPipe o find names input).batches.flatMap (Batch.selected o)).Perm
        ((pipeRecords native input).filter (o.wants genesis)) ↔
      EdgeFree o genesis ((doPipe o find names input).batches.map Batch.raw) := by
  obtain ⟨left, hrecords, horigin, hleft⟩ := @doPipe_sorted o find names native input hv hsorted hb
    genesis hg
  have horigins := doPipe_origins o find names input
  have hnone : left.filter (o.wants genesis) = [] := by
    refine List.filter_eq_nil_iff.mpr fun bit hbit => ?_
    simp [Opts.wants, Opts.inSpan, not_le.mpr (hleft bit hbit)]
  have hwanted : ((pipeRecords native input).filter (o.wants genesis)).Perm
      ((doPipe o find names input).batches.flatMap fun b => b.raw.filter (o.wants genesis)) := by
    rw [hrecords, List.filter_append, hnone, List.append_nil, List.filter_flatMap]
    exact List.Perm.flatMap_left _ fun b _ => b.raw.reverse_perm.filter _
  have hiff := flatMap_filter_perm_iff Batch.raw
    (fun b bit => o.masks bit && !checkStopwatch o (relative b.genesis bit)) (o.wants genesis)
    (doPipe o find names input).batches
  have hsame : ∀ pre b post, (doPipe o find names input).batches = pre ++ b :: post →
      ∀ bit ∈ b.raw, ((o.masks bit && !checkStopwatch o (relative b.genesis bit))
          = o.wants genesis bit ↔ (o.masks bit = true →
            o.SameSpan (bit.time - genesis).toNat
              (originAt (pre.map Batch.raw ++ [b.raw]) - genesis).toNat)) := by
    intro pre b post heq bit hbit
    obtain ⟨hle, hraw⟩ := horigin pre b post heq
    have hgenesis := (horigins.each pre b post heq).2
    rw [List.map_append, List.map_singleton] at hgenesis
    rw [← hgenesis, ← sameSpan_iff hle (hraw bit hbit), Opts.wants]
    cases o.masks bit with
    | false => simp
    | true =>
      have hcheck : (!checkStopwatch o (relative b.genesis bit))
          = decide (o.stopwatchStart ≤ bit.time - b.genesis ∧
            bit.time - b.genesis < o.stopwatchEnd) := by
        rw [Bool.eq_iff_iff, checkStopwatch_eq, decide_eq_true_eq]
        rfl
      rw [Bool.true_and, Bool.true_and, hcheck]
      simp
  constructor
  · intro h pre raw post heq bit hbit
    have hall := hiff.mp (h.trans hwanted)
    obtain ⟨pre', b, post', hbs, rfl, rfl, -⟩ : ∃ pre' b post',
        (doPipe o find names input).batches = pre' ++ b :: post' ∧
          pre = pre'.map Batch.raw ∧ raw = b.raw ∧ post = post'.map Batch.raw := by
      obtain ⟨pre', bs, hbs, hpre, htail⟩ := List.map_eq_append_iff.mp heq
      obtain ⟨b, post', rfl, hb, hpost⟩ := List.map_eq_cons_iff.mp htail
      exact ⟨pre', b, post', hbs, hpre.symm, hb.symm, hpost.symm⟩
    exact (hsame pre' b post' hbs bit hbit).mp
      (hall b (hbs ▸ List.mem_append_right _ List.mem_cons_self) bit hbit)
  · intro h
    refine (hiff.mpr fun b hbmem bit hbit => ?_).trans hwanted.symm
    obtain ⟨pre, post, hbs⟩ := List.append_of_mem hbmem
    refine (hsame pre b post hbs bit hbit).mpr ?_
    exact h (pre.map Batch.raw) b.raw (post.map Batch.raw)
      (by rw [hbs, List.map_append, List.map_cons]) bit hbit

end Pipe

/-! ## The two modes -/

/-- **The stopwatch in the two modes**, on one trace in time order. File mode dumps the records the
manual page asks for, and pipe mode the same ones exactly where none is at the edge. The records a
mode dumps are those it selects, with their origin subtracted. -/
theorem stopwatch_modes {o : Opts} (hb : 1 ≤ o.rbBatch) {find : Find} {names : Nat} {native : Bool}
    {devs : List (List (List BlkIoTrace))} (hd : [] ∉ devs)
    (hg : ∀ f ∈ inputFiles devs, GoodFile native f.1.2 f.2) {input : List (Option BlkIoTrace)}
    (hv : ValidPipe native input)
    (hsorted : (pipeRecords native input).Pairwise fun a b => a.time ≤ b.time)
    (hsame : (filesRecords native devs).Perm (pipeRecords native input)) :
    ∃ s, doFile o devs = some s ∧
      let p := doPipe o find names input
      let wanted := (pipeRecords native input).filter (o.wants s.genesisTime)
      ((∀ bit ∈ pipeRecords native input, s.genesisTime ≤ bit.time) ∧
        (pipeRecords native input ≠ [] →
          ∃ bit ∈ pipeRecords native input, bit.time = s.genesisTime)) ∧
      dumps s.events = (s.selected o).map (relative s.genesisTime) ∧
      (s.selected o).Perm wanted ∧
      (dumps p.events).Perm
        (p.batches.flatMap fun b => (b.selected o).map (relative b.genesis)) ∧
      ((p.batches.flatMap (Batch.selected o)).Perm wanted ↔
        EdgeFree o s.genesisTime (p.batches.map Batch.raw)) := by
  obtain ⟨s, hs⟩ := @doFile_eq_some o devs hd
  obtain ⟨hle, hattained⟩ := doFile_genesis hb hg hs
  have hle' : ∀ bit ∈ pipeRecords native input, s.genesisTime ≤ bit.time := fun bit hbit =>
    hle bit (hsame.mem_iff.mpr hbit)
  obtain ⟨more, hreach⟩ := doFile_reach hs
  refine ⟨s, hs, ⟨hle', fun hne => ?_⟩, hreach.logged, (doFile_selected hb hg hs).trans
    (hsame.filter _), doPipe_dumps o find names input, doPipe_selected_iff hv hsorted hb hle'⟩
  obtain ⟨bit, hbit, htime⟩ := hattained fun hnil => hne (by
    rw [hnil] at hsame
    exact hsame.nil_eq.symm)
  exact ⟨bit, hsame.mem_iff.mp hbit, htime⟩

/-- Times 5 and 15, through time 20: both are dumped in either mode. -/
theorem stopwatch_modes_inside : ∃ s,
    doFile { stopwatchEnd := 20 } [[[queueRecord 5 0 1 5, queueRecord 5 0 2 15]]] = some s ∧
      (s.selected { stopwatchEnd := 20 }).Perm
        [queueRecord 5 0 1 5, queueRecord 5 0 2 15] := by
  obtain ⟨s, hs, -, -, hfile, -⟩ := @stopwatch_modes { stopwatchEnd := 20 } (by decide)
    (fun _ _ _ => none) 0 true [[[queueRecord 5 0 1 5, queueRecord 5 0 2 15]]] (by decide)
    (by decide) [some (queueRecord 5 0 1 5), some (queueRecord 5 0 2 15)]
    (by
      intro raw hraw
      have hcases : raw = queueRecord 5 0 1 5 ∨ raw = queueRecord 5 0 2 15 := by simpa using hraw
      rcases hcases with rfl | rfl <;> decide)
    (by decide) (by decide)
  have hgen : s.genesisTime = 5 := by
    have h := congrArg (Option.map FileState.genesisTime) hs
    have hval : (doFile { stopwatchEnd := 20 } [[[queueRecord 5 0 1 5,
        queueRecord 5 0 2 15]]]).map FileState.genesisTime = some 5 := by decide
    rw [hval] at h
    exact (Option.some.inj h).symm
  rw [hgen] at hfile
  have hwanted : (pipeRecords true [some (queueRecord 5 0 1 5), some (queueRecord 5 0 2 15)]).filter
      (Opts.wants { stopwatchEnd := 20 } 5) = [queueRecord 5 0 1 5, queueRecord 5 0 2 15] := by
    decide
  exact ⟨s, hs, hwanted ▸ hfile⟩

/-- Times 5 and 15, through time 10: file mode dumps the second record too, pipe mode does not. -/
theorem not_same_at_end :
    ((doFile { stopwatchEnd := 10 } [[[queueRecord 5 0 1 5, queueRecord 5 0 2 15]]]).map
        fun s => (dumps s.events).map BlkIoTrace.time) = some [0, 10] ∧
      (dumps (doPipe { stopwatchEnd := 10 } (fun _ _ _ => none) 0 [some (queueRecord 5 0 1 5),
        some (queueRecord 5 0 2 15)]).events).map BlkIoTrace.time = [0] := by
  constructor <;> decide

end Blktrace.Blkparse
