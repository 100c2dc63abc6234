import Blktrace.Blkparse.FileRefine

/-!
# What a file-mode run delivers

On input as `blktrace` writes it, every file valid, of its own CPU and in time order, the
refinement of `FileRefine` turns the laws of the merge into laws of `do_file`: which records
`handle` is given, in which order, and what the chain from `ms_head` looks like in every state
between two calls.
-/

namespace Blktrace.Blkparse

/-! ## Good input -/

/-- The records of a file that are to be handed over, as the host reads them. -/
def fileRecords (native : Bool) (file : List BlkIoTrace) : List BlkIoTrace :=
  (file.map (traceToCpu native)).filter fun bit => !bit.isNotify

/-- A file of valid records of CPU `cpu`, in one byte order and in time order. The notifies among
them may carry any time. -/
structure GoodFile (native : Bool) (cpu : Nat) (file : List BlkIoTrace) : Prop where
  valid : ∀ raw ∈ file, verifyTrace (traceToCpu native raw) = false
  own : ∀ raw ∈ file, (traceToCpu native raw).cpu.toNat = cpu
  sorted : (fileRecords native file).Pairwise fun a b => a.time ≤ b.time

instance (native : Bool) (cpu : Nat) (file : List BlkIoTrace) :
    Decidable (GoodFile native cpu file) :=
  decidable_of_iff ((∀ raw ∈ file, verifyTrace (traceToCpu native raw) = false) ∧
    (∀ raw ∈ file, (traceToCpu native raw).cpu.toNat = cpu) ∧
    (fileRecords native file).Pairwise fun a b => a.time ≤ b.time)
    ⟨fun h => ⟨h.1, h.2.1, h.2.2⟩, fun h => ⟨h.valid, h.own, h.sorted⟩⟩

/-- The byte order, where it is known, is `native`. -/
def Agrees (native : Bool) (known : Option Bool) : Prop := known = none ∨ known = some native

theorem lookNative_of_valid {native : Bool} {known : Option Bool} {raw : BlkIoTrace}
    (hk : Agrees native known) (hv : verifyTrace (traceToCpu native raw) = false) :
    lookNative known raw.magic = some native := by
  rcases hk with rfl | rfl
  · exact checkDataEndianness_of_valid hv
  · rfl

theorem msFetch_of_valid {native : Bool} {cpu : Nat} {raw : BlkIoTrace}
    (hv : verifyTrace (traceToCpu native raw) = false) :
    msFetch cpu native raw =
      if (traceToCpu native raw).cpu.toNat ≠ cpu then .skipped
      else if (traceToCpu native raw).isNotify then .notify (traceToCpu native raw)
      else .queued (traceToCpu native raw) := by
  simp [msFetch, checkMagic_of_valid hv, hv]

theorem nativeAfter_of_valid {native : Bool} {known : Option Bool} {file : List BlkIoTrace}
    (hk : Agrees native known)
    (hv : ∀ raw ∈ file, verifyTrace (traceToCpu native raw) = false) :
    Agrees native (nativeAfter known file) := by
  cases file with
  | nil => exact hk
  | cons raw rest =>
    rw [nativeAfter, lookNative_of_valid hk (hv raw List.mem_cons_self)]
    exact Or.inr rfl

theorem GoodFile.readable {native : Bool} {known : Option Bool} {cpu : Nat}
    {file : List BlkIoTrace} (hk : Agrees native known)
    (hv : ∀ raw ∈ file, verifyTrace (traceToCpu native raw) = false)
    (ho : ∀ raw ∈ file, (traceToCpu native raw).cpu.toNat = cpu) :
    records (Blkparse.readable cpu known file) = fileRecords native file ∧
      .skipped ∉ Blkparse.readable cpu known file := by
  induction file generalizing known with
  | nil => exact ⟨rfl, List.not_mem_nil⟩
  | cons raw rest ih =>
    have hraw := hv raw List.mem_cons_self
    obtain ⟨ih₁, ih₂⟩ := @ih (some native) (Or.inr rfl)
      (fun r hr => hv r (List.mem_cons_of_mem _ hr)) fun r hr => ho r (List.mem_cons_of_mem _ hr)
    rw [Blkparse.readable, lookNative_of_valid hk hraw]
    dsimp only
    rw [msFetch_of_valid hraw, if_neg (not_not.mpr (ho raw List.mem_cons_self)), fileRecords,
      List.map_cons]
    cases hn : (traceToCpu native raw).isNotify with
    | true => simpa [records_cons, Fetched.queued?, hn] using ⟨ih₁, ih₂⟩
    | false => simpa [records_cons, Fetched.queued?, hn] using ⟨ih₁, ih₂⟩

/-- All the files, as the merge will see them. -/
theorem readableFiles_of_good {native : Bool} {known : Option Bool}
    {fs : List (StreamId × List BlkIoTrace)} (hk : Agrees native known)
    (hg : ∀ f ∈ fs, GoodFile native f.1.2 f.2) :
    (readableFiles known fs).map (fun r => (r.1, records r.2))
        = fs.map (fun f => (f.1, fileRecords native f.2)) ∧
      ∀ r ∈ readableFiles known fs, .skipped ∉ r.2 := by
  induction fs generalizing known with
  | nil => simp [readableFiles]
  | cons f fs ih =>
    have hf := hg f List.mem_cons_self
    obtain ⟨h₁, h₂⟩ := GoodFile.readable hk hf.valid hf.own
    obtain ⟨ih₁, ih₂⟩ := ih (nativeAfter_of_valid hk hf.valid) fun g h =>
      hg g (List.mem_cons_of_mem _ h)
    rw [readableFiles]
    refine ⟨by rw [List.map_cons, List.map_cons, ih₁, h₁], ?_⟩
    intro r hr
    rcases List.mem_cons.mp hr with rfl | hr
    · exact h₂
    · exact ih₂ r hr

/-! ## The merge of good files -/

section Good

variable {rbBatch : Nat} (hb : 1 ≤ rbBatch) {native : Bool} {devs : List (List (List BlkIoTrace))}
  (hg : ∀ f ∈ inputFiles devs, GoodFile native f.1.2 f.2)

include hb hg

theorem fileMerge_rem_of_good {f : StreamId × List BlkIoTrace} (hf : f ∈ inputFiles devs) :
    (fileMerge rbBatch devs).rem f.1 = fileRecords native f.2 := by
  obtain ⟨hrecords, hskip⟩ := readableFiles_of_good (Or.inl rfl) hg
  have hmem : (f.1, fileRecords native f.2)
      ∈ (inputFiles devs).map fun f => (f.1, fileRecords native f.2) :=
    List.mem_map_of_mem (f := fun f : StreamId × _ => (f.1, fileRecords native f.2)) hf
  rw [← hrecords] at hmem
  obtain ⟨r, hr, heq⟩ := List.mem_map.mp hmem
  obtain ⟨h₁, h₂⟩ := Prod.mk.inj heq
  rw [← h₁, (fileMerge_spec rbBatch devs).2.1 r hr, (Settled.of_not_mem (hskip r hr)).delivered hb]
  exact h₂

theorem fileMerge_ordered : KMerge.Ordered BlkIoTrace.time (fileMerge rbBatch devs) := by
  intro id
  by_cases hid : id ∈ (inputFiles devs).map Prod.fst
  · obtain ⟨f, hf, rfl⟩ := List.mem_map.mp hid
    rw [fileMerge_rem_of_good hb hg hf]
    exact (hg f hf).sorted
  · rw [(fileMerge_spec rbBatch devs).2.2.1 id hid]
    exact List.Pairwise.nil

/-- The genesis time is below every record. -/
theorem genesisOf_le (id : StreamId) :
    ∀ t ∈ (fileMerge rbBatch devs).rem id, genesisOf (fileMerge rbBatch devs) ≤ t.time := by
  intro t ht
  have hw := (fileMerge_spec rbBatch devs).1
  rw [genesisOf]
  cases hc : (fileMerge rbBatch devs).chain with
  | nil =>
    rw [hw.rem_eq_nil hc id] at ht
    simp at ht
  | cons msp next => exact KMerge.front_le hw (fileMerge_ordered hb hg) hc id t ht

end Good

/-- Past the stopwatch stays past it, for records that are not before the genesis time. -/
theorem Opts.past_mono {o : Opts} {genesis : UInt64} {a b : BlkIoTrace} (ha : genesis ≤ a.time)
    (h : o.past genesis a = true) (hab : a.time ≤ b.time) : o.past genesis b = true := by
  simp only [Opts.past, decide_eq_true_eq] at h ⊢
  exact lt_of_lt_of_le h (Word.sub_mono ha hab)

/-! ## The states of a run -/

/-- The states between the calls `do_file` makes, after each file set up and after each record;
the flag says whether the `while` goes on. -/
inductive FileReach (o : Opts) (devs : List (List (List BlkIoTrace))) : Bool → FileState → Prop
  | setup {fs gs : List (StreamId × List BlkIoTrace)} : inputFiles devs = fs ++ gs →
      FileReach o devs false (fs.foldl (setupFile o) {})
  | start {s : FileState} : fileStart o devs = some s → FileReach o devs true s
  | handle {s s' : FileState} {msp : StreamId} {next : List StreamId} {more : Bool} :
      FileReach o devs true s → s.msHead = msp :: next → handle o s msp next = (s', more) →
      FileReach o devs more s'

theorem fileLoop_reach {o : Opts} {devs : List (List (List BlkIoTrace))} (fuel : Nat)
    {s : FileState} (h : FileReach o devs true s) :
    ∃ more, FileReach o devs more (fileLoop o fuel s) := by
  induction fuel generalizing s with
  | zero => exact ⟨true, h⟩
  | succ fuel ih =>
    rw [fileLoop]
    cases hc : s.msHead with
    | nil => exact ⟨true, h⟩
    | cons msp next =>
      dsimp only
      cases hh : Blkparse.handle o s msp next with
      | mk s' more =>
        cases more with
        | true => exact ih (.handle h hc hh)
        | false => exact ⟨false, .handle h hc hh⟩

/-- What `do_file` leaves is one of them. -/
theorem doFile_reach {o : Opts} {devs : List (List (List BlkIoTrace))} {s : FileState}
    (h : doFile o devs = some s) : ∃ more, FileReach o devs more s := by
  rw [doFile, Option.map_eq_some_iff] at h
  obtain ⟨s₀, hs₀, rfl⟩ := h
  exact fileLoop_reach _ (.start hs₀)

/-- **The chain from `ms_head`**: the streams that hold a queued record, each once, by the time of
the first. -/
structure ChainOk (s : FileState) : Prop where
  nodup : s.msHead.Nodup
  mem : ∀ msp, msp ∈ s.msHead ↔ (s.streams msp).first ≠ []
  sorted : s.msHead.Pairwise fun a b => msPeekTime s.streams a ≤ msPeekTime s.streams b

theorem ChainOk.of_wf {rbBatch : Nat} {s : FileState}
    (hw : KMerge.WF BlkIoTrace.time 0 (s.merge rbBatch)) : ChainOk s := by
  refine ⟨hw.nodup, fun msp => (hw.mem msp).trans MsStream.left_ne_nil, ?_⟩
  rw [msPeekTime_eq rbBatch]
  exact hw.sorted

/-- What holds whenever `handle` can be called, whatever the input. -/
structure FileReady (rbBatch : Nat) (s : FileState) : Prop where
  inv : FileInv s
  wf : KMerge.WF BlkIoTrace.time 0 (s.merge rbBatch)

/-- And on good input: every stream is in order, and nothing is left from before the genesis
time. -/
structure FileOrdered (rbBatch : Nat) (s : FileState) : Prop where
  ordered : KMerge.Ordered BlkIoTrace.time (s.merge rbBatch)
  genesis : ∀ id, ∀ t ∈ s.left rbBatch id, s.genesisTime ≤ t.time

theorem FileReady.handle {o : Opts} (hb : 1 ≤ o.rbBatch) {s s' : FileState}
    (h : FileReady o.rbBatch s) {msp : StreamId} {next : List StreamId}
    (hc : s.msHead = msp :: next) (hh : Blkparse.handle o s msp next = (s', true)) :
    FileReady o.rbBatch s' ∧ (FileOrdered o.rbBatch s → FileOrdered o.rbBatch s') := by
  obtain ⟨t, m, hpop, -, hgen, hret, hnext⟩ := handle_merge hb h.inv h.wf hc
  rw [hh] at hgen hret hnext
  have hp : o.past s.genesisTime t = false := by simpa using hret
  obtain ⟨hinv', hm⟩ := hnext hp
  dsimp only at hinv' hm hgen
  refine ⟨⟨hinv', hm ▸ h.wf.pop hpop⟩, fun ho => ⟨hm ▸ ho.ordered.pop hpop, ?_⟩⟩
  intro id t' ht'
  have hleft : s'.left o.rbBatch = m.rem := congrArg KMerge.State.rem hm
  rw [hleft] at ht'
  rw [hgen]
  exact ho.genesis id t' (KMerge.mem_of_mem_pop hpop ht')

theorem FileReach.ready {o : Opts} (hb : 1 ≤ o.rbBatch) {devs : List (List (List BlkIoTrace))}
    {more : Bool} {s : FileState} (h : FileReach o devs more s) (hmore : more = true) :
    FileReady o.rbBatch s := by
  induction h with
  | setup => cases hmore
  | start hs =>
    obtain ⟨hinv, hm, -, -⟩ := fileStart_merge hb hs
    exact ⟨hinv, hm ▸ (fileMerge_spec o.rbBatch devs).1⟩
  | handle _ hc hh ih =>
    subst hmore
    exact ((ih rfl).handle hb hc hh).1

theorem FileReach.ordered {o : Opts} (hb : 1 ≤ o.rbBatch) {native : Bool}
    {devs : List (List (List BlkIoTrace))} (hg : ∀ f ∈ inputFiles devs, GoodFile native f.1.2 f.2)
    {more : Bool} {s : FileState} (h : FileReach o devs more s) (hmore : more = true) :
    FileOrdered o.rbBatch s := by
  induction h with
  | setup => cases hmore
  | @start s hs =>
    obtain ⟨-, hm, hgen, -⟩ := fileStart_merge hb hs
    have hleft : s.left o.rbBatch = (fileMerge o.rbBatch devs).rem := congrArg KMerge.State.rem hm
    refine ⟨hm ▸ fileMerge_ordered hb hg, ?_⟩
    intro id t ht
    rw [hgen]
    rw [hleft] at ht
    exact genesisOf_le hb hg id t ht
  | handle hr hc hh ih =>
    subst hmore
    exact ((hr.ready hb rfl).handle hb hc hh).2 (ih rfl)

/-- The call that ends the run has made the head's record relative and dequeued nothing. -/
theorem handle_stop {o : Opts} {s s' : FileState} {msp : StreamId} {next : List StreamId}
    {t : BlkIoTrace} {queue : List BlkIoTrace} (hfirst : (s.streams msp).first = t :: queue)
    (hh : handle o s msp next = (s', false)) :
    s'.msHead = s.msHead ∧ s'.streams = Function.update s.streams msp
      ⟨{ t with time := t.time - s.genesisTime } :: queue, (s.streams msp).fd⟩ := by
  unfold handle at hh
  rw [hfirst] at hh
  dsimp only at hh
  split at hh
  · cases hh
    exact ⟨rfl, rfl⟩
  · cases hh

theorem FileReady.chainOk_of_stop {o : Opts} {rbBatch : Nat} {s s' : FileState}
    (h : FileReady rbBatch s) (ho : FileOrdered rbBatch s) {msp : StreamId} {next : List StreamId}
    (hc : s.msHead = msp :: next) (hh : Blkparse.handle o s msp next = (s', false)) :
    ChainOk s' := by
  obtain ⟨hnd, hmem, hso⟩ := ChainOk.of_wf h.wf
  have hfirst : (s.streams msp).first ≠ [] := (hmem msp).mp (by rw [hc]; exact List.mem_cons_self)
  obtain ⟨t, queue, hfirst⟩ := List.exists_cons_of_ne_nil hfirst
  obtain ⟨hhead, hstr⟩ := handle_stop hfirst hh
  have hother : ∀ id, id ≠ msp → s'.streams id = s.streams id := by
    intro id hid
    rw [hstr, Function.update_of_ne hid]
  refine ⟨hhead ▸ hnd, fun id => ?_, ?_⟩
  · rw [hhead, hmem id]
    by_cases hid : id = msp
    · subst hid
      simp [hstr, hfirst]
    · rw [hother id hid]
  · rw [hhead, hc] at *
    obtain ⟨hle, hrest⟩ := List.pairwise_cons.mp hso
    have hne : ∀ id ∈ next, id ≠ msp := fun id hid heq => (List.nodup_cons.mp hnd).1 (heq ▸ hid)
    have hpeek : ∀ id ∈ next, msPeekTime s'.streams id = msPeekTime s.streams id := by
      intro id hid
      rw [msPeekTime, msPeekTime, hother id (hne id hid)]
    -- the head's time only went down
    have hdown : msPeekTime s'.streams msp ≤ msPeekTime s.streams msp := by
      have hgt : s.genesisTime ≤ t.time := ho.genesis msp t (by simp [FileState.left, MsStream.left, hfirst])
      simpa [msPeekTime, hstr, hfirst] using Word.sub_le_iff.mpr hgt
    refine List.pairwise_cons.mpr ⟨fun id hid => ?_, ?_⟩
    · rw [hpeek id hid]
      exact hdown.trans (hle id hid)
    · refine hrest.imp_of_mem fun {a b} ha hb' hab => ?_
      rw [hpeek a ha, hpeek b hb']
      exact hab

theorem FileReach.chainOk {o : Opts} (hb : 1 ≤ o.rbBatch) {native : Bool}
    {devs : List (List (List BlkIoTrace))} (hg : ∀ f ∈ inputFiles devs, GoodFile native f.1.2 f.2)
    {more : Bool} {s : FileState} (h : FileReach o devs more s) : ChainOk s := by
  cases h with
  | @setup fs gs hsplit =>
    -- the files set up so far are a merge of their own
    have hnd : (fs.map Prod.fst).Nodup := by
      have hall := inputFiles_nodup devs
      rw [hsplit, List.map_append] at hall
      exact hall.of_append_left
    obtain ⟨-, hm⟩ := @setup_merge o hb {} FileInv.init _ hnd fun _ _ => rfl
    rw [← readableFiles_ids none] at hnd
    apply @ChainOk.of_wf o.rbBatch
    rw [hm]
    exact (mergeOf_spec KMerge.WF.empty hnd fun _ _ => rfl).1
  | start hs => exact .of_wf ((FileReach.start hs).ready hb rfl).wf
  | handle h' hc hh =>
    have hr := h'.ready hb rfl
    cases more with
    | true => exact .of_wf (hr.handle hb hc hh).1.wf
    | false => exact hr.chainOk_of_stop (h'.ordered hb hg rfl) hc hh

/-! ## The run -/

/-- What `handle` is to be given in a run over `devs`: every file's records, once each and in
file order, up to the first past the stopwatch, and all of them in time order. -/
structure Delivers (o : Opts) (native : Bool) (devs : List (List (List BlkIoTrace)))
    (s : FileState) : Prop where
  sorted : s.handled.Pairwise fun a b => a.2.time ≤ b.2.time
  source : ∀ e ∈ s.handled, ∃ f ∈ inputFiles devs, f.1 = e.1
  complete : ∀ f ∈ inputFiles devs, ∃ rest,
    fileRecords native f.2 = KMerge.taken f.1 s.handled ++ rest ∧
      ∀ t ∈ rest, o.past s.genesisTime t = true
  last : ∀ e ∈ s.handled.dropLast, o.past s.genesisTime e.2 = false

/-- The genesis time is fixed before the loop. -/
theorem fileLoop_genesisTime (o : Opts) (fuel : Nat) (s : FileState) :
    (fileLoop o fuel s).genesisTime = s.genesisTime := by
  have hdeq : ∀ (s : FileState) (msp : StreamId) (next : List StreamId),
      (msDeq o s msp next).genesisTime = s.genesisTime := by
    intro s msp next
    unfold msDeq
    dsimp only
    split
    · split <;> exact (msPrime_frame o _ _).2.1
    · rfl
  have hstep : ∀ (s : FileState) (msp : StreamId) (next : List StreamId),
      (handle o s msp next).1.genesisTime = s.genesisTime := by
    intro s msp next
    unfold handle
    split
    · rfl
    · dsimp only
      split
      · rfl
      · exact hdeq _ _ _
  induction fuel generalizing s with
  | zero => rfl
  | succ fuel ih =>
    rw [fileLoop]
    cases s.msHead with
    | nil => rfl
    | cons msp next =>
      have hs := hstep s msp next
      dsimp only
      generalize handle o s msp next = r at *
      obtain ⟨s', more⟩ := r
      cases more with
      | true => exact (ih s').trans hs
      | false => exact hs

theorem doFile_genesisTime {o : Opts} (hb : 1 ≤ o.rbBatch) {devs : List (List (List BlkIoTrace))}
    {s : FileState} (hs : doFile o devs = some s) :
    s.genesisTime = genesisOf (fileMerge o.rbBatch devs) := by
  rw [doFile, Option.map_eq_some_iff] at hs
  obtain ⟨s₀, hs₀, rfl⟩ := hs
  rw [fileLoop_genesisTime]
  exact (fileStart_merge hb hs₀).2.2.1

theorem doFile_delivers {o : Opts} (hb : 1 ≤ o.rbBatch) {native : Bool}
    {devs : List (List (List BlkIoTrace))} (hg : ∀ f ∈ inputFiles devs, GoodFile native f.1.2 f.2)
    {s : FileState} (hs : doFile o devs = some s) : Delivers o native devs s := by
  have hrun := doFile_handled hb hs
  have hgen := doFile_genesisTime hb hs
  obtain ⟨hw, -, hout, -⟩ := fileMerge_spec o.rbBatch devs
  have ho := fileMerge_ordered hb hg
  rw [← hgen] at hrun
  refine ⟨hrun ▸ KMerge.run_sorted hw ho, fun e he => ?_, fun f hf => ?_,
    hrun ▸ KMerge.run_stop_last _ _ _⟩
  · rw [hrun] at he
    by_contra hno
    have hid : e.1 ∉ (inputFiles devs).map Prod.fst := by
      intro h
      obtain ⟨f, hf, heq⟩ := List.mem_map.mp h
      exact hno ⟨f, hf, heq⟩
    have hmem := KMerge.mem_rem_of_mem_run _ _ _ e he
    rw [hout e.1 hid] at hmem
    simp at hmem
  · rw [hrun, ← fileMerge_rem_of_good hb hg hf]
    refine KMerge.run_rest_stops (P := fun t => s.genesisTime ≤ t.time)
      (fun a b ha => Opts.past_mono ha) hw ho (fun id t ht => ?_)
      ((fileMerge_size o.rbBatch devs).trans (Nat.le_succ _)) f.1
    rw [hgen]
    exact genesisOf_le hb hg id t ht

theorem doFile_eq_some {o : Opts} {devs : List (List (List BlkIoTrace))} (hd : [] ∉ devs) :
    ∃ s, doFile o devs = some s := by
  rw [doFile, fileStart, setupDevices_eq, if_neg hd]
  exact ⟨_, rfl⟩

/-- **The merge of file mode.** Over good files `handle` is given every record that is no notify,
once and in time order, up to the first past the stopwatch; and between two calls the chain from
`ms_head` is in order. A device without a file makes `do_file` give up before the first call. -/
theorem doFile_merges {o : Opts} (hb : 1 ≤ o.rbBatch) {native : Bool}
    {devs : List (List (List BlkIoTrace))}
    (hg : ∀ f ∈ inputFiles devs, GoodFile native f.1.2 f.2) :
    ([] ∉ devs → ∃ s, doFile o devs = some s ∧ Delivers o native devs s) ∧
      ∀ more s, FileReach o devs more s → ChainOk s := by
  refine ⟨fun hd => ?_, fun _ _ h => h.chainOk hb hg⟩
  obtain ⟨s, hs⟩ := doFile_eq_some (o := o) hd
  exact ⟨s, hs, doFile_delivers hb hg hs⟩

theorem doFile_merges_two_files :
    (∃ s, doFile { rbBatch := 1 } [[[queueRecord 0 0 1 5, queueRecord 0 0 2 7],
        [queueRecord 0 1 1 5, queueRecord 0 1 2 6]]] = some s ∧
      Delivers { rbBatch := 1 } true [[[queueRecord 0 0 1 5, queueRecord 0 0 2 7],
        [queueRecord 0 1 1 5, queueRecord 0 1 2 6]]] s) ∧
      ∀ more s, FileReach { rbBatch := 1 } [[[queueRecord 0 0 1 5, queueRecord 0 0 2 7],
        [queueRecord 0 1 1 5, queueRecord 0 1 2 6]]] more s → ChainOk s := by
  have h := @doFile_merges { rbBatch := 1 } (le_refl _) true [[[queueRecord 0 0 1 5,
    queueRecord 0 0 2 7], [queueRecord 0 1 1 5, queueRecord 0 1 2 6]]] (by decide)
  exact ⟨h.1 (by decide), h.2⟩

end Blktrace.Blkparse
