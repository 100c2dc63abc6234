import Blktrace.Blkparse.FileMerge

/-!
# Where the batch size shows

A record of another CPU uses up a slot of the batch and queues nothing, so a batch can come out
empty with the file still open. The stream is dropped then, and with it whatever the file still
holds: a smaller batch loses records that a larger one delivers. `doFile_batch` says when that
cannot happen: for the records handed over, when no file has a record to queue behind one of
another CPU (`FilesSettled`); for the streams, when no file has a record of another CPU at all
(`FilesOwn`).
-/

namespace Blktrace.Blkparse

/-! ## The claims of a run -/

/-- The records `handle` is given do not depend on the batch size. -/
def BatchFree (devs : List (List (List BlkIoTrace))) : Prop :=
  ∀ (o : Opts) (b₁ b₂ : Nat), 1 ≤ b₁ → 1 ≤ b₂ →
    (doFile { o with rbBatch := b₁ } devs).map FileState.handled
      = (doFile { o with rbBatch := b₂ } devs).map FileState.handled

/-- The calls of `ms_prime`, each by the streams and the byte order it is made in: on a file just
opened, and on a stream whose last queued record has been handled. -/
inductive MsPrimeCall (o : Opts) (devs : List (List (List BlkIoTrace))) :
    FileState → StreamId → Prop
  | alloc {fs gs : List (StreamId × List BlkIoTrace)} {f : StreamId × List BlkIoTrace}
      {s : FileState} : inputFiles devs = fs ++ f :: gs → f.2 ≠ [] →
      s = fs.foldl (setupFile o) {} →
      MsPrimeCall o devs
        { s with streams := Function.update s.streams f.1 ⟨[], some f.2⟩ } f.1
  | deq {s : FileState} {msp : StreamId} {next : List StreamId} {t : BlkIoTrace} :
      FileReach o devs true s → s.msHead = msp :: next → (s.streams msp).first = [t] →
      o.past s.genesisTime t = false →
      MsPrimeCall o devs
        { s with streams := Function.update s.streams msp ⟨[], (s.streams msp).fd⟩ } msp

/-- `ms_prime` returns 0 only once the file is closed. -/
def DropsOnlyClosed (devs : List (List (List BlkIoTrace))) : Prop :=
  ∀ o : Opts, 1 ≤ o.rbBatch → ∀ s msp, MsPrimeCall o devs s msp → (msPrime o s msp).2 = 0 →
    ((msPrime o s msp).1.streams msp).fd = none

/-- No file has a record of another CPU where it can be read. -/
def FilesOwn (devs : List (List (List BlkIoTrace))) : Prop :=
  ∀ r ∈ readableFiles none (inputFiles devs), .skipped ∉ r.2

theorem FilesOwn.settled {devs : List (List (List BlkIoTrace))} (h : FilesOwn devs) :
    FilesSettled devs := fun r hr => .of_not_mem (h r hr)

/-! ## Batches of one, and one batch for all -/

theorem takeBatch_one_cons (f : Fetched) (fs : List Fetched) :
    takeBatch 1 (f :: fs) 0 =
      match f with
      | .skipped => ([], fs)
      | .queued bit => ([bit], fs)
      | .notify _ | .err => takeBatch 1 fs 0 := by
  cases f <;> rw [takeBatch] <;> simp [takeBatch_of_not_lt]

/-- Batches of one record end at the first of another CPU. -/
theorem delivered_one (fs : List Fetched) :
    delivered 1 fs = records (fs.takeWhile (· ≠ .skipped)) := by
  induction fs with
  | nil => exact delivered_nil 1
  | cons f fs ih =>
    cases f with
    | skipped => simp [delivered, takeBatch_one_cons]
    | queued bit =>
      have hpass : ((.queued bit : Fetched) :: fs).takeWhile (· ≠ .skipped)
          = .queued bit :: fs.takeWhile (· ≠ .skipped) := by simp
      rw [delivered, takeBatch_one_cons, dif_neg (by simp), hpass, records_cons, ih]
      rfl
    | notify bit =>
      have hpass : ((.notify bit : Fetched) :: fs).takeWhile (· ≠ .skipped)
          = .notify bit :: fs.takeWhile (· ≠ .skipped) := by simp
      rw [hpass, records_cons, delivered, takeBatch_one_cons]
      rw [delivered] at ih
      exact ih
    | err =>
      have hpass : ((.err : Fetched) :: fs).takeWhile (· ≠ .skipped)
          = .err :: fs.takeWhile (· ≠ .skipped) := by simp
      rw [hpass, records_cons, delivered, takeBatch_one_cons]
      rw [delivered] at ih
      exact ih

theorem takeBatch_all {rbBatch i : Nat} {fs : List Fetched} (h : i + fs.length ≤ rbBatch) :
    takeBatch rbBatch fs i = (records fs, []) := by
  induction fs generalizing i with
  | nil => rfl
  | cons f fs ih =>
    rw [List.length_cons] at h
    have hi : i < rbBatch := by omega
    have h₀ := @ih i (by omega)
    have h₁ := @ih (i + 1) (by omega)
    cases f with
    | skipped => rw [takeBatch, if_pos hi, h₁]; rfl
    | queued bit => rw [takeBatch, if_pos hi, h₁]; rfl
    | notify bit => rw [takeBatch, if_pos hi, h₀]; rfl
    | err => rw [takeBatch, if_pos hi, h₀]; rfl

/-- A batch as long as the file delivers all of it. -/
theorem delivered_all {rbBatch : Nat} {fs : List Fetched} (h : fs.length ≤ rbBatch) :
    delivered rbBatch fs = records fs := by
  rw [delivered, takeBatch_all (by omega), delivered_nil]
  split
  case isTrue hq => exact hq.symm
  case isFalse => exact List.append_nil _

theorem settled_of_delivered_one {fs : List Fetched} (h : delivered 1 fs = records fs) :
    Settled fs := by
  rw [delivered_one] at h
  induction fs with
  | nil => trivial
  | cons f fs ih =>
    cases f with
    | skipped => exact h.symm
    | queued bit =>
      apply ih
      simpa [records_cons, Fetched.queued?] using h
    | notify bit =>
      apply ih
      simpa [records_cons, Fetched.queued?] using h
    | err =>
      apply ih
      simpa [records_cons, Fetched.queued?] using h

/-! ## The records handed over -/

/-- Without a stopwatch no record ends the run. -/
theorem past_default (b : Nat) (genesis : UInt64) (t : BlkIoTrace) :
    ({ rbBatch := b } : Opts).past genesis t = false := by
  rw [Opts.past, decide_eq_false_iff_not, not_lt]
  exact Word.le_max _

theorem taken_handled {b : Nat} (hb : 1 ≤ b) {devs : List (List (List BlkIoTrace))} {s : FileState}
    (hs : doFile { rbBatch := b } devs = some s) {r : StreamId × List Fetched}
    (hr : r ∈ readableFiles none (inputFiles devs)) :
    KMerge.taken r.1 s.handled = delivered b r.2 := by
  obtain ⟨hw, hrem, -, -⟩ := fileMerge_spec b devs
  rw [doFile_handled hb hs, ← hrem r hr]
  exact (KMerge.run_complete hw ((fileMerge_size b devs).trans (Nat.le_succ _))
    (fun e _ => past_default b _ e.2) r.1).symm

/-- The merge of settled files is the same for every batch size. -/
theorem FilesSettled.fileMerge_eq {devs : List (List (List BlkIoTrace))} (h : FilesSettled devs)
    {b₁ b₂ : Nat} (h₁ : 1 ≤ b₁) (h₂ : 1 ≤ b₂) : fileMerge b₁ devs = fileMerge b₂ devs := by
  rw [fileMerge, fileMerge, mergeOf, mergeOf]
  apply List.foldl_ext
  intro m r hr
  rw [(h r hr).delivered h₁, (h r hr).delivered h₂]

theorem batchFree_iff {devs : List (List (List BlkIoTrace))} (hd : [] ∉ devs) :
    BatchFree devs ↔ FilesSettled devs := by
  constructor
  · intro h r hr
    obtain ⟨s₁, hs₁⟩ := @doFile_eq_some { rbBatch := 1 } _ hd
    obtain ⟨s₂, hs₂⟩ := @doFile_eq_some { rbBatch := r.2.length + 1 } _ hd
    have heq : s₁.handled = s₂.handled := by
      have := h {} 1 (r.2.length + 1) (le_refl _) (Nat.le_add_left ..)
      rw [show doFile { ({} : Opts) with rbBatch := 1 } devs = some s₁ from hs₁,
        show doFile { ({} : Opts) with rbBatch := r.2.length + 1 } devs = some s₂ from hs₂] at this
      simpa using this
    apply settled_of_delivered_one
    rw [← taken_handled (le_refl _) hs₁ hr, heq, taken_handled (Nat.le_add_left ..) hs₂ hr]
    exact delivered_all (Nat.le_succ _)
  · intro h o b₁ b₂ h₁ h₂
    obtain ⟨s₁, hs₁⟩ := @doFile_eq_some { o with rbBatch := b₁ } _ hd
    obtain ⟨s₂, hs₂⟩ := @doFile_eq_some { o with rbBatch := b₂ } _ hd
    have heq : s₁.handled = s₂.handled := by
      rw [doFile_handled h₁ hs₁, doFile_handled h₂ hs₂]
      show KMerge.run _ _ (o.past (genesisOf (fileMerge b₁ devs))) _ (fileMerge b₁ devs)
        = KMerge.run _ _ (o.past (genesisOf (fileMerge b₂ devs))) _ (fileMerge b₂ devs)
      rw [h.fileMerge_eq h₁ h₂]
    rw [hs₁, hs₂, Option.map_some, Option.map_some, heq]

/-! ## One call of `ms_prime` -/

theorem msPrimeLoop_full {rbBatch i : Nat} (hi : ¬ i < rbBatch) (cpu : Nat)
    (file : List BlkIoTrace) (native : Option Bool) :
    msPrimeLoop rbBatch cpu file native i = ⟨[], some file, native, []⟩ := by
  cases file with
  | nil => rw [msPrimeLoop, if_neg hi]
  | cons raw rest => rw [msPrimeLoop, if_neg hi]

/-- Without records of another CPU, a batch that queued nothing ran into the end of the file. -/
theorem msPrimeLoop_closed {rbBatch cpu i : Nat} {file : List BlkIoTrace} {native : Option Bool}
    (hi : i < rbBatch) (hown : .skipped ∉ readable cpu native file)
    (hq : (msPrimeLoop rbBatch cpu file native i).queue = []) :
    (msPrimeLoop rbBatch cpu file native i).fd = none := by
  induction file generalizing native with
  | nil => rw [msPrimeLoop, if_pos hi]
  | cons raw rest ih =>
    rw [msPrimeLoop, if_pos hi] at hq ⊢
    rw [readable] at hown
    cases hl : lookNative native raw.magic with
    | none => rfl
    | some b =>
      rw [hl] at hown hq
      dsimp only at hown hq ⊢
      cases hf : msFetch cpu b raw with
      | err => rfl
      | skipped =>
        rw [hf] at hown
        exact absurd List.mem_cons_self hown
      | queued bit =>
        rw [hf] at hq
        simp at hq
      | notify bit =>
        rw [hf] at hown hq
        exact ih (fun h => hown (List.mem_cons_of_mem _ h)) hq

/-- A batch of one that queued nothing in a file with a record of another CPU met that record,
and left the file open. -/
theorem msPrimeLoop_open {cpu : Nat} {file : List BlkIoTrace} {native : Option Bool}
    (hskip : .skipped ∈ readable cpu native file)
    (hq : (msPrimeLoop 1 cpu file native 0).queue = []) :
    (msPrimeLoop 1 cpu file native 0).fd ≠ none := by
  induction file generalizing native with
  | nil => simp [readable] at hskip
  | cons raw rest ih =>
    rw [msPrimeLoop, if_pos Nat.one_pos] at hq ⊢
    rw [readable] at hskip
    cases hl : lookNative native raw.magic with
    | none => rw [hl] at hskip; simp at hskip
    | some b =>
      rw [hl] at hskip hq
      dsimp only at hskip hq ⊢
      cases hf : msFetch cpu b raw with
      | err => rw [hf] at hskip; simp at hskip
      | skipped => simp [msPrimeLoop_full]
      | queued bit =>
        rw [hf] at hq
        simp at hq
      | notify bit =>
        rw [hf] at hskip hq
        exact ih (by simpa using hskip) hq

theorem takeBatch_one_skip {fs : List Fetched} (hskip : .skipped ∈ fs)
    (hq : (takeBatch 1 fs 0).1 ≠ []) : .skipped ∈ (takeBatch 1 fs 0).2 := by
  induction fs with
  | nil => simp at hskip
  | cons f fs ih =>
    rw [takeBatch_one_cons] at hq ⊢
    cases f with
    | skipped => exact absurd rfl hq
    | queued bit => simpa using hskip
    | notify bit => exact ih (by simpa using hskip) hq
    | err => exact ih (by simpa using hskip) hq

/-- What is unread of stream `id`. -/
abbrev FileState.unread (s : FileState) (id : StreamId) : List Fetched :=
  (s.streams id).unread s.native id.2

theorem msPrime_closed {o : Opts} (hb : 1 ≤ o.rbBatch) {s : FileState} {msp : StreamId}
    (hfirst : (s.streams msp).first = []) (hown : .skipped ∉ s.unread msp)
    (hzero : (msPrime o s msp).2 = 0) : ((msPrime o s msp).1.streams msp).fd = none := by
  cases hfd : (s.streams msp).fd with
  | none => rwa [msPrime_of_none hfd]
  | some file =>
    obtain ⟨-, hself, hlen⟩ := msPrime_of_some (o := o) hfd hfirst
    rw [hlen, List.length_eq_zero_iff] at hzero
    rw [FileState.unread, MsStream.unread, hfd] at hown
    rw [hself]
    exact msPrimeLoop_closed hb hown hzero

/-- A stream whose file has a record of another CPU to come, primed one record at a time: either
the record is still to come, or the call returned 0 with the file open. -/
theorem msPrime_one {o : Opts} (hb : o.rbBatch = 1) {s : FileState} {msp : StreamId}
    (hfirst : (s.streams msp).first = []) (hskip : .skipped ∈ s.unread msp) :
    (((msPrime o s msp).1.streams msp).first ≠ [] ∧ .skipped ∈ (msPrime o s msp).1.unread msp) ∨
      ((msPrime o s msp).2 = 0 ∧ ((msPrime o s msp).1.streams msp).fd ≠ none) := by
  obtain ⟨hbatch, hzero⟩ := msPrime_batch (o := o) hfirst
  rw [hb] at hbatch
  by_cases hq : ((msPrime o s msp).1.streams msp).first = []
  · refine Or.inr ⟨hzero.mpr hq, ?_⟩
    cases hfd : (s.streams msp).fd with
    | none =>
      rw [FileState.unread, MsStream.unread, hfd] at hskip
      simp at hskip
    | some file =>
      obtain ⟨-, hself, -⟩ := msPrime_of_some (o := o) hfd hfirst
      rw [FileState.unread, MsStream.unread, hfd] at hskip
      rw [hself, hb] at hq ⊢
      exact msPrimeLoop_open hskip hq
  · refine Or.inl ⟨hq, ?_⟩
    have hne : (takeBatch 1 (s.unread msp) 0).1 ≠ [] := by rwa [hbatch]
    have hmem := takeBatch_one_skip hskip hne
    rwa [hbatch] at hmem

/-! ## What a step does to the streams -/

/-- A step on stream `msp`: its queue changes and stays nonempty, or a call of `ms_prime` is made
in a state that differs in this stream alone, for what was unread or for a file just opened. -/
inductive StreamStep (o : Opts) (devs : List (List (List BlkIoTrace))) (s s' : FileState)
    (msp : StreamId) : Prop
  | requeue {queue : List BlkIoTrace} : (s.streams msp).first ≠ [] → queue ≠ [] →
      s'.native = s.native →
      s'.streams = Function.update s.streams msp ⟨queue, (s.streams msp).fd⟩ →
      StreamStep o devs s s' msp
  | prime {c : FileState} : MsPrimeCall o devs c msp → c.native = s.native →
      (∀ id, id ≠ msp → c.streams id = s.streams id) → (c.streams msp).first = [] →
      ((s.streams msp).first ≠ [] ∧ c.unread msp = s.unread msp ∨
        (msp, c.unread msp) ∈ readableFiles none (inputFiles devs)) →
      s'.native = (msPrime o c msp).1.native → s'.streams = (msPrime o c msp).1.streams →
      StreamStep o devs s s' msp

/-- `ms_prime` reads the streams and the byte order only. -/
theorem msPrime_congr (o : Opts) {s s' : FileState} (msp : StreamId)
    (hstreams : s.streams = s'.streams) (hnative : s.native = s'.native) :
    (msPrime o s msp).1.native = (msPrime o s' msp).1.native ∧
      (msPrime o s msp).1.streams = (msPrime o s' msp).1.streams := by
  unfold msPrime
  rw [hstreams, hnative]
  split <;> simp [hstreams, hnative]

theorem readableFiles_append {o : Opts} (hb : 1 ≤ o.rbBatch) (s : FileState)
    (fs gs : List (StreamId × List BlkIoTrace)) : readableFiles s.native (fs ++ gs)
      = readableFiles s.native fs ++ readableFiles (fs.foldl (setupFile o) s).native gs := by
  induction fs generalizing s with
  | nil => rfl
  | cons f fs ih =>
    rw [List.cons_append, readableFiles, readableFiles, List.foldl_cons, List.cons_append,
      ← setupFile_native hb s f, ih]

/-- A file is read in the byte order known when it is opened. -/
theorem mem_readableFiles {o : Opts} (hb : 1 ≤ o.rbBatch) {devs : List (List (List BlkIoTrace))}
    {fs gs : List (StreamId × List BlkIoTrace)} {f : StreamId × List BlkIoTrace}
    (hsplit : inputFiles devs = fs ++ f :: gs) :
    (f.1, readable f.1.2 (fs.foldl (setupFile o) {}).native f.2)
      ∈ readableFiles none (inputFiles devs) := by
  have happ := readableFiles_append hb {} fs (f :: gs)
  rw [← hsplit] at happ
  rw [show readableFiles none (inputFiles devs) = _ from happ, readableFiles]
  exact List.mem_append_right _ List.mem_cons_self

theorem setupFile_step {o : Opts} (hb : 1 ≤ o.rbBatch) {devs : List (List (List BlkIoTrace))}
    {fs gs : List (StreamId × List BlkIoTrace)} {f : StreamId × List BlkIoTrace}
    (hsplit : inputFiles devs = fs ++ f :: gs) (hne : f.2 ≠ []) :
    StreamStep o devs (fs.foldl (setupFile o) {}) (setupFile o (fs.foldl (setupFile o) {}) f)
      f.1 := by
  have hcall := @MsPrimeCall.alloc o devs _ _ _ _ hsplit hne rfl
  have hmem := mem_readableFiles hb hsplit
  generalize fs.foldl (setupFile o) {} = s at *
  have hsetup : (setupFile o s f).native = (msPrime o { s with
        streams := Function.update s.streams f.1 ⟨[], some f.2⟩ } f.1).1.native ∧
      (setupFile o s f).streams = (msPrime o { s with
        streams := Function.update s.streams f.1 ⟨[], some f.2⟩ } f.1).1.streams := by
    rw [setupFile, if_neg hne, msAlloc]
    dsimp only
    split <;> exact ⟨rfl, rfl⟩
  refine .prime hcall rfl (fun id hid => Function.update_of_ne hid _ _) (by simp) (Or.inr ?_)
    hsetup.1 hsetup.2
  simpa [FileState.unread, MsStream.unread] using hmem

theorem msDeq_streams (o : Opts) (s : FileState) (msp : StreamId) (next : List StreamId) :
    ((s.streams msp).first.tail ≠ [] → (msDeq o s msp next).native = s.native ∧
      (msDeq o s msp next).streams = Function.update s.streams msp
        ⟨(s.streams msp).first.tail, (s.streams msp).fd⟩) ∧
    ((s.streams msp).first.tail = [] → ∃ s₁ : FileState, s₁.native = s.native ∧
      s₁.streams = Function.update s.streams msp ⟨[], (s.streams msp).fd⟩ ∧
      (msDeq o s msp next).native = (msPrime o s₁ msp).1.native ∧
      (msDeq o s msp next).streams = (msPrime o s₁ msp).1.streams) := by
  constructor
  · intro hq
    simp [msDeq, hq]
  · intro hq
    let st : MsStream := ⟨(s.streams msp).first.tail, (s.streams msp).fd⟩
    refine ⟨{ s with streams := Function.update s.streams msp st }, rfl, by rw [← hq], ?_⟩
    simp only [msDeq, if_pos hq]
    split <;> exact ⟨rfl, rfl⟩

theorem handle_step {o : Opts} {devs : List (List (List BlkIoTrace))} {s s' : FileState}
    (hr : FileReach o devs true s) {msp : StreamId} {next : List StreamId} {more : Bool}
    (hc : s.msHead = msp :: next) (hfirst : (s.streams msp).first ≠ [])
    (hh : handle o s msp next = (s', more)) : StreamStep o devs s s' msp := by
  obtain ⟨t, queue, hfirst⟩ := List.exists_cons_of_ne_nil hfirst
  cases hp : o.past s.genesisTime t with
  | true =>
    have hlt : o.stopwatchEnd < t.time - s.genesisTime := by simpa [Opts.past] using hp
    simp only [handle, hfirst, if_pos hlt, Prod.mk.injEq] at hh
    obtain ⟨rfl, -⟩ := hh
    exact .requeue (by simp [hfirst]) (List.cons_ne_nil _ _) rfl rfl
  | false =>
    obtain ⟨s₀, hhandle, hnat, hstr, -, -⟩ := @handle_of_not_past o s msp next t queue hfirst hp
    rw [hhandle, Prod.mk.injEq] at hh
    obtain ⟨rfl, -⟩ := hh
    have hthis : s₀.streams msp
        = ⟨{ t with time := t.time - s.genesisTime } :: queue, (s.streams msp).fd⟩ := by
      rw [hstr, Function.update_self]
    obtain ⟨hkeep, hprime⟩ := msDeq_streams o s₀ msp next
    rw [hthis, List.tail_cons] at hkeep hprime
    rw [hnat, hstr, Function.update_idem] at hkeep hprime
    by_cases hq : queue = []
    · subst hq
      obtain ⟨s₁, hn₁, hs₁, hn, hs⟩ := hprime rfl
      have hcall := MsPrimeCall.deq hr hc hfirst hp
      obtain ⟨hn', hs'⟩ := @msPrime_congr o s₁ { s with
        streams := Function.update s.streams msp ⟨[], (s.streams msp).fd⟩ } msp hs₁ hn₁
      refine .prime hcall rfl (fun id hid => Function.update_of_ne hid _ _) (by simp)
        (Or.inl ⟨by simp [hfirst], ?_⟩) (hn.trans hn') (hs.trans hs')
      simp [FileState.unread, MsStream.unread]
    · exact .requeue (by simp [hfirst]) hq (hkeep hq).1 (hkeep hq).2

/-- A step leaves the other streams as they look. -/
theorem StreamStep.other {o : Opts} {devs : List (List (List BlkIoTrace))} {s s' : FileState}
    {msp : StreamId} (h : StreamStep o devs s s' msp) (hinv : FileInv s) {id : StreamId}
    (hid : id ≠ msp) :
    (s'.streams id).first = (s.streams id).first ∧ s'.unread id = s.unread id := by
  cases h with
  | requeue _ _ hn hs =>
    rw [FileState.unread, FileState.unread, hs, hn, Function.update_of_ne hid]
    exact ⟨rfl, rfl⟩
  | @prime c _ hn hother _ _ hn' hs' =>
    have hbut : FileInvBut (· = msp) c := by
      intro id hid h
      rw [hother id hid] at h
      rw [hn]
      exact hinv id not_false h
    rw [FileState.unread, FileState.unread, hs', hn', msPrime_unread_of_ne hbut hid,
      msPrime_streams_of_ne o c hid, hother id hid, hn]
    exact ⟨rfl, rfl⟩

/-! ## Files without records of another CPU -/

theorem StreamStep.own {o : Opts} {devs : List (List (List BlkIoTrace))} (hown : FilesOwn devs)
    {s s' : FileState} {msp : StreamId} (h : StreamStep o devs s s' msp) (hinv : FileInv s)
    (hs : ∀ id, .skipped ∉ s.unread id) (id : StreamId) : .skipped ∉ s'.unread id := by
  by_cases hid : id = msp
  case neg =>
    rw [(h.other hinv hid).2]
    exact hs id
  case pos =>
    subst hid
    cases h with
    | requeue _ _ hn hst =>
      rw [FileState.unread, hst, hn, Function.update_self]
      exact hs id
    | @prime c _ hn _ hfirst hunread hn' hs' =>
      have hc : .skipped ∉ c.unread id := by
        rcases hunread with ⟨-, heq⟩ | hmem
        · rw [heq]
          exact hs id
        · exact hown _ hmem
      obtain ⟨done, hsplit, -, -⟩ := takeBatch_split o.rbBatch (c.unread id) 0
      rw [FileState.unread, (msPrime_batch hfirst).1] at hsplit
      rw [FileState.unread, hs', hn']
      intro hmem
      apply hc
      rw [FileState.unread, hsplit]
      exact List.mem_append_right _ hmem

/-- What holds of every number of files set up, and is kept by each further file, holds of the
state the loop starts in. -/
theorem setup_induction {o : Opts} {devs : List (List (List BlkIoTrace))}
    {P : List (StreamId × List BlkIoTrace) → FileState → Prop} (hnil : P [] {})
    (hstep : ∀ fs f gs, inputFiles devs = fs ++ f :: gs → P fs (fs.foldl (setupFile o) {}) →
      P (fs ++ [f]) (setupFile o (fs.foldl (setupFile o) {}) f))
    {fs gs : List (StreamId × List BlkIoTrace)} (hsplit : inputFiles devs = fs ++ gs) :
    P fs (fs.foldl (setupFile o) {}) := by
  induction fs using List.reverseRecOn generalizing gs with
  | nil => exact hnil
  | append_singleton fs f ih =>
    rw [List.append_assoc] at hsplit
    rw [List.foldl_append]
    exact hstep fs f gs hsplit (ih hsplit)

theorem setup_inv {o : Opts} (hb : 1 ≤ o.rbBatch) {devs : List (List (List BlkIoTrace))}
    {fs gs : List (StreamId × List BlkIoTrace)} (hsplit : inputFiles devs = fs ++ gs) :
    FileInv (fs.foldl (setupFile o) {}) := by
  have hnd : (fs.map Prod.fst).Nodup := by
    have hall := inputFiles_nodup devs
    rw [hsplit, List.map_append] at hall
    exact hall.of_append_left
  exact (@setup_merge o hb {} FileInv.init _ hnd fun _ _ => rfl).1

/-- The loop starts with the streams as they were set up. -/
theorem fileStart_streams {o : Opts} {devs : List (List (List BlkIoTrace))} {s : FileState}
    (hs : fileStart o devs = some s) :
    s.streams = ((inputFiles devs).foldl (setupFile o) {}).streams ∧
      s.native = ((inputFiles devs).foldl (setupFile o) {}).native := by
  rw [fileStart, setupDevices_eq] at hs
  split at hs
  case isTrue => simp at hs
  case isFalse =>
    simp only [Option.map_some, Option.some.injEq] at hs
    rw [inputFiles, ← hs]
    split <;> exact ⟨rfl, rfl⟩

theorem FileReach.own {o : Opts} (hb : 1 ≤ o.rbBatch) {devs : List (List (List BlkIoTrace))}
    (hown : FilesOwn devs) {more : Bool} {s : FileState} (h : FileReach o devs more s)
    (id : StreamId) : .skipped ∉ s.unread id := by
  have hsetup : ∀ {fs gs}, inputFiles devs = fs ++ gs →
      ∀ id, .skipped ∉ (fs.foldl (setupFile o) {}).unread id := by
    intro fs gs hsplit
    refine setup_induction (P := fun _ s => ∀ id, .skipped ∉ s.unread id)
      (fun _ => List.not_mem_nil) (fun fs f gs hsplit ih => ?_) hsplit
    by_cases hne : f.2 = []
    · rw [setupFile, if_pos hne]
      exact ih
    · exact (setupFile_step hb hsplit hne).own hown (setup_inv hb hsplit) ih
  induction h generalizing id with
  | setup hsplit => exact hsetup hsplit id
  | start hs =>
    obtain ⟨hst, hn⟩ := fileStart_streams hs
    rw [FileState.unread, hst, hn]
    exact hsetup (List.append_nil _).symm id
  | @handle s s' msp next more hr hc hh ih =>
    have hrdy := hr.ready hb rfl
    have hfirst : (s.streams msp).first ≠ [] :=
      MsStream.left_ne_nil.mp ((hrdy.wf.mem msp).mp (by simp [FileState.merge, hc]))
    exact (handle_step hr hc hfirst hh).own hown hrdy.inv (fun id => ih id) id

theorem FilesOwn.drops {devs : List (List (List BlkIoTrace))} (hown : FilesOwn devs) :
    DropsOnlyClosed devs := by
  intro o hb s msp hcall hzero
  cases hcall with
  | @alloc fs gs f s hsplit hne hs =>
    refine msPrime_closed hb (by simp) ?_ hzero
    have hmem := hown _ (mem_readableFiles hb hsplit)
    rw [← hs] at hmem
    simpa [FileState.unread, MsStream.unread] using hmem
  | @deq s msp next t hr hc hfirst hp =>
    refine msPrime_closed hb (by simp) ?_ hzero
    have hmem := hr.own hb hown msp
    simpa [FileState.unread, MsStream.unread] using hmem

/-! ## Files with one -/

theorem eq_of_mem_readableFiles {devs : List (List (List BlkIoTrace))}
    {r r' : StreamId × List Fetched} (hr : r ∈ readableFiles none (inputFiles devs))
    (hr' : r' ∈ readableFiles none (inputFiles devs)) (h : r.1 = r'.1) : r = r' := by
  have hnd := inputFiles_nodup devs
  rw [← readableFiles_ids none] at hnd
  exact List.inj_on_of_nodup_map hnd hr hr' h

/-- A stream that still waits for a record of another CPU. -/
structure Waiting (s : FileState) (id : StreamId) : Prop where
  queued : (s.streams id).first ≠ []
  skip : .skipped ∈ s.unread id

section Waiting

variable {o : Opts} (hb : o.rbBatch = 1) {devs : List (List (List BlkIoTrace))}
  (hdrop : DropsOnlyClosed devs) {r : StreamId × List Fetched}
  (hr : r ∈ readableFiles none (inputFiles devs)) (hskip : .skipped ∈ r.2)

include hb hdrop hr hskip

/-- With batches of one such a stream goes on waiting, unless a call of `ms_prime` returned 0 with
the file open. -/
theorem StreamStep.waiting {s s' : FileState} (h : StreamStep o devs s s' r.1)
    (hs : (s.streams r.1).first ≠ [] → .skipped ∈ s.unread r.1) : Waiting s' r.1 := by
  cases h with
  | requeue hfirst hq hn hst =>
    have hmem := hs hfirst
    refine ⟨by simpa [hst] using hq, ?_⟩
    rwa [FileState.unread, hst, hn, Function.update_self]
  | @prime c hcall _ _ hfirst hunread hn' hs' =>
    have hc : .skipped ∈ c.unread r.1 := by
      rcases hunread with ⟨hne, heq⟩ | hmem
      · rw [heq]
        exact hs hne
      · rw [← eq_of_mem_readableFiles hmem hr rfl] at hskip
        exact hskip
    rcases msPrime_one hb hfirst hc with ⟨hq, hmem⟩ | ⟨hzero, hopen⟩
    · refine ⟨by rwa [hs'], ?_⟩
      rwa [FileState.unread, hs', hn']
    · exact absurd (hdrop o hb.ge c r.1 hcall hzero) hopen

theorem setup_waiting : Waiting ((inputFiles devs).foldl (setupFile o) {}) r.1 := by
  have hid : r.1 ∈ (inputFiles devs).map Prod.fst := by
    rw [← readableFiles_ids none]
    exact List.mem_map_of_mem hr
  -- before its file is set up the stream has no queue, from then on it waits
  refine (setup_induction (P := fun fs s => ((s.streams r.1).first ≠ [] → .skipped ∈ s.unread r.1) ∧
    (r.1 ∈ fs.map Prod.fst → Waiting s r.1)) ⟨by simp, by simp⟩ ?_ (List.append_nil _).symm).2 hid
  intro fs f gs hsplit ⟨ihq, ihw⟩
  by_cases hf : f.1 = r.1
  · have hne : f.2 ≠ [] := by
      intro hnil
      have heq := eq_of_mem_readableFiles (mem_readableFiles hb.ge hsplit) hr hf
      rw [← heq, hnil] at hskip
      simp [readable] at hskip
    have hstep := setupFile_step hb.ge hsplit hne
    rw [hf] at hstep
    have hw := hstep.waiting hb hdrop hr hskip ihq
    exact ⟨fun _ => hw.skip, fun _ => hw⟩
  · have hmem : r.1 ∈ (fs ++ [f]).map Prod.fst → r.1 ∈ fs.map Prod.fst := by
      simp [Ne.symm hf]
    by_cases hne : f.2 = []
    · rw [setupFile, if_pos hne]
      exact ⟨ihq, fun h => ihw (hmem h)⟩
    · obtain ⟨hfirst, hunread⟩ := (setupFile_step hb.ge hsplit hne).other
        (setup_inv hb.ge hsplit) (Ne.symm hf)
      refine ⟨by rwa [hfirst, hunread], fun h => ?_⟩
      obtain ⟨hq, hs⟩ := ihw (hmem h)
      exact ⟨by rwa [hfirst], by rwa [hunread]⟩

theorem FileReach.waiting {more : Bool} {s : FileState} (h : FileReach o devs more s)
    (hmore : more = true) : Waiting s r.1 := by
  induction h with
  | setup => cases hmore
  | start hs =>
    obtain ⟨hst, hn⟩ := fileStart_streams hs
    obtain ⟨hq, hmem⟩ := setup_waiting hb hdrop hr hskip
    exact ⟨by rwa [hst], by rwa [FileState.unread, hst, hn]⟩
  | @handle s s' msp next more hreach hc hh ih =>
    subst hmore
    have hrdy := hreach.ready hb.ge rfl
    have hfirst : (s.streams msp).first ≠ [] :=
      MsStream.left_ne_nil.mp ((hrdy.wf.mem msp).mp (by simp [FileState.merge, hc]))
    have hstep := handle_step hreach hc hfirst hh
    obtain ⟨hq, hmem⟩ := ih rfl
    by_cases hid : r.1 = msp
    · subst hid
      exact hstep.waiting hb hdrop hr hskip fun _ => hmem
    · obtain ⟨hfirst', hunread⟩ := hstep.other hrdy.inv hid
      exact ⟨by rwa [hfirst'], by rwa [hunread]⟩

end Waiting

/-- Without a stopwatch the loop empties the chain. -/
theorem exists_msHead_nil {b : Nat} (hb : 1 ≤ b) {devs : List (List (List BlkIoTrace))}
    {s : FileState} (h : FileReach { rbBatch := b } devs true s) :
    ∃ s', FileReach { rbBatch := b } devs true s' ∧ s'.msHead = [] := by
  induction hn : KMerge.size (s.merge b) using Nat.strong_induction_on generalizing s with
  | _ n ih =>
    subst hn
    cases hc : s.msHead with
    | nil => exact ⟨s, h, hc⟩
    | cons msp next =>
      have hrdy := h.ready hb rfl
      obtain ⟨t, m, hpop, -, -, hret, hnext⟩ := handle_merge hb hrdy.inv hrdy.wf hc
      obtain ⟨-, hm⟩ := hnext (past_default b _ t)
      rw [past_default] at hret
      have hreach : FileReach { rbBatch := b } devs true
          (handle { rbBatch := b } s msp next).1 := .handle h hc (Prod.ext rfl hret)
      refine ih _ ?_ hreach rfl
      rw [hm, KMerge.pop_size hrdy.wf hpop]
      exact Nat.lt_succ_self _

theorem dropsOnlyClosed_iff {devs : List (List (List BlkIoTrace))} (hd : [] ∉ devs) :
    DropsOnlyClosed devs ↔ FilesOwn devs := by
  refine ⟨fun hdrop r hr hskip => ?_, FilesOwn.drops⟩
  obtain ⟨s₀, hs₀⟩ : ∃ s₀, fileStart { rbBatch := 1 } devs = some s₀ := by
    rw [fileStart, setupDevices_eq, if_neg hd]
    exact ⟨_, rfl⟩
  obtain ⟨s, hreach, hnil⟩ := exists_msHead_nil (le_refl 1) (.start hs₀)
  have hq := (hreach.waiting rfl hdrop hr hskip rfl).queued
  have hmem := ((hreach.ready (le_refl 1) rfl).wf.mem r.1).mpr (MsStream.left_ne_nil.mpr hq)
  rw [show (s.merge 1).chain = [] from hnil] at hmem
  simp at hmem

/-- **The batch size is harmless exactly when no file has a record of another CPU** in front of
one to deliver (for the records handed over), or at all (for the streams dropped). -/
theorem doFile_batch {devs : List (List (List BlkIoTrace))} (hd : [] ∉ devs) :
    (BatchFree devs ∧ DropsOnlyClosed devs ↔ FilesOwn devs) ∧
      (BatchFree devs ↔ FilesSettled devs) := by
  refine ⟨?_, batchFree_iff hd⟩
  rw [batchFree_iff hd, dropsOnlyClosed_iff hd]
  exact ⟨And.right, fun h => ⟨h.settled, h⟩⟩

theorem doFile_batch_own_file :
    (BatchFree [[[queueRecord 0 0 1 5, queueRecord 0 1 1 6]]] ∧
        DropsOnlyClosed [[[queueRecord 0 0 1 5, queueRecord 0 1 1 6]]] ↔
      FilesOwn [[[queueRecord 0 0 1 5, queueRecord 0 1 1 6]]]) ∧
      (BatchFree [[[queueRecord 0 0 1 5, queueRecord 0 1 1 6]]] ↔
        FilesSettled [[[queueRecord 0 0 1 5, queueRecord 0 1 1 6]]]) :=
  doFile_batch (by decide)

/-- A record of CPU 1 in the file of CPU 0, then one of CPU 0: batches of one lose the second. -/
theorem not_batchFree_foreign_first :
    (doFile { rbBatch := 1 } [[[queueRecord 0 1 1 5, queueRecord 0 0 1 6]]]).map FileState.handled
        = some [] ∧
      (doFile { rbBatch := 2 } [[[queueRecord 0 1 1 5, queueRecord 0 0 1 6]]]).map FileState.handled
        = some [((0, 0), queueRecord 0 0 1 6)] ∧
      ¬ BatchFree [[[queueRecord 0 1 1 5, queueRecord 0 0 1 6]]] := by
  have h₁ : (doFile { rbBatch := 1 } [[[queueRecord 0 1 1 5, queueRecord 0 0 1 6]]]).map
      FileState.handled = some [] := by decide
  have h₂ : (doFile { rbBatch := 2 } [[[queueRecord 0 1 1 5, queueRecord 0 0 1 6]]]).map
      FileState.handled = some [((0, 0), queueRecord 0 0 1 6)] := by decide
  refine ⟨h₁, h₂, fun h => ?_⟩
  have heq := h₁.symm.trans ((h {} 1 2 (by decide) (by decide)).trans h₂)
  simp at heq

end Blktrace.Blkparse
