import Blktrace.Lib.KMerge
import Blktrace.Blkparse.FileInput

/-!
# File mode is a k-way merge

`ms_prime` reads a file in batches and drops a stream when a batch queued nothing. Seen from the
chain, a stream is simply the list of the records it will still give, `FileState.left`: its queue,
then what the batches to come will queue (`delivered`). In that view `handle` is `KMerge.pop`
(`handle_merge`) and the loop of `do_file` is `KMerge.run` (`fileLoop_handled`), for every input
and every batch size; the batch size is left in `delivered` and nowhere else.

A stream dropped for a batch without records leaves whatever its file still holds unread.
`Settled` is what a file needs so that nothing is lost that way.
-/

namespace Blktrace.Blkparse

/-! ## What a file still has to deliver -/

/-- The records of a file up to the first that cannot be read, as the loop of `ms_prime` sorts
them. -/
def readable (cpu : Nat) : Option Bool → List BlkIoTrace → List Fetched
  | _, [] => []
  | native, raw :: rest =>
    match lookNative native raw.magic with
    | none => []
    | some b =>
      match msFetch cpu b raw with
      | .err => []
      | f => f :: readable cpu (some b) rest

/-- One batch, with `i` of its slots gone: what it queues, and what it leaves. -/
def takeBatch (rbBatch : Nat) : List Fetched → Nat → List BlkIoTrace × List Fetched
  | [], _ => ([], [])
  | f :: fs, i =>
    if i < rbBatch then
      match f with
      | .skipped => takeBatch rbBatch fs (i + 1)
      | .queued bit => (bit :: (takeBatch rbBatch fs (i + 1)).1, (takeBatch rbBatch fs (i + 1)).2)
      | .notify _ | .err => takeBatch rbBatch fs i
    else ([], f :: fs)

theorem takeBatch_of_not_lt {rbBatch i : Nat} (hi : ¬ i < rbBatch) (fs : List Fetched) :
    takeBatch rbBatch fs i = ([], fs) := by
  cases fs with
  | nil => rfl
  | cons f fs => cases f <;> rw [takeBatch, if_neg hi]

theorem takeBatch_length (rbBatch : Nat) (fs : List Fetched) (i : Nat) :
    (takeBatch rbBatch fs i).1.length + (takeBatch rbBatch fs i).2.length ≤ fs.length := by
  induction fs generalizing i with
  | nil => exact Nat.le_refl _
  | cons f fs ih =>
    have h₀ := ih i
    have h₁ := ih (i + 1)
    cases f with
    | skipped | queued | notify | err =>
      rw [takeBatch]
      split <;> simp only [List.length_cons, List.length_nil] <;> omega

/-- All that the batches queue, up to the first that queues nothing. -/
def delivered (rbBatch : Nat) (fs : List Fetched) : List BlkIoTrace :=
  if _h : (takeBatch rbBatch fs 0).1 = [] then []
  else (takeBatch rbBatch fs 0).1 ++ delivered rbBatch (takeBatch rbBatch fs 0).2
termination_by fs.length
decreasing_by
  have hlen := takeBatch_length rbBatch fs 0
  have hpos := List.length_pos_of_ne_nil _h
  omega

/-- What is unread of a stream. -/
def MsStream.unread (st : MsStream) (native : Option Bool) (cpu : Nat) : List Fetched :=
  match st.fd with
  | none => []
  | some file => readable cpu native file

/-- What a stream will still give; one without a queue is out of the chain for good. -/
def MsStream.left (rbBatch : Nat) (st : MsStream) (native : Option Bool) (cpu : Nat) :
    List BlkIoTrace :=
  if st.first = [] then [] else st.first ++ delivered rbBatch (st.unread native cpu)

def FileState.left (rbBatch : Nat) (s : FileState) (id : StreamId) : List BlkIoTrace :=
  (s.streams id).left rbBatch s.native id.2

/-- The merge a state of file mode stands for. -/
def FileState.merge (rbBatch : Nat) (s : FileState) : KMerge.State StreamId BlkIoTrace :=
  ⟨s.left rbBatch, s.msHead⟩

theorem MsStream.left_ne_nil {rbBatch : Nat} {st : MsStream} {native : Option Bool} {cpu : Nat} :
    st.left rbBatch native cpu ≠ [] ↔ st.first ≠ [] := by
  unfold MsStream.left
  cases st.first <;> simp

theorem delivered_nil (rbBatch : Nat) : delivered rbBatch [] = [] := by
  simp [delivered, takeBatch]

/-! ## `ms_prime` -/

/-- A byte order once known stays. -/
theorem msPrimeLoop_native_some (rbBatch cpu : Nat) (file : List BlkIoTrace) (b : Bool) (i : Nat) :
    (msPrimeLoop rbBatch cpu file (some b) i).native = some b := by
  induction file generalizing i with
  | nil => rfl
  | cons raw rest ih =>
    rw [msPrimeLoop]
    split
    case isFalse => rfl
    case isTrue =>
      simp only [lookNative]
      cases msFetch cpu b raw <;> simp [ih]

/-- The byte order once a file has been primed for the first time. -/
def nativeAfter (native : Option Bool) (file : List BlkIoTrace) : Option Bool :=
  match file with
  | [] => native
  | raw :: _ => lookNative native raw.magic

theorem msPrimeLoop_native {rbBatch cpu : Nat} {file : List BlkIoTrace} {native : Option Bool}
    {i : Nat} (hi : i < rbBatch) :
    (msPrimeLoop rbBatch cpu file native i).native = nativeAfter native file := by
  cases file with
  | nil => rfl
  | cons raw rest =>
    rw [msPrimeLoop, if_pos hi, nativeAfter]
    cases lookNative native raw.magic with
    | none => rfl
    | some b =>
      dsimp only
      cases msFetch cpu b raw <;> simp [msPrimeLoop_native_some]

/-- A file that is still open has settled the byte order. -/
theorem msPrimeLoop_native_ne_none {rbBatch cpu : Nat} {file : List BlkIoTrace}
    {native : Option Bool} {i : Nat} (hi : i < rbBatch)
    (h : (msPrimeLoop rbBatch cpu file native i).fd ≠ none) :
    (msPrimeLoop rbBatch cpu file native i).native ≠ none := by
  rw [msPrimeLoop_native hi]
  cases file with
  | nil => simp [msPrimeLoop, hi] at h
  | cons raw rest =>
    rw [msPrimeLoop, if_pos hi] at h
    rw [nativeAfter]
    cases hl : lookNative native raw.magic with
    | none => rw [hl] at h; simp at h
    | some b => simp

/-- **The loop of `ms_prime` takes one batch** of what can be read. -/
theorem msPrimeLoop_takeBatch (rbBatch cpu : Nat) (file : List BlkIoTrace) (native : Option Bool)
    (i : Nat) :
    takeBatch rbBatch (readable cpu native file) i =
      ((msPrimeLoop rbBatch cpu file native i).queue,
        MsStream.unread ⟨[], (msPrimeLoop rbBatch cpu file native i).fd⟩
          (msPrimeLoop rbBatch cpu file native i).native cpu) := by
  induction file generalizing native i with
  | nil => by_cases hi : i < rbBatch <;> simp [msPrimeLoop, hi, MsStream.unread, readable, takeBatch]
  | cons raw rest ih =>
    by_cases hi : i < rbBatch
    case neg =>
      rw [msPrimeLoop, if_neg hi, MsStream.unread, takeBatch_of_not_lt hi]
    case pos =>
      rw [msPrimeLoop, if_pos hi, readable]
      cases lookNative native raw.magic with
      | none => rfl
      | some b =>
        dsimp only
        cases msFetch cpu b raw with
        | err => rfl
        | skipped | notify => simp only [takeBatch, if_pos hi, ih]
        | queued bit => simp only [takeBatch, if_pos hi, ih]

/-! ## The invariant -/

/-- For every stream but those in `except`: an open file means the byte order is known. Only then
does a stream's view not depend on who is primed next. -/
def FileInvBut (except : StreamId → Prop) (s : FileState) : Prop :=
  ∀ id, ¬ except id → (s.streams id).fd ≠ none → s.native ≠ none

/-- `FileInvBut` of no stream: what holds between the steps. -/
abbrev FileInv (s : FileState) : Prop := FileInvBut (fun _ => False) s

theorem FileInv.init : FileInv {} := fun _ _ h => absurd rfl h

theorem msPrime_streams_of_ne (o : Opts) (s : FileState) {msp id : StreamId} (h : id ≠ msp) :
    (msPrime o s msp).1.streams id = s.streams id := by
  unfold msPrime
  split
  · rfl
  · simp [Function.update_of_ne h]

/-- `ms_prime` touches the streams, the byte order and the log. -/
theorem msPrime_frame (o : Opts) (s : FileState) (msp : StreamId) :
    (msPrime o s msp).1.msHead = s.msHead ∧ (msPrime o s msp).1.genesisTime = s.genesisTime ∧
      (msPrime o s msp).1.handled = s.handled := by
  unfold msPrime
  split <;> exact ⟨rfl, rfl, rfl⟩

/-- `ms_prime` of an empty queue, in terms of its loop. -/
theorem msPrime_of_some {o : Opts} {s : FileState} {msp : StreamId} {file : List BlkIoTrace}
    (hfd : (s.streams msp).fd = some file) (hfirst : (s.streams msp).first = []) :
    (msPrime o s msp).1.native = (msPrimeLoop o.rbBatch msp.2 file s.native 0).native ∧
      (msPrime o s msp).1.streams msp = ⟨(msPrimeLoop o.rbBatch msp.2 file s.native 0).queue,
        (msPrimeLoop o.rbBatch msp.2 file s.native 0).fd⟩ ∧
      (msPrime o s msp).2 = (msPrimeLoop o.rbBatch msp.2 file s.native 0).queue.length := by
  simp [msPrime, hfd, hfirst]

theorem msPrime_of_none {o : Opts} {s : FileState} {msp : StreamId}
    (hfd : (s.streams msp).fd = none) : msPrime o s msp = (s, 0) := by
  simp [msPrime, hfd]

/-- Priming one stream leaves the others as they look. -/
theorem msPrime_unread_of_ne {o : Opts} {s : FileState} {msp : StreamId}
    (hinv : FileInvBut (· = msp) s) {id : StreamId} (hid : id ≠ msp) :
    ((msPrime o s msp).1.streams id).unread (msPrime o s msp).1.native id.2
      = (s.streams id).unread s.native id.2 := by
  rw [msPrime_streams_of_ne o s hid]
  cases hf : (s.streams id).fd with
  | none => simp [MsStream.unread, hf]
  | some f =>
    obtain ⟨b, hs⟩ := Option.ne_none_iff_exists'.mp (hinv id hid (by rw [hf]; simp))
    have hnat : (msPrime o s msp).1.native = some b := by
      unfold msPrime
      split
      · exact hs
      · rw [hs]
        exact msPrimeLoop_native_some ..
    rw [hnat, hs]

/-- **`ms_prime` of an empty queue** takes a batch of what is unread: the queue is what the batch
gives, and the rest stays unread. -/
theorem msPrime_batch {o : Opts} {s : FileState} {msp : StreamId}
    (hfirst : (s.streams msp).first = []) :
    takeBatch o.rbBatch ((s.streams msp).unread s.native msp.2) 0 =
        (((msPrime o s msp).1.streams msp).first,
          ((msPrime o s msp).1.streams msp).unread (msPrime o s msp).1.native msp.2) ∧
      ((msPrime o s msp).2 = 0 ↔ ((msPrime o s msp).1.streams msp).first = []) := by
  cases hfd : (s.streams msp).fd with
  | none =>
    rw [msPrime_of_none hfd]
    simp [MsStream.unread, hfd, takeBatch, hfirst]
  | some file =>
    obtain ⟨hnative, hself, hlen⟩ := msPrime_of_some (o := o) hfd hfirst
    rw [hnative, hself, hlen, MsStream.unread, hfd]
    dsimp only
    rw [msPrimeLoop_takeBatch]
    exact ⟨rfl, List.length_eq_zero_iff⟩

theorem msPrime_inv {o : Opts} (hb : 1 ≤ o.rbBatch) {s : FileState} {msp : StreamId}
    (hinv : FileInvBut (· = msp) s) (hfirst : (s.streams msp).first = []) :
    FileInv (msPrime o s msp).1 := by
  cases hfd : (s.streams msp).fd with
  | none =>
    rw [msPrime_of_none hfd]
    intro id _ h
    apply hinv id _ h
    rintro rfl
    exact h hfd
  | some file =>
    obtain ⟨hnative, hself, -⟩ := msPrime_of_some (o := o) hfd hfirst
    intro id _ h
    rw [hnative]
    by_cases hid : id = msp
    · subst hid
      rw [hself] at h
      exact msPrimeLoop_native_ne_none hb h
    · rw [msPrime_streams_of_ne o s hid] at h
      obtain ⟨b, hs⟩ := Option.ne_none_iff_exists'.mp (hinv id hid h)
      rw [hs, msPrimeLoop_native_some]
      simp

/-- **Priming fills in what the stream will give**, and returns 0 exactly when that is nothing. -/
theorem msPrime_left {o : Opts} {s : FileState} {msp : StreamId} (hinv : FileInvBut (· = msp) s)
    (hfirst : (s.streams msp).first = []) :
    (msPrime o s msp).1.left o.rbBatch = Function.update (s.left o.rbBatch) msp
        (delivered o.rbBatch ((s.streams msp).unread s.native msp.2)) ∧
      ((msPrime o s msp).2 = 0 ↔
        delivered o.rbBatch ((s.streams msp).unread s.native msp.2) = []) := by
  obtain ⟨hbatch, hzero⟩ := msPrime_batch (o := o) hfirst
  have hthis : (msPrime o s msp).1.left o.rbBatch msp
      = delivered o.rbBatch ((s.streams msp).unread s.native msp.2) := by
    rw [delivered, hbatch, FileState.left, MsStream.left]
    rfl
  refine ⟨?_, ?_⟩
  · funext id
    by_cases hid : id = msp
    · subst hid
      rw [Function.update_self, hthis]
    · rw [Function.update_of_ne hid, FileState.left, FileState.left, MsStream.left, MsStream.left,
        msPrime_unread_of_ne hinv hid, msPrime_streams_of_ne o s hid]
  · rw [hzero, ← hthis, FileState.left, ← not_iff_not]
    exact MsStream.left_ne_nil.symm

/-! ## The chain -/

theorem msSortWhile_eq (streams : StreamId → MsStream) (msp : StreamId) (js : List StreamId) :
    msSortWhile streams msp js = KMerge.insertTail (msPeekTime streams) msp js := by
  induction js with
  | nil => rfl
  | cons j js ih => rw [msSortWhile, KMerge.insertTail, ih]

theorem msSort_eq (streams : StreamId → MsStream) (js : List StreamId) (msp : StreamId) :
    msSort streams js msp = KMerge.insert (msPeekTime streams) msp js := by
  cases js with
  | nil => rfl
  | cons j js => rw [msSort, KMerge.insert, msSortWhile_eq]

theorem msResort_eq (streams : StreamId → MsStream) (msp : StreamId) (js : List StreamId) :
    msResort streams msp js = KMerge.resort (msPeekTime streams) msp js := by
  cases js with
  | nil => rfl
  | cons j js => rw [msResort, KMerge.resort, msSort_eq]

/-- The key of the merge is the time at the front of the queue. -/
theorem msPeekTime_eq (rbBatch : Nat) (s : FileState) :
    msPeekTime s.streams = KMerge.front BlkIoTrace.time 0 (s.left rbBatch) := by
  funext id
  unfold msPeekTime KMerge.front FileState.left MsStream.left
  cases (s.streams id).first <;> simp

/-! ## The steps -/

/-- Only the chain changes: what every stream will give is as before. -/
theorem merge_msHead (rbBatch : Nat) (s : FileState) (js : List StreamId) :
    FileState.merge rbBatch { s with msHead := js } = ⟨s.left rbBatch, js⟩ := rfl

theorem msAlloc_merge {o : Opts} (hb : 1 ≤ o.rbBatch) {s : FileState} (hinv : FileInv s)
    {msp : StreamId} (hfresh : (s.streams msp).first = []) (file : List BlkIoTrace) :
    FileInv (msAlloc o s msp file) ∧
      (msAlloc o s msp file).merge o.rbBatch = KMerge.add BlkIoTrace.time 0 (s.merge o.rbBatch) msp
        (delivered o.rbBatch (readable msp.2 s.native file)) := by
  -- `s₁` is the state in which the new stream is primed
  generalize hs₁ : ({ s with streams := Function.update s.streams msp ⟨[], some file⟩ } : FileState)
    = s₁
  have hself : s₁.streams msp = ⟨[], some file⟩ := by rw [← hs₁]; simp
  have hother : ∀ id, id ≠ msp → s₁.streams id = s.streams id := by
    intro id hid
    rw [← hs₁]
    simp [Function.update_of_ne hid]
  have hnat : s₁.native = s.native := by rw [← hs₁]
  have hhead : s₁.msHead = s.msHead := by rw [← hs₁]
  have hinv₁ : FileInvBut (· = msp) s₁ := by
    intro id hid h
    rw [hother id hid] at h
    rw [hnat]
    exact hinv id not_false h
  have hleft : s₁.left o.rbBatch = s.left o.rbBatch := by
    funext id
    rw [FileState.left, FileState.left, hnat]
    by_cases hid : id = msp
    · subst hid
      rw [hself, MsStream.left, MsStream.left, if_pos rfl, if_pos hfresh]
    · rw [hother id hid]
  have hunread : (s₁.streams msp).unread s₁.native msp.2 = readable msp.2 s.native file := by
    rw [hself, hnat]
    rfl
  have hfirst : (s₁.streams msp).first = [] := by rw [hself]
  have halloc : msAlloc o s msp file = if (msPrime o s₁ msp).2 = 0 then (msPrime o s₁ msp).1
      else { (msPrime o s₁ msp).1 with
        msHead := msSort (msPrime o s₁ msp).1.streams (msPrime o s₁ msp).1.msHead msp } := by
    rw [← hs₁]; rfl
  have hinv₂ := msPrime_inv hb hinv₁ hfirst
  obtain ⟨hleft₂, hzero⟩ := msPrime_left (o := o) hinv₁ hfirst
  obtain ⟨hhead₂, -, -⟩ := msPrime_frame o s₁ msp
  rw [hunread] at hleft₂ hzero
  rw [hleft] at hleft₂
  rw [halloc]
  generalize msPrime o s₁ msp = r at *
  obtain ⟨s₂, ndone⟩ := r
  dsimp only at *
  rw [KMerge.add]
  by_cases hn : ndone = 0
  · rw [if_pos hn, if_pos (hzero.mp hn), FileState.merge, hleft₂, hhead₂, hhead]
    exact ⟨hinv₂, rfl⟩
  · rw [if_neg hn, if_neg fun h => hn (hzero.mpr h), merge_msHead, msSort_eq,
      msPeekTime_eq o.rbBatch, hleft₂, hhead₂, hhead]
    exact ⟨hinv₂, rfl⟩

theorem msDeq_merge {o : Opts} (hb : 1 ≤ o.rbBatch) {s : FileState} (hinv : FileInv s)
    {msp : StreamId} {t bit : BlkIoTrace} {queue : List BlkIoTrace} {next : List StreamId}
    (s₀ : FileState) (hfirst : (s.streams msp).first = t :: queue)
    (hstreams : s₀.streams = Function.update s.streams msp ⟨bit :: queue, (s.streams msp).fd⟩)
    (hnative : s₀.native = s.native) :
    FileInv (msDeq o s₀ msp next) ∧
      (msDeq o s₀ msp next).merge o.rbBatch =
        ⟨Function.update (s.left o.rbBatch) msp (s.left o.rbBatch msp).tail,
          if (s.left o.rbBatch msp).tail = [] then next
          else KMerge.resort (KMerge.front BlkIoTrace.time 0
            (Function.update (s.left o.rbBatch) msp (s.left o.rbBatch msp).tail)) msp next⟩ ∧
      (msDeq o s₀ msp next).genesisTime = s₀.genesisTime ∧
      (msDeq o s₀ msp next).handled = s₀.handled := by
  have htail : (s.left o.rbBatch msp).tail
      = queue ++ delivered o.rbBatch ((s.streams msp).unread s.native msp.2) := by
    simp [FileState.left, MsStream.left, hfirst]
  -- `s₁` has the record dequeued, and nothing primed yet
  generalize hs₁ : ({ s₀ with
    streams := Function.update s₀.streams msp ⟨queue, (s₀.streams msp).fd⟩ } : FileState) = s₁
  have hnat₁ : s₁.native = s.native := by rw [← hs₁]; exact hnative
  have hself : s₁.streams msp = ⟨queue, (s.streams msp).fd⟩ := by
    rw [← hs₁]; simp [hstreams]
  have hother : ∀ id, id ≠ msp → s₁.streams id = s.streams id := by
    intro id hid
    rw [← hs₁]
    simp [hstreams, Function.update_of_ne hid]
  have hinv₁ : FileInv s₁ := by
    intro id hid h
    rw [hnat₁]
    by_cases hid : id = msp
    · subst hid
      rw [hself] at h
      exact hinv id not_false h
    · rw [hother id hid] at h
      exact hinv id not_false h
  have hleft₁ : ∀ as, s₁.left o.rbBatch msp = as → s₁.left o.rbBatch
      = Function.update (s.left o.rbBatch) msp as := by
    rintro as rfl
    funext id
    by_cases hid : id = msp
    · subst hid
      rw [Function.update_self]
    · rw [Function.update_of_ne hid, FileState.left, FileState.left, hother id hid, hnat₁]
  have hunread₁ : (s₁.streams msp).unread s₁.native msp.2
      = (s.streams msp).unread s.native msp.2 := by
    rw [hself, hnat₁]
    rfl
  have hdeq : msDeq o s₀ msp next
      = if queue = [] then
          if (msPrime o s₁ msp).2 = 0 then { (msPrime o s₁ msp).1 with msHead := next }
          else { (msPrime o s₁ msp).1 with msHead := msResort (msPrime o s₁ msp).1.streams msp next }
        else { s₁ with msHead := msResort s₁.streams msp next } := by
    rw [← hs₁]
    simp [msDeq, hstreams]
  have hgen : s₁.genesisTime = s₀.genesisTime ∧ s₁.handled = s₀.handled := by
    rw [← hs₁]; exact ⟨rfl, rfl⟩
  rw [hdeq, htail]
  by_cases hq : queue = []
  · rw [if_pos hq, hq, List.nil_append]
    have hfirst₁ : (s₁.streams msp).first = [] := by rw [hself]; exact hq
    have hbut : FileInvBut (· = msp) s₁ := fun id _ h => hinv₁ id not_false h
    have hinv₂ := msPrime_inv hb hbut hfirst₁
    obtain ⟨hleft₂, hzero⟩ := msPrime_left (o := o) hbut hfirst₁
    obtain ⟨-, hg₂, hh₂⟩ := msPrime_frame o s₁ msp
    rw [hunread₁] at hleft₂ hzero
    rw [hleft₁ [] (by rw [FileState.left, MsStream.left, if_pos hfirst₁]),
      Function.update_idem] at hleft₂
    generalize msPrime o s₁ msp = p at *
    obtain ⟨s₂, ndone⟩ := p
    dsimp only at *
    by_cases hn : ndone = 0
    · rw [if_pos hn, merge_msHead, hleft₂, if_pos (hzero.mp hn)]
      exact ⟨hinv₂, rfl, hg₂.trans hgen.1, hh₂.trans hgen.2⟩
    · rw [if_neg hn, merge_msHead, msResort_eq, msPeekTime_eq o.rbBatch, hleft₂,
        if_neg fun h => hn (hzero.mpr h)]
      exact ⟨hinv₂, rfl, hg₂.trans hgen.1, hh₂.trans hgen.2⟩
  · rw [if_neg hq, merge_msHead, msResort_eq, msPeekTime_eq o.rbBatch, if_neg (by simp [hq]),
      hleft₁ (queue ++ delivered o.rbBatch ((s.streams msp).unread s.native msp.2))
        (by rw [FileState.left, MsStream.left, hunread₁, hself, if_neg hq])]
    exact ⟨hinv₁, rfl, hgen⟩

/-- The record ends the run: its relative time is past the stopwatch. -/
def Opts.past (o : Opts) (genesis : UInt64) (t : BlkIoTrace) : Bool :=
  o.stopwatchEnd < t.time - genesis

/-- A record that is not past the stopwatch is counted, logged and dequeued. -/
theorem handle_of_not_past {o : Opts} {s : FileState} {msp : StreamId} {next : List StreamId}
    {t : BlkIoTrace} {queue : List BlkIoTrace} (hfirst : (s.streams msp).first = t :: queue)
    (hp : o.past s.genesisTime t = false) :
    ∃ s₀ : FileState, handle o s msp next = (msDeq o s₀ msp next, true) ∧ s₀.native = s.native ∧
      s₀.streams = Function.update s.streams msp
        ⟨{ t with time := t.time - s.genesisTime } :: queue, (s.streams msp).fd⟩ ∧
      s₀.genesisTime = s.genesisTime ∧ s₀.handled = s.handled ++ [(msp, t)] := by
  have hge : ¬ o.stopwatchEnd < t.time - s.genesisTime := by simpa [Opts.past] using hp
  simp only [handle, hfirst, if_neg hge]
  exact ⟨_, rfl, rfl, rfl, rfl, rfl⟩

/-- **`handle` is one step of the merge**: it is given the merge's next record, and unless that
one is past the stopwatch it leaves the merge's next state. -/
theorem handle_merge {o : Opts} (hb : 1 ≤ o.rbBatch) {s : FileState} (hinv : FileInv s)
    (hw : KMerge.WF BlkIoTrace.time 0 (s.merge o.rbBatch)) {msp : StreamId} {next : List StreamId}
    (hc : s.msHead = msp :: next) :
    ∃ t m, KMerge.pop BlkIoTrace.time 0 (s.merge o.rbBatch) = some ((msp, t), m) ∧
      (handle o s msp next).1.handled = s.handled ++ [(msp, t)] ∧
      (handle o s msp next).1.genesisTime = s.genesisTime ∧
      (handle o s msp next).2 = !o.past s.genesisTime t ∧
      (o.past s.genesisTime t = false →
        FileInv (handle o s msp next).1 ∧ (handle o s msp next).1.merge o.rbBatch = m) := by
  have hne : s.left o.rbBatch msp ≠ [] := (hw.mem msp).mp (by simp [FileState.merge, hc])
  obtain ⟨t, queue, hfirst⟩ := List.exists_cons_of_ne_nil (MsStream.left_ne_nil.mp hne)
  have hlt : s.left o.rbBatch msp = t :: (s.left o.rbBatch msp).tail := by
    simp [FileState.left, MsStream.left, hfirst]
  refine ⟨t, ⟨Function.update (s.left o.rbBatch) msp (s.left o.rbBatch msp).tail,
    if (s.left o.rbBatch msp).tail = [] then next else KMerge.resort (KMerge.front BlkIoTrace.time 0
      (Function.update (s.left o.rbBatch) msp (s.left o.rbBatch msp).tail)) msp next⟩, ?_, ?_⟩
  · rw [KMerge.pop, show (s.merge o.rbBatch).chain = msp :: next from hc]
    simp only
    rw [show (s.merge o.rbBatch).rem msp = t :: (s.left o.rbBatch msp).tail from hlt]
    rfl
  · by_cases hp : o.past s.genesisTime t = true
    · have hlt : o.stopwatchEnd < t.time - s.genesisTime := by simpa [Opts.past] using hp
      simp [handle, hfirst, hlt, hp]
    · obtain ⟨s₀, hhandle, hnat, hstr, hgen, hhandled⟩ :=
        @handle_of_not_past o s msp next t queue hfirst (eq_false_of_ne_true hp)
      obtain ⟨h1, h2, h3, h4⟩ := @msDeq_merge o hb s hinv msp t _ queue next s₀ hfirst hstr hnat
      rw [hhandle, eq_false_of_ne_true hp]
      exact ⟨h4.trans hhandled, h3.trans hgen, rfl, fun _ => ⟨h1, h2⟩⟩

/-- **The loop of `do_file` is a run of the merge.** -/
theorem fileLoop_handled {o : Opts} (hb : 1 ≤ o.rbBatch) (fuel : Nat) {s : FileState}
    (hinv : FileInv s) (hw : KMerge.WF BlkIoTrace.time 0 (s.merge o.rbBatch)) :
    (fileLoop o fuel s).handled = s.handled ++
      KMerge.run BlkIoTrace.time 0 (o.past s.genesisTime) fuel (s.merge o.rbBatch) := by
  induction fuel generalizing s with
  | zero => simp [fileLoop, KMerge.run]
  | succ fuel ih =>
    rw [fileLoop, KMerge.run]
    cases hc : s.msHead with
    | nil =>
      have hpop : KMerge.pop BlkIoTrace.time 0 (s.merge o.rbBatch) = none := by
        simp [KMerge.pop, FileState.merge, hc]
      simp [hpop]
    | cons msp next =>
      obtain ⟨t, m, hpop, hhandled, hgen, hret, hnext⟩ := handle_merge hb hinv hw hc
      rw [hpop]
      dsimp only
      generalize handle o s msp next = r at *
      obtain ⟨s', ret⟩ := r
      dsimp only at *
      cases hp : o.past s.genesisTime t with
      | true =>
        rw [hp] at hret
        subst hret
        simpa using hhandled
      | false =>
        obtain ⟨hinv', hm⟩ := hnext hp
        rw [hp] at hret
        subst hret
        have hw' : KMerge.WF BlkIoTrace.time 0 (s'.merge o.rbBatch) := hm ▸ hw.pop hpop
        simp only [Bool.not_false, if_false, Bool.false_eq_true]
        rw [ih hinv' hw', hhandled, hgen, hm, List.append_assoc]
        rfl

/-! ## Setting up -/

/-- The files of one device, from CPU number `cpu` on. -/
def filesOf (pdi : Nat) : Nat → List (List BlkIoTrace) → List (StreamId × List BlkIoTrace)
  | _, [] => []
  | cpu, file :: files => ((pdi, cpu), file) :: filesOf pdi (cpu + 1) files

/-- All input files in the order `do_file` opens them, the devices from slot `pdi` on. -/
def filesFrom : Nat → List (List (List BlkIoTrace)) → List (StreamId × List BlkIoTrace)
  | _, [] => []
  | pdi, files :: devs => filesOf pdi 0 files ++ filesFrom (pdi + 1) devs

def inputFiles (devs : List (List (List BlkIoTrace))) : List (StreamId × List BlkIoTrace) :=
  filesFrom 0 devs

/-- `setup_file` of one file. -/
def setupFile (o : Opts) (s : FileState) (f : StreamId × List BlkIoTrace) : FileState :=
  if f.2 = [] then s else msAlloc o s f.1 f.2

theorem setupFiles_eq (o : Opts) (pdi cpu : Nat) (files : List (List BlkIoTrace)) (s : FileState) :
    setupFiles o pdi cpu files s = (filesOf pdi cpu files).foldl (setupFile o) s := by
  induction files generalizing cpu s with
  | nil => rfl
  | cons file files ih =>
    rw [setupFiles, ih]
    rfl

theorem setupDevices_eq (o : Opts) (pdi : Nat) (devs : List (List (List BlkIoTrace)))
    (s : FileState) : setupDevices o pdi devs s =
      if [] ∈ devs then none else some ((filesFrom pdi devs).foldl (setupFile o) s) := by
  induction devs generalizing pdi s with
  | nil => simp [setupDevices, filesFrom]
  | cons files devs ih =>
    rw [setupDevices]
    by_cases hf : files = []
    · simp [hf]
    · rw [if_neg hf, ih, filesFrom, List.foldl_append, setupFiles_eq]
      simp [Ne.symm hf]

theorem filesOf_ids (pdi cpu : Nat) (files : List (List BlkIoTrace)) :
    ((filesOf pdi cpu files).map Prod.fst).Nodup ∧
      ∀ f ∈ filesOf pdi cpu files, f.1.1 = pdi ∧ cpu ≤ f.1.2 := by
  induction files generalizing cpu with
  | nil => simp [filesOf]
  | cons file files ih =>
    obtain ⟨hnd, hall⟩ := ih (cpu + 1)
    refine ⟨?_, ?_⟩
    · refine List.nodup_cons.mpr ⟨fun h => ?_, hnd⟩
      obtain ⟨f, hf, heq⟩ := List.mem_map.mp h
      have hle := (hall f hf).2
      rw [heq] at hle
      simp at hle
    · intro f hf
      rcases List.mem_cons.mp hf with rfl | hf
      · exact ⟨rfl, le_refl _⟩
      · exact ⟨(hall f hf).1, Nat.le_of_succ_le (hall f hf).2⟩

theorem filesFrom_ids (pdi : Nat) (devs : List (List (List BlkIoTrace))) :
    ((filesFrom pdi devs).map Prod.fst).Nodup ∧ ∀ f ∈ filesFrom pdi devs, pdi ≤ f.1.1 := by
  induction devs generalizing pdi with
  | nil => simp [filesFrom]
  | cons files devs ih =>
    obtain ⟨hnd, hall⟩ := ih (pdi + 1)
    obtain ⟨hnd₀, hall₀⟩ := filesOf_ids pdi 0 files
    refine ⟨?_, ?_⟩
    · rw [filesFrom, List.map_append]
      refine List.Nodup.append hnd₀ hnd ?_
      intro id h1 h2
      obtain ⟨f, hf, rfl⟩ := List.mem_map.mp h1
      obtain ⟨g, hg, heq⟩ := List.mem_map.mp h2
      have hle := hall g hg
      rw [heq, (hall₀ f hf).1] at hle
      omega
    · intro f hf
      rcases List.mem_append.mp hf with hf | hf
      · exact (hall₀ f hf).1.ge
      · exact Nat.le_of_succ_le (hall f hf)

/-- No two files share a stream. -/
theorem inputFiles_nodup (devs : List (List (List BlkIoTrace))) :
    ((inputFiles devs).map Prod.fst).Nodup := (filesFrom_ids 0 devs).1

/-- The files as they will be read, each in the byte order known when it is opened. -/
def readableFiles : Option Bool → List (StreamId × List BlkIoTrace) → List (StreamId × List Fetched)
  | _, [] => []
  | native, f :: fs =>
    (f.1, readable f.1.2 native f.2) :: readableFiles (nativeAfter native f.2) fs

theorem readableFiles_ids (native : Option Bool) (fs : List (StreamId × List BlkIoTrace)) :
    (readableFiles native fs).map Prod.fst = fs.map Prod.fst := by
  induction fs generalizing native with
  | nil => rfl
  | cons f fs ih => rw [readableFiles, List.map_cons, List.map_cons, ih]

/-- The merge of streams that give what the batches find in `rs`, added in that order to `m`. -/
def mergeOf (rbBatch : Nat) (m : KMerge.State StreamId BlkIoTrace)
    (rs : List (StreamId × List Fetched)) : KMerge.State StreamId BlkIoTrace :=
  rs.foldl (fun m r => KMerge.add BlkIoTrace.time 0 m r.1 (delivered rbBatch r.2)) m

theorem mergeOf_spec {rbBatch : Nat} {m : KMerge.State StreamId BlkIoTrace}
    {rs : List (StreamId × List Fetched)} (hw : KMerge.WF BlkIoTrace.time 0 m)
    (hnd : (rs.map Prod.fst).Nodup) (hfresh : ∀ r ∈ rs, m.rem r.1 = []) :
    KMerge.WF BlkIoTrace.time 0 (mergeOf rbBatch m rs) ∧
      (∀ r ∈ rs, (mergeOf rbBatch m rs).rem r.1 = delivered rbBatch r.2) ∧
      (∀ id, id ∉ rs.map Prod.fst → (mergeOf rbBatch m rs).rem id = m.rem id) ∧
      KMerge.size (mergeOf rbBatch m rs)
        = KMerge.size m + (rs.map fun r => (delivered rbBatch r.2).length).sum := by
  induction rs generalizing m with
  | nil => exact ⟨hw, by simp, by simp [mergeOf], by simp [mergeOf]⟩
  | cons r rs ih =>
    obtain ⟨hr, hnd'⟩ := List.nodup_cons.mp hnd
    have hfr : m.rem r.1 = [] := hfresh r List.mem_cons_self
    have hni : r.1 ∉ m.chain := fun h => (hw.mem r.1).mp h hfr
    have hrem : ∀ id, id ≠ r.1 →
        (KMerge.add BlkIoTrace.time 0 m r.1 (delivered rbBatch r.2)).rem id = m.rem id :=
      fun id hid => Function.update_of_ne hid _ _
    have hne : ∀ r' ∈ rs, r'.1 ≠ r.1 := fun r' h heq =>
      hr (heq ▸ List.mem_map_of_mem (f := Prod.fst) h)
    obtain ⟨h1, h2, h3, h4⟩ := ih (hw.add hfr (delivered rbBatch r.2)) hnd' fun r' h => by
      rw [hrem r'.1 (hne r' h)]
      exact hfresh r' (List.mem_cons_of_mem _ h)
    refine ⟨h1, fun r' h => ?_, fun id hid => ?_, ?_⟩
    · rcases List.mem_cons.mp h with rfl | h
      · exact (h3 r'.1 hr).trans (Function.update_self ..)
      · exact h2 r' h
    · rw [List.map_cons, List.mem_cons, not_or] at hid
      exact (h3 id hid.2).trans (hrem id hid.1)
    · refine h4.trans ?_
      rw [KMerge.size_add hni, List.map_cons, List.sum_cons]
      omega

theorem setupFile_native {o : Opts} (hb : 1 ≤ o.rbBatch) (s : FileState)
    (f : StreamId × List BlkIoTrace) : (setupFile o s f).native = nativeAfter s.native f.2 := by
  rw [setupFile]
  split
  case isTrue h => rw [h]; rfl
  case isFalse =>
    have hprime : ∀ s' : FileState, (s'.streams f.1).fd = some f.2 → s'.native = s.native →
        (s'.streams f.1).first = [] → (msPrime o s' f.1).1.native = nativeAfter s.native f.2 := by
      intro s' hfd hnat hfirst
      rw [(msPrime_of_some hfd hfirst).1, hnat, msPrimeLoop_native hb]
    rw [msAlloc]
    dsimp only
    split <;> exact hprime _ (by simp) rfl (by simp)

theorem setupFile_frame (o : Opts) (s : FileState) (f : StreamId × List BlkIoTrace) :
    (setupFile o s f).handled = s.handled ∧ (setupFile o s f).genesisTime = s.genesisTime := by
  rw [setupFile]
  split
  · exact ⟨rfl, rfl⟩
  · rw [msAlloc]
    dsimp only
    split <;> exact ⟨(msPrime_frame o _ _).2.2, (msPrime_frame o _ _).2.1⟩

/-- **Setting up the files adds them to the merge one by one.** -/
theorem setup_merge {o : Opts} (hb : 1 ≤ o.rbBatch) {s : FileState} (hinv : FileInv s)
    {fs : List (StreamId × List BlkIoTrace)} (hnd : (fs.map Prod.fst).Nodup)
    (hfresh : ∀ f ∈ fs, s.left o.rbBatch f.1 = []) :
    FileInv (fs.foldl (setupFile o) s) ∧ (fs.foldl (setupFile o) s).merge o.rbBatch
      = mergeOf o.rbBatch (s.merge o.rbBatch) (readableFiles s.native fs) := by
  induction fs generalizing s with
  | nil => exact ⟨hinv, rfl⟩
  | cons f fs ih =>
    obtain ⟨hf, hnd'⟩ := List.nodup_cons.mp hnd
    have hnil : s.left o.rbBatch f.1 = [] := hfresh f List.mem_cons_self
    have hstep : FileInv (setupFile o s f) ∧ (setupFile o s f).merge o.rbBatch
        = KMerge.add BlkIoTrace.time 0 (s.merge o.rbBatch) f.1
            (delivered o.rbBatch (readable f.1.2 s.native f.2)) := by
      rw [setupFile]
      split
      case isTrue h =>
        -- an empty file adds nothing, and its stream gave nothing before
        refine ⟨hinv, ?_⟩
        rw [h, readable, delivered_nil, KMerge.add, if_pos rfl, ← hnil]
        exact (congrArg (fun rem => KMerge.State.mk rem s.msHead)
          (Function.update_eq_self f.1 (s.left o.rbBatch))).symm
      case isFalse =>
        exact msAlloc_merge hb hinv (not_not.mp fun h => MsStream.left_ne_nil.mpr h hnil) f.2
    have hnat := setupFile_native hb s f
    obtain ⟨hinv', hmerge'⟩ := hstep
    have hleft : ∀ g ∈ fs, (setupFile o s f).left o.rbBatch g.1 = [] := by
      intro g hg
      have hne : g.1 ≠ f.1 := fun h => hf (h ▸ List.mem_map_of_mem (f := Prod.fst) hg)
      have hrem : ((setupFile o s f).merge o.rbBatch).rem g.1 = (s.merge o.rbBatch).rem g.1 := by
        rw [hmerge']
        exact Function.update_of_ne hne _ _
      exact hrem.trans (hfresh g (List.mem_cons_of_mem _ hg))
    obtain ⟨h1, h2⟩ := ih hinv' hnd' hleft
    refine ⟨h1, ?_⟩
    rw [List.foldl_cons, h2, hmerge', hnat]
    rfl

/-! ## The whole run -/

/-- The merge of all the input files. -/
def fileMerge (rbBatch : Nat) (devs : List (List (List BlkIoTrace))) :
    KMerge.State StreamId BlkIoTrace :=
  mergeOf rbBatch ⟨fun _ => [], []⟩ (readableFiles none (inputFiles devs))

/-- The time of the first record of a merge. -/
def genesisOf (m : KMerge.State StreamId BlkIoTrace) : UInt64 :=
  match m.chain with
  | [] => 0
  | msp :: _ => KMerge.front BlkIoTrace.time 0 m.rem msp

theorem fileMerge_spec (rbBatch : Nat) (devs : List (List (List BlkIoTrace))) :
    KMerge.WF BlkIoTrace.time 0 (fileMerge rbBatch devs) ∧
      (∀ r ∈ readableFiles none (inputFiles devs),
        (fileMerge rbBatch devs).rem r.1 = delivered rbBatch r.2) ∧
      (∀ id, id ∉ (inputFiles devs).map Prod.fst → (fileMerge rbBatch devs).rem id = []) ∧
      KMerge.size (fileMerge rbBatch devs) = ((readableFiles none (inputFiles devs)).map
        fun r => (delivered rbBatch r.2).length).sum := by
  have hnd := inputFiles_nodup devs
  rw [← readableFiles_ids none] at hnd
  obtain ⟨h1, h2, h3, h4⟩ := @mergeOf_spec rbBatch _ _ KMerge.WF.empty hnd fun _ _ => rfl
  rw [readableFiles_ids] at h3
  exact ⟨h1, h2, h3, by rw [fileMerge, h4]; simp [KMerge.size]⟩

/-- What `do_file` reaches before its loop. -/
theorem fileStart_merge {o : Opts} (hb : 1 ≤ o.rbBatch) {devs : List (List (List BlkIoTrace))}
    {s : FileState} (hs : fileStart o devs = some s) :
    FileInv s ∧ s.merge o.rbBatch = fileMerge o.rbBatch devs ∧
      s.genesisTime = genesisOf (fileMerge o.rbBatch devs) ∧ s.handled = [] := by
  rw [fileStart, setupDevices_eq] at hs
  split at hs
  case isTrue => simp at hs
  case isFalse =>
    obtain ⟨hinv, hmerge⟩ := @setup_merge o hb {} FileInv.init _ (inputFiles_nodup devs)
      fun _ _ => rfl
    have hframe : ∀ (fs : List (StreamId × List BlkIoTrace)) (s : FileState),
        (fs.foldl (setupFile o) s).handled = s.handled ∧
          (fs.foldl (setupFile o) s).genesisTime = s.genesisTime := by
      intro fs
      induction fs with
      | nil => exact fun _ => ⟨rfl, rfl⟩
      | cons f fs ih =>
        intro s
        rw [List.foldl_cons, (ih _).1, (ih _).2]
        exact setupFile_frame o s f
    obtain ⟨hh, hg⟩ := hframe (filesFrom 0 devs) {}
    simp only [Option.map_some, Option.some.injEq] at hs
    rw [inputFiles] at hinv hmerge
    generalize (filesFrom 0 devs).foldl (setupFile o) {} = s₀ at *
    have hm : s₀.merge o.rbBatch = fileMerge o.rbBatch devs := hmerge
    have hgen : (match s₀.msHead with
        | [] => s₀.genesisTime
        | msp :: _ => msPeekTime s₀.streams msp) = genesisOf (fileMerge o.rbBatch devs) := by
      rw [genesisOf, ← hm, msPeekTime_eq o.rbBatch, hg]
      rfl
    cases hc : s₀.msHead with
    | nil =>
      rw [hc] at hgen
      simp only [hc] at hs
      subst hs
      exact ⟨hinv, hm, hgen, hh⟩
    | cons msp next =>
      rw [hc] at hgen
      simp only [hc] at hs
      subst hs
      refine ⟨hinv, ?_, hgen, hh⟩
      rw [← hm, FileState.merge, FileState.merge, hc]
      rfl

/-- **A file-mode run hands over exactly what the merge of its files gives.** -/
theorem doFile_handled {o : Opts} (hb : 1 ≤ o.rbBatch) {devs : List (List (List BlkIoTrace))}
    {s : FileState} (hs : doFile o devs = some s) :
    s.handled = KMerge.run BlkIoTrace.time 0 (o.past (genesisOf (fileMerge o.rbBatch devs)))
      (fileFuel devs + 1) (fileMerge o.rbBatch devs) := by
  rw [doFile, Option.map_eq_some_iff] at hs
  obtain ⟨s₀, hs₀, rfl⟩ := hs
  obtain ⟨hinv, hm, hg, hh⟩ := fileStart_merge hb hs₀
  have hw : KMerge.WF BlkIoTrace.time 0 (s₀.merge o.rbBatch) :=
    hm ▸ (fileMerge_spec o.rbBatch devs).1
  rw [fileLoop_handled hb _ hinv hw, hh, hg, hm, List.nil_append]

/-! ## The fuel -/

theorem delivered_length (rbBatch : Nat) (fs : List Fetched) :
    (delivered rbBatch fs).length ≤ fs.length := by
  induction hn : fs.length using Nat.strong_induction_on generalizing fs with
  | _ n ih =>
    subst hn
    rw [delivered]
    split
    case isTrue => exact Nat.zero_le _
    case isFalse h =>
      have hlen := takeBatch_length rbBatch fs 0
      have hpos := List.length_pos_of_ne_nil h
      have hrest := ih (takeBatch rbBatch fs 0).2.length (by omega) _ rfl
      rw [List.length_append]
      omega

theorem readable_length (cpu : Nat) (native : Option Bool) (file : List BlkIoTrace) :
    (readable cpu native file).length ≤ file.length := by
  induction file generalizing native with
  | nil => exact Nat.le_refl _
  | cons raw rest ih =>
    rw [readable]
    cases lookNative native raw.magic with
    | none => exact Nat.zero_le _
    | some b =>
      dsimp only
      cases msFetch cpu b raw with
      | err => exact Nat.zero_le _
      | skipped | notify | queued => exact Nat.succ_le_succ (ih (some b))

theorem filesOf_size (pdi cpu : Nat) (files : List (List BlkIoTrace)) :
    ((filesOf pdi cpu files).map fun f => f.2.length).sum = (files.map List.length).sum := by
  induction files generalizing cpu with
  | nil => rfl
  | cons file files ih => rw [filesOf, List.map_cons, List.sum_cons, ih, List.map_cons, List.sum_cons]

theorem filesFrom_size (pdi : Nat) (devs : List (List (List BlkIoTrace))) :
    ((filesFrom pdi devs).map fun f => f.2.length).sum = fileFuel devs := by
  induction devs generalizing pdi with
  | nil => rfl
  | cons files devs ih =>
    rw [filesFrom, List.map_append, List.sum_append, filesOf_size, ih, fileFuel, fileFuel,
      List.map_cons, List.sum_cons]

/-- The fuel of `doFile` covers its merge. -/
theorem fileMerge_size (rbBatch : Nat) (devs : List (List (List BlkIoTrace))) :
    KMerge.size (fileMerge rbBatch devs) ≤ fileFuel devs := by
  rw [(fileMerge_spec rbBatch devs).2.2.2, ← filesFrom_size 0 devs, inputFiles]
  generalize filesFrom 0 devs = fs
  have hle : ∀ native : Option Bool,
      ((readableFiles native fs).map fun r => (delivered rbBatch r.2).length).sum
        ≤ (fs.map fun f => f.2.length).sum := by
    induction fs with
    | nil => exact fun _ => Nat.le_refl _
    | cons f fs ih =>
      intro native
      rw [readableFiles, List.map_cons, List.map_cons, List.sum_cons, List.sum_cons]
      exact Nat.add_le_add ((delivered_length ..).trans (readable_length ..)) (ih _)
  exact hle none

/-! ## Files that lose nothing -/

/-- The record a pass of the loop queues. -/
def Fetched.queued? : Fetched → Option BlkIoTrace
  | .queued bit => some bit
  | _ => none

/-- The records among `fs` that are queued. -/
def records (fs : List Fetched) : List BlkIoTrace := fs.filterMap Fetched.queued?

/-- After a record of another CPU nothing is queued any more. -/
def Settled : List Fetched → Prop
  | [] => True
  | .skipped :: fs => records fs = []
  | _ :: fs => Settled fs

@[simp] theorem records_nil : records [] = [] := rfl

@[simp] theorem records_append (fs gs : List Fetched) :
    records (fs ++ gs) = records fs ++ records gs := List.filterMap_append

theorem records_cons (f : Fetched) (fs : List Fetched) :
    records (f :: fs) = f.queued?.toList ++ records fs := by
  cases h : f.queued? <;> simp [records, h]

theorem Settled.of_records_eq_nil {fs : List Fetched} (h : records fs = []) : Settled fs := by
  induction fs with
  | nil => trivial
  | cons f fs ih =>
    rw [records_cons, List.append_eq_nil_iff] at h
    cases f with
    | skipped => exact h.2
    | err | notify | queued => exact ih h.2

/-- A suffix of a settled list is settled, and empty of records once a skip came before it. -/
theorem Settled.append {fs gs : List Fetched} (h : Settled (fs ++ gs)) :
    Settled gs ∧ (.skipped ∈ fs → records gs = []) := by
  induction fs with
  | nil => exact ⟨h, by simp⟩
  | cons f fs ih =>
    cases f with
    | skipped =>
      have hnil : records gs = [] := by
        have h' : records (fs ++ gs) = [] := h
        rw [records_append, List.append_eq_nil_iff] at h'
        exact h'.2
      exact ⟨.of_records_eq_nil hnil, fun _ => hnil⟩
    | err | notify | queued =>
      obtain ⟨h1, h2⟩ := ih h
      exact ⟨h1, fun hm => h2 (by simpa using hm)⟩

/-- A list without skips is settled. -/
theorem Settled.of_not_mem {fs : List Fetched} (h : .skipped ∉ fs) : Settled fs := by
  induction fs with
  | nil => trivial
  | cons f fs ih =>
    obtain ⟨hf, hfs⟩ := not_or.mp (List.mem_cons.not.mp h)
    cases f with
    | skipped => exact absurd rfl hf
    | err | notify | queued => exact ih hfs

/-- A batch queues the records of what it consumes; one that queued nothing and left something
met a skip. -/
theorem takeBatch_split (rbBatch : Nat) (fs : List Fetched) (i : Nat) :
    ∃ done, fs = done ++ (takeBatch rbBatch fs i).2 ∧ records done = (takeBatch rbBatch fs i).1 ∧
      (i < rbBatch → (takeBatch rbBatch fs i).1 = [] → (takeBatch rbBatch fs i).2 ≠ [] →
        .skipped ∈ done) := by
  induction fs generalizing i with
  | nil => exact ⟨[], rfl, rfl, fun _ _ h => absurd rfl h⟩
  | cons f fs ih =>
    by_cases hi : i < rbBatch
    case neg =>
      rw [takeBatch_of_not_lt hi]
      exact ⟨[], rfl, rfl, fun h => absurd h hi⟩
    case pos =>
      cases f with
      | skipped =>
        obtain ⟨done, h1, h2, -⟩ := ih (i + 1)
        rw [takeBatch, if_pos hi]
        exact ⟨.skipped :: done, by rw [List.cons_append, ← h1], h2, fun _ _ _ =>
          List.mem_cons_self⟩
      | queued bit =>
        obtain ⟨done, h1, h2, -⟩ := ih (i + 1)
        rw [takeBatch, if_pos hi]
        refine ⟨.queued bit :: done, by rw [List.cons_append, ← h1], ?_, fun _ h => by simp at h⟩
        rw [records_cons, h2]
        rfl
      | notify bit =>
        obtain ⟨done, h1, h2, h3⟩ := ih i
        rw [takeBatch, if_pos hi]
        exact ⟨.notify bit :: done, by rw [List.cons_append, ← h1], h2, fun hi h h' =>
          List.mem_cons_of_mem _ (h3 hi h h')⟩
      | err =>
        obtain ⟨done, h1, h2, h3⟩ := ih i
        rw [takeBatch, if_pos hi]
        exact ⟨.err :: done, by rw [List.cons_append, ← h1], h2, fun hi h h' =>
          List.mem_cons_of_mem _ (h3 hi h h')⟩

/-- **A settled file loses nothing**, whatever the batch size. -/
theorem Settled.delivered {rbBatch : Nat} (hb : 1 ≤ rbBatch) {fs : List Fetched} (h : Settled fs) :
    Blkparse.delivered rbBatch fs = records fs := by
  induction hn : fs.length using Nat.strong_induction_on generalizing fs with
  | _ n ih =>
    subst hn
    obtain ⟨done, hsplit, hdone, hskip⟩ := takeBatch_split rbBatch fs 0
    rw [hsplit] at h
    obtain ⟨hset, hnil⟩ := h.append
    rw [Blkparse.delivered]
    split
    case isTrue hq =>
      by_cases hrest : (takeBatch rbBatch fs 0).2 = []
      · rw [hsplit, hrest, List.append_nil, hdone, hq]
      · rw [hsplit, records_append, hdone, hq, hnil (hskip hb hq hrest), List.nil_append]
    case isFalse hq =>
      have hlen := takeBatch_length rbBatch fs 0
      have hpos := List.length_pos_of_ne_nil hq
      rw [ih _ (by omega) hset rfl, ← hdone, ← records_append, ← hsplit]

/-- Every input file is settled: none has a record to queue behind one of another CPU. -/
def FilesSettled (devs : List (List (List BlkIoTrace))) : Prop :=
  ∀ r ∈ readableFiles none (inputFiles devs), Settled r.2

end Blktrace.Blkparse
