import Blktrace.Blkparse.PipeOrigin
import Blktrace.Blkparse.SkipRun

/-!
# One CPU of one device

A trace of one CPU of one device, in time order and without a gap in its numbers, comes out of
pipe mode in that order, whatever the batches are (`doPipe_grows`). As long as the origin is 0
every pass empties the tree, so no record sorted with one origin meets one sorted with another.
Messages carry no number and may change places among records of the same time.
-/

namespace Blktrace.Blkparse

/-- The records that carry a sequence number. -/
def numbered (bits : List BlkIoTrace) : List BlkIoTrace := bits.filter fun bit => !bit.isMessage

theorem numbered_append (bits bits' : List BlkIoTrace) :
    numbered (bits ++ bits') = numbered bits ++ numbered bits' := List.filter_append ..

theorem mem_numbered {bits : List BlkIoTrace} {bit : BlkIoTrace} :
    bit ∈ numbered bits ↔ bit ∈ bits ∧ bit.isMessage = false := by simp [numbered]

/-- The numbers of a list grow. -/
def Grows (bits : List BlkIoTrace) : Prop :=
  (numbered bits).Pairwise fun a b => a.sequence.toNat < b.sequence.toNat

/-- Growing numbers can be ordered in one way. -/
theorem Grows.numbered_eq {bits bits' : List BlkIoTrace} (h : Grows bits) (h' : Grows bits')
    (hperm : bits.Perm bits') : numbered bits = numbered bits' := by
  rw [Grows] at h h'
  refine List.Perm.eq_of_pairwise ?_ h h' (hperm.filter _)
  intro a b _ _ hab hba
  exact absurd hba (lt_asymm hab)

theorem Grows.filter {bits : List BlkIoTrace} (h : Grows bits) (p : BlkIoTrace → Bool) :
    Grows (bits.filter p) := by
  rw [Grows, numbered, List.filter_comm]
  exact List.Pairwise.filter p h

/-- A trace of one CPU of one device: in time order, and its numbers run on. -/
structure OneCpu (dev cpu : UInt32) (bits : List BlkIoTrace) : Prop where
  ofDevice : ∀ bit ∈ bits, bit.device = dev
  ofCpu : ∀ bit ∈ bits, bit.cpu = cpu
  sorted : bits.Pairwise fun a b => a.time ≤ b.time
  runsOn : RunsOn (seqsOf dev cpu bits)

theorem seqsOf_numbered {dev cpu : UInt32} {bits : List BlkIoTrace}
    (hdev : ∀ bit ∈ bits, bit.device = dev) (hcpu : ∀ bit ∈ bits, bit.cpu = cpu) :
    seqsOf dev cpu bits = (numbered bits).map fun bit => bit.sequence.toNat := by
  rw [seqsOf, numbered]
  congr 1
  refine List.filter_congr fun bit hbit => ?_
  simp [hdev bit hbit, hcpu bit hbit]

theorem RunsOn.pairwise {seqs : List Nat} (h : RunsOn seqs) : seqs.Pairwise (· < ·) := by
  obtain ⟨first, heq⟩ := h
  rw [heq]
  exact List.pairwise_lt_range'

theorem RunsOn.infix {seqs seqs' : List Nat} (h : RunsOn seqs') (hin : seqs <:+: seqs') :
    RunsOn seqs := by
  obtain ⟨first, heq⟩ := h
  obtain ⟨pre, post, rfl⟩ := hin
  obtain ⟨k, -, hfront, -⟩ := List.range'_eq_append_iff.mp heq.symm
  obtain ⟨k', -, -, hmid⟩ := List.range'_eq_append_iff.mp hfront.symm
  refine ⟨first + k' * 1, ?_⟩
  have hlen : seqs.length = k - k' := by rw [hmid, List.length_range']
  rw [hlen]
  exact hmid

namespace OneCpu

variable {dev cpu : UInt32} {bits : List BlkIoTrace} (h : OneCpu dev cpu bits)

include h

theorem grows : Grows bits := by
  have hseqs := h.runsOn.pairwise
  rw [seqsOf_numbered h.ofDevice h.ofCpu] at hseqs
  exact List.pairwise_map.mp hseqs

/-- A later number is not an earlier time. -/
theorem time_le {a b : BlkIoTrace} (ha : a ∈ numbered bits) (hb : b ∈ numbered bits)
    (hlt : a.sequence.toNat < b.sequence.toNat) : a.time ≤ b.time := by
  let R (a b : BlkIoTrace) : Prop :=
    (a.sequence.toNat < b.sequence.toNat → a.time ≤ b.time) ∧
      (b.sequence.toNat < a.sequence.toNat → b.time ≤ a.time)
  have : Std.Symm R := ⟨fun _ _ h => ⟨h.2, h.1⟩⟩
  have hall : (numbered bits).Pairwise R :=
    (h.grows.and (h.sorted.filter _)).imp fun ⟨hs, ht⟩ =>
      ⟨fun _ => ht, fun hgt => absurd hgt (lt_asymm hs)⟩
  exact (hall.forall_of_forall (fun x _ => ⟨fun _ => le_refl _, fun _ => le_refl _⟩) ha hb).1 hlt

/-- Relative records of one origin, by number. -/
theorem orderKey_lt {genesis : UInt64} {a b : BlkIoTrace} (hg : genesis ≤ a.time)
    (ha : a ∈ numbered bits) (hb : b ∈ numbered bits) (hlt : a.sequence.toNat < b.sequence.toNat) :
    orderKey (relative genesis a) < orderKey (relative genesis b) := by
  have hle : a.time - genesis ≤ b.time - genesis := Word.sub_mono hg (h.time_le ha hb hlt)
  have hdev : a.device = b.device :=
    (h.ofDevice a (mem_numbered.mp ha).1).trans (h.ofDevice b (mem_numbered.mp hb).1).symm
  rw [← goesLeft_iff]
  simp only [goesLeft, relative, hdev, UInt32.lt_iff_toNat_lt, lt_irrefl, if_false, gt_iff_lt,
    hlt, decide_true]
  split_ifs with h1 h2
  · rfl
  · exact absurd h2 (not_lt.mpr hle)
  · rfl

end OneCpu

/-! ## A batch -/

/-- **The numbers still grow** when a batch of later numbers is sorted into the tree. -/
theorem Grows.sort {shown tree tree' new : List BlkIoTrace} (h : Grows (shown ++ tree))
    (hperm : tree'.Perm (tree ++ new)) (hnew : Grows new.reverse)
    (hkey : tree'.Pairwise fun a b => orderKey a ≤ orderKey b)
    (hlater : ∀ a ∈ numbered (shown ++ tree), ∀ b ∈ numbered new, a.sequence.toNat < b.sequence.toNat)
    (hmono : ∀ a ∈ numbered (tree ++ new), ∀ b ∈ numbered (tree ++ new),
      a.sequence.toNat < b.sequence.toNat → orderKey a < orderKey b) : Grows (shown ++ tree') := by
  rw [Grows, numbered_append, List.pairwise_append] at h ⊢
  obtain ⟨hshown, htree, hcross⟩ := h
  have hperm' : (numbered tree').Perm (numbered (tree ++ new)) := hperm.filter _
  refine ⟨hshown, ?_, fun a ha b hb => ?_⟩
  · have hdistinct : (numbered tree').Pairwise fun a b => a.sequence.toNat ≠ b.sequence.toNat := by
      rw [hperm'.pairwise_iff fun h => Ne.symm h, numbered_append, List.pairwise_append]
      refine ⟨htree.imp fun h => ne_of_lt h, ?_, fun a ha b hb => ?_⟩
      · rw [Grows, numbered, List.filter_reverse, List.pairwise_reverse] at hnew
        exact hnew.imp fun h => ne_of_gt h
      · refine ne_of_lt (hlater a ?_ b hb)
        rw [numbered_append]
        exact List.mem_append_right _ ha
    refine ((hkey.filter _).and hdistinct).imp_of_mem fun {a b} ha hb ⟨hle, hne⟩ => ?_
    by_contra hge
    have hlt : b.sequence.toNat < a.sequence.toNat := lt_of_le_of_ne (not_lt.mp hge) (Ne.symm hne)
    have hback := hmono b (hperm'.mem_iff.mp hb) a (hperm'.mem_iff.mp ha) hlt
    exact absurd hle (not_le.mpr hback)
  · rw [hperm'.mem_iff, numbered_append] at hb
    rcases List.mem_append.mp hb with hb | hb
    · exact hcross a ha b hb
    · refine hlater a ?_ b hb
      rw [numbered_append]
      exact List.mem_append_left _ ha

/-- What is stored of a batch comes from records of it. -/
theorem mem_inWindow {o : Opts} {genesis : UInt64} {bits : List BlkIoTrace} {bit : BlkIoTrace}
    (h : bit ∈ inWindow o genesis bits) : ∃ raw ∈ bits, bit = relative genesis raw := by
  obtain ⟨raw, hraw, rfl⟩ := List.mem_map.mp (List.mem_filter.mp h).1
  exact ⟨raw, hraw, rfl⟩

theorem Grows.inWindow {bits : List BlkIoTrace} (h : Grows bits.reverse) (o : Opts)
    (genesis : UInt64) : Grows (inWindow o genesis bits).reverse := by
  have hmap : ((bits.reverse.map (relative genesis)).filter fun bit => !bit.isMessage).Pairwise
      fun a b => a.sequence.toNat < b.sequence.toNat := by
    rw [List.filter_map]
    exact List.pairwise_map.mpr h
  rw [Grows, numbered, Blkparse.inWindow, ← List.filter_reverse, ← List.map_reverse,
    List.filter_filter]
  exact hmap.sublist (by
    rw [← List.filter_filter, List.filter_comm]
    exact List.filter_sublist)

/-- In time order a window of time is a stretch of the trace. -/
theorem infix_window (o : Opts) {bits : List BlkIoTrace}
    (h : bits.Pairwise fun a b => a.time ≤ b.time) :
    bits.filter (fun bit => !checkStopwatch o bit) <:+: bits := by
  induction bits with
  | nil => exact List.infix_rfl
  | cons bit bits ih =>
    obtain ⟨hle, hrest⟩ := List.pairwise_cons.mp h
    cases hin : checkStopwatch o bit with
    | true =>
      rw [List.filter_cons_of_neg (by simp [hin])]
      exact (ih hrest).trans (List.suffix_cons bit bits).isInfix
    | false =>
      -- from here on all are late enough, so what is kept is a prefix
      rw [List.filter_cons_of_pos (by simp [hin])]
      have hstart : o.stopwatchStart ≤ bit.time := by
        simp only [checkStopwatch, Bool.not_eq_false', Bool.and_eq_true, decide_eq_true_eq] at hin
        exact hin.2
      refine List.IsPrefix.isInfix ((List.prefix_cons_inj bit).mpr ?_)
      clear ih hin h
      induction bits with
      | nil => exact List.nil_prefix
      | cons next bits ih =>
        obtain ⟨hle', hrest'⟩ := List.pairwise_cons.mp hrest
        have ih := ih (fun b hb => hle b (List.mem_cons_of_mem _ hb)) hrest'
        cases hin : checkStopwatch o next with
        | false =>
          rw [List.filter_cons_of_pos (by simp [hin])]
          exact (List.prefix_cons_inj next).mpr ih
        | true =>
          -- this one is too late, so all after it are
          have hend : o.stopwatchEnd ≤ next.time := by
            have hle := hstart.trans (hle next List.mem_cons_self)
            by_contra hlt
            simp [checkStopwatch, hle, not_le.mp hlt] at hin
          have hnone : bits.filter (fun bit => !checkStopwatch o bit) = [] := by
            refine List.filter_eq_nil_iff.mpr fun b hb => ?_
            have := not_lt.mpr (hend.trans (hle' b hb))
            simp [checkStopwatch, this]
          rw [List.filter_cons_of_neg (by simp [hin]), hnone]
          exact List.nil_prefix

/-! ## A pass that empties the tree -/

theorem skipRun_last_concat (seqs : List Nat) (x : Nat) :
    (skipRun (seqs ++ [x])).1 = UInt64.ofNat x := by
  rw [skipRun_concat]

/-- **Numbers that run on** all come out, if they were read before. -/
theorem showLoop_drains {o : Opts} {find : Find} {dev cpu : UInt32} {ts : List Trace}
    (hdev : ∀ t ∈ ts, t.bit.device = dev) (hcpu : ∀ t ∈ ts, t.bit.cpu = cpu) {pdi : Option Nat}
    {s : PipeState} (hread : ∀ t ∈ ts, ¬ s.readSequence - t.readSequence < 1)
    {past : List BlkIoTrace} (hruns : RunsOn (seqsOf dev cpu (past ++ ts.map Trace.bit)))
    (hd : DevsOk s.devices) (hc : CacheOk s.devices pdi)
    (h : SkipInv dev cpu s.devices (seqsOf dev cpu past)) :
    (showLoop o find false ts pdi s).1.rbSort = [] := by
  induction ts generalizing pdi s past with
  | nil => rfl
  | cons t rest ih =>
    have htdev := hdev t List.mem_cons_self
    have htcpu := hcpu t List.mem_cons_self
    have hlooked := lookDev_looked hd.slotsOk hc t.bit.device
    have hd₁ := hd.look hc t.bit.device
    have h₁ := h.look hd hc (e := t.bit.device) (by rw [htdev])
    rcases showLoop_cons o find false t rest pdi s with
      ⟨devices, -, hstop, -⟩ | ⟨devices, i, pdi', hlk, hpass, heq⟩
    · -- its number is the next one, or the first
      exfalso
      obtain ⟨hm, hnone⟩ := hstop (Or.inr (hread t List.mem_cons_self))
      rw [checkSequence_plain (devAt_plain hd₁.plain _)] at hnone
      have hlast : ((devAt (lookDev s.devices pdi t.bit.device).1
          (lookDev s.devices pdi t.bit.device).2).cpus t.bit.cpu).lastSequence
            = (skipRun (seqsOf dev cpu past)).1 := by
        have hkept := h₁.kept _ ((congrArg (slotOf _) htdev.symm).trans hlooked.found)
        rw [htcpu]
        exact congrArg Prod.fst hkept
      have hseqs : seqsOf dev cpu (past ++ (t :: rest).map Trace.bit) = seqsOf dev cpu past ++
          (t.bit.sequence.toNat :: seqsOf dev cpu (rest.map Trace.bit)) := by
        rw [seqsOf_append, List.map_cons, seqsOf, seqsOf, List.filter_cons_of_pos
          (by simp [htdev, htcpu, hm])]
        rfl
      rw [hseqs] at hruns
      rw [hlast] at hnone
      split at hnone
      · cases hnone
      case isFalse hno =>
        refine hno ?_
        rcases List.eq_nil_or_concat (seqsOf dev cpu past) with hnil | ⟨seqs, x, hx⟩
        · rw [hnil]
          exact Or.inl (by decide)
        · rw [List.concat_eq_append] at hx
          have hnext : RunsOn [x, t.bit.sequence.toNat] :=
            hruns.infix ⟨seqs, seqsOf dev cpu (rest.map Trace.bit), by simp [hx]⟩
          obtain ⟨first, hrange⟩ := hnext
          obtain ⟨rfl, hy⟩ : x = first ∧ t.bit.sequence.toNat = first + 1 := by
            simpa [List.range'] using hrange
          rw [hx, skipRun_last_concat, toUInt64_eq_ofNat, hy]
          exact Or.inr (by simp)
    · rw [hlk] at hlooked hd₁ h₁
      obtain ⟨hpdev, hplain⟩ := hpass.dev (devAt_plain hd₁.plain i)
      obtain ⟨hsdev, hsplain, -⟩ := show_spec o pdi' t.bit
      rw [heq]
      refine @ih (fun u hu => hdev u (List.mem_cons_of_mem _ hu))
        (fun u hu => hcpu u (List.mem_cons_of_mem _ hu)) (some i)
        (s.shown o devices i pdi' t.bit) (fun u hu => hread u (List.mem_cons_of_mem _ hu))
        (past ++ [t.bit]) ?_ (hd₁.set (hsdev.trans hpdev) (hsplain hplain))
        (hlooked.cacheOk.set (hsdev.trans hpdev)) ?_
      · simpa using hruns
      · exact h₁.show hd₁ (by rw [htdev]) hlooked.found hpass

/-! ## Where the entries of the tree come from -/

theorem sortLoop_mem (o : Opts) (ts : List Trace) (pdi : Option Nat) (youngest : UInt64)
    (s : PipeState) {t : Trace} (h : t ∈ (sortLoop o ts pdi youngest s).1.rbSort) :
    t ∈ s.rbSort ∨ ∃ u ∈ ts, t = ⟨relative s.genesisTime u.bit, u.readSequence⟩ := by
  induction ts generalizing pdi youngest s with
  | nil => exact Or.inl h
  | cons u rest ih =>
    rw [sortLoop_cons] at h
    generalize lookDev s.devices pdi u.bit.device = look at h
    have hgen : (s.sorted o look.1 look.2 u).genesisTime = s.genesisTime := by
      rw [PipeState.sorted]
      dsimp only
      split <;> rfl
    rcases ih _ _ _ h with hold | ⟨v, hv, rfl⟩
    · rw [PipeState.sorted] at hold
      dsimp only at hold
      split at hold
      · exact Or.inl hold
      · rcases List.mem_cons.mp ((traceRbInsert_perm _ _).mem_iff.mp hold) with rfl | hold
        · exact Or.inr ⟨u, List.mem_cons_self, rfl⟩
        · exact Or.inl hold
    · rw [hgen]
      exact Or.inr ⟨v, List.mem_cons_of_mem _ hv, rfl⟩

theorem sortEntries_mem (o : Opts) (s : PipeState) {t : Trace}
    (h : t ∈ (Blkparse.sortEntries o s).1.rbSort) :
    t ∈ s.rbSort ∨ ∃ u ∈ s.traceList,
      t = ⟨relative (originOf s.genesisTime s.traceList) u.bit, u.readSequence⟩ := by
  rw [Blkparse.sortEntries] at h
  rw [originOf]
  split at h
  case isTrue hg =>
    rw [if_pos hg]
    have hmem := sortLoop_mem o _ none 0 _ h
    exact hmem
  case isFalse hg =>
    rw [if_neg hg]
    have hmem := sortLoop_mem o _ none 0 _ h
    exact hmem

/-- A batch is read under the read sequence before it. -/
theorem readEvents_sequence (o : Opts) (input : List (Option BlkIoTrace)) {s : PipeState}
    (hd : DevsOk s.devices) (hlist : s.traceList = []) :
    ∀ t ∈ (Blkparse.readEvents o input 0 none s).1.traceList, t.readSequence = s.readSequence := by
  refine (@readEvents_induction o (fun s' => s'.readSequence = s.readSequence ∧
    ∀ t ∈ s'.traceList, t.readSequence = s.readSequence) input 0 none s (fun _ _ h => h)
    (fun _ _ _ h => h) (fun s' cache b raw _ _ _ _ _ h => ⟨h.1, ?_⟩) hd (CacheOk.none _)
    ⟨rfl, by simp [hlist]⟩).2.2
  exact List.forall_mem_cons.mpr ⟨h.1, h.2⟩

/-- What was taken out or is in the tree comes from the batches. -/
theorem PipeInv.source {o : Opts} {s : PipeState} (h : PipeInv o s) {bit : BlkIoTrace}
    (hbit : bit ∈ shownAll s.passes ++ s.rbSort.map Trace.bit) :
    ∃ b ∈ s.batches, ∃ raw ∈ b.raw, bit = relative b.genesis raw := by
  rw [h.once.mem_iff, h.stored] at hbit
  obtain ⟨b, hb, hmem⟩ := List.mem_flatMap.mp hbit
  obtain ⟨raw, hraw, rfl⟩ := mem_inWindow hmem
  exact ⟨b, hb, raw, hraw, rfl⟩

theorem ReadSoFar.mem {native : Bool} {input rest : List (Option BlkIoTrace)} {s : PipeState}
    (h : ReadSoFar native input rest s) {b : Batch} (hb : b ∈ s.batches) {raw : BlkIoTrace}
    (hraw : raw ∈ b.raw) : raw ∈ pipeRecords native input := by
  rw [h.records]
  exact List.mem_append_left _ (List.mem_flatMap.mpr ⟨b, hb, List.mem_reverse.mpr hraw⟩)

/-! ## The run -/

/-- What is shown and in the tree is in order, and the tree is measured from one origin. -/
structure InOrder (native : Bool) (input : List (Option BlkIoTrace)) (s : PipeState) : Prop where
  grows : Grows (shownAll s.passes ++ s.rbSort.map Trace.bit)
  tree : ∀ t ∈ s.rbSort, ∃ raw ∈ pipeRecords native input,
    s.genesisTime ≤ raw.time ∧ t.bit = relative s.genesisTime raw

section Run

variable {o : Opts} {find : Find} {names : Nat} {native : Bool} {dev cpu : UInt32}
  {input rest rest' : List (Option BlkIoTrace)}
  (hone : OneCpu dev cpu (pipeRecords native input))

include hone

/-- **A batch** keeps the order, if the tree is empty when the origin is still to be found. -/
theorem InOrder.sort {s s' s₁ : PipeState} {events : Nat} {youngest : UInt64}
    (h : InOrder native input s) (hinv : PipeInv o s) (hread : ReadSoFar native input rest s)
    (horigins : Origins s) (hempty : s.genesisTime = 0 → s.rbSort = [])
    (heq : Blkparse.readEvents o rest 0 none s = (s', events, rest')) (hpos : 0 < events)
    (hsort : Blkparse.sortEntries o { s' with readSequence := s'.readSequence + 1 } = (s₁, youngest)) :
    InOrder native input s₁ := by
  obtain ⟨hframe, -⟩ := readEvents_frame o rest 0 none s
  have htree := sortEntries_tree o { s' with readSequence := s'.readSequence + 1 }
  have hmem := @sortEntries_mem o { s' with readSequence := s'.readSequence + 1 }
  have hsframe := (sortEntries_frame o { s' with readSequence := s'.readSequence + 1 }).1
  obtain ⟨h₁, -, b, hb, -, hraw, hgen⟩ := hread.sort hinv.read heq hpos hsort
  have horigins₁ := horigins.turn heq hsort
  rw [heq] at hframe
  rw [hsort] at htree hsframe hmem
  dsimp only at htree hmem
  rw [← hraw, ← hgen] at htree
  rw [← hgen] at hmem
  obtain ⟨-, hperm, hsorted⟩ := htree
  have hpasses := congrArg PipeState.passes hsframe
  have hpasses' := congrArg PipeState.passes hframe
  have hrb := congrArg PipeState.rbSort hframe
  have hgen₁ := congrArg PipeState.genesisTime hsframe
  have hgen' := congrArg PipeState.genesisTime hframe
  dsimp only at hpasses hpasses' hrb hgen₁ hgen'
  rw [← hgen] at hgen₁
  rw [hpasses'] at hpasses
  rw [hrb] at hperm hsorted hmem
  rw [hgen'] at hgen
  have hle := (horigins₁.le h₁ hone.sorted hb).2
  -- what was in the tree is measured from the same origin as the batch
  have htreeOld : ∀ t ∈ s.rbSort, ∃ raw ∈ pipeRecords native input,
      b.genesis ≤ raw.time ∧ t.bit = relative b.genesis raw := by
    intro t ht
    by_cases hzero : s.genesisTime = 0
    · rw [hempty hzero] at ht
      cases ht
    · rw [originOf, if_neg hzero] at hgen
      rw [hgen]
      exact h.tree t ht
  have hnewRaw : ∀ raw ∈ b.raw, raw ∈ pipeRecords native input := fun raw hraw =>
    h₁.mem (hb ▸ List.mem_append_right _ (List.mem_singleton_self b)) hraw
  refine ⟨?_, fun t ht => ?_⟩
  · -- the records read so far, the last batch at the end
    have hrecords := h₁.records
    rw [hb, List.flatMap_append, List.flatMap_singleton] at hrecords
    have hgrowsAll := hone.grows
    rw [hrecords, Grows, numbered_append, numbered_append, List.append_assoc] at hgrowsAll
    obtain ⟨-, hgrowsRest, hcross⟩ := List.pairwise_append.mp hgrowsAll
    have hgrowsNew : Grows b.raw.reverse := (List.pairwise_append.mp hgrowsRest).1
    rw [hpasses]
    refine h.grows.sort hperm (hgrowsNew.inWindow o b.genesis)
      (List.pairwise_map.mpr (hsorted hinv.tree)) ?_ ?_
    · intro x hx y hy
      obtain ⟨hx, hxm⟩ := mem_numbered.mp hx
      obtain ⟨hy, hym⟩ := mem_numbered.mp hy
      obtain ⟨c, hc, rx, hrx, rfl⟩ := hinv.source hx
      obtain ⟨ry, hry, rfl⟩ := mem_inWindow hy
      refine hcross rx (mem_numbered.mpr ⟨?_, hxm⟩) ry
        (List.mem_append_left _ (mem_numbered.mpr ⟨List.mem_reverse.mpr hry, hym⟩))
      exact List.mem_flatMap.mpr ⟨c, hc, List.mem_reverse.mpr hrx⟩
    · have hsource : ∀ x ∈ numbered (s.rbSort.map Trace.bit ++ inWindow o b.genesis b.raw),
          ∃ raw ∈ numbered (pipeRecords native input),
            b.genesis ≤ raw.time ∧ x = relative b.genesis raw := by
        intro x hx
        obtain ⟨hx, hxm⟩ := mem_numbered.mp hx
        rcases List.mem_append.mp hx with hx | hx
        · obtain ⟨t, ht, rfl⟩ := List.mem_map.mp hx
          obtain ⟨raw, hmemraw, hge, hbit⟩ := htreeOld t ht
          rw [hbit] at hxm ⊢
          exact ⟨raw, mem_numbered.mpr ⟨hmemraw, hxm⟩, hge, rfl⟩
        · obtain ⟨raw, hr, rfl⟩ := mem_inWindow hx
          exact ⟨raw, mem_numbered.mpr ⟨hnewRaw raw hr, hxm⟩, hle raw hr, rfl⟩
      intro x hx y hy hlt
      obtain ⟨rx, hrx, hge, rfl⟩ := hsource x hx
      obtain ⟨ry, hry, -, rfl⟩ := hsource y hy
      exact hone.orderKey_lt hge hrx hry hlt
  · rw [hgen₁]
    rcases hmem ht with hold | ⟨u, hu, rfl⟩
    · exact htreeOld t hold
    · have hin : u.bit ∈ b.raw := hraw ▸ List.mem_map_of_mem hu
      exact ⟨u.bit, hnewRaw _ hin, hle _ hin, rfl⟩

/-- As long as the origin is 0, what was shown and is in the tree runs on: it is what the window
leaves of the records read so far. -/
theorem InOrder.runsOn {s : PipeState} (h : InOrder native input s) (hinv : PipeInv o s)
    (hread : ReadSoFar native input rest s) (horigins : Origins s) (hzero : s.genesisTime = 0) :
    RunsOn (seqsOf dev cpu (shownAll s.passes ++ s.rbSort.map Trace.bit)) := by
  have hgen : ∀ b ∈ s.batches, b.genesis = 0 := fun b hb =>
    (horigins.of_zero (fun c hc => originAt_eq_zero (horigins.now.symm.trans hzero) c.raw
      (List.mem_map_of_mem hc)) hb).1
  have hwhole : ∀ bits, inWindow o 0 bits = bits.filter fun bit => !checkStopwatch o bit := by
    intro bits
    have hid : relative 0 = id := by
      funext bit
      simp [relative]
    rw [inWindow, hid, List.map_id]
  -- what was stored is a stretch of the trace
  have hperm : (shownAll s.passes ++ s.rbSort.map Trace.bit).Perm
      ((s.batches.flatMap fun b => b.raw.reverse).filter fun bit => !checkStopwatch o bit) := by
    refine hinv.once.trans ?_
    rw [hinv.stored, List.filter_flatMap]
    refine List.Perm.flatMap_left _ fun b hb => ?_
    rw [hgen b hb, hwhole]
    exact (b.raw.reverse_perm.filter _).symm
  have hpre : (s.batches.flatMap fun b => b.raw.reverse) <:+: pipeRecords native input := by
    rw [hread.records]
    exact (List.prefix_append _ _).isInfix
  have hruns : RunsOn (seqsOf dev cpu
      ((s.batches.flatMap fun b => b.raw.reverse).filter fun bit => !checkStopwatch o bit)) := by
    have hin := (infix_window o (hone.sorted.sublist hpre.sublist)).trans hpre
    exact hone.runsOn.infix ((hin.filter _).map _)
  -- in the tree it lies in the same order
  have hsource : ∀ bit ∈ shownAll s.passes ++ s.rbSort.map Trace.bit,
      bit.device = dev ∧ bit.cpu = cpu := by
    intro bit hbit
    obtain ⟨b, hb, raw, hraw, rfl⟩ := hinv.source hbit
    exact ⟨hone.ofDevice raw (hread.mem hb hraw), hone.ofCpu raw (hread.mem hb hraw)⟩
  have hgrows : (seqsOf dev cpu (shownAll s.passes ++ s.rbSort.map Trace.bit)).Pairwise (· < ·) := by
    rw [seqsOf_numbered (fun bit hb => (hsource bit hb).1) fun bit hb => (hsource bit hb).2]
    exact List.pairwise_map.mpr h.grows
  have heq := List.Perm.eq_of_pairwise (fun a b _ _ hab hba => absurd hba (lt_asymm hab))
    hgrows hruns.pairwise (seqsOf_perm dev cpu hperm)
  rw [heq]
  exact hruns

/-- All that holds between two turns. -/
structure OneCpuRun (o : Opts) (native : Bool) (dev cpu : UInt32) (input : List (Option BlkIoTrace))
    (rest : List (Option BlkIoTrace)) (s : PipeState) : Prop where
  read : ReadSoFar native input rest s
  inv : PipeInv o s
  origins : Origins s
  order : InOrder native input s
  devs : DevsKept (· = dev) (fun devices past => SkipInv dev cpu devices (seqsOf dev cpu past)) s
  drained : s.genesisTime = 0 → s.rbSort = []

/-- The records still in the pipe are of the device. -/
theorem ReadSoFar.fit {s : PipeState} (h : ReadSoFar native input rest s) : Fit (· = dev) rest := by
  intro b raw hmem hv hn
  have hnative : b = native := Option.some.inj
    ((checkDataEndianness_of_valid hv).symm.trans (checkDataEndianness_of_valid (h.valid raw hmem)))
  subst hnative
  refine hone.ofDevice _ ?_
  rw [h.records]
  refine List.mem_append_right _ (List.mem_filter.mpr ⟨List.mem_map_of_mem ?_, by simpa using hn⟩)
  simpa using hmem

omit hone in
/-- A pass takes records from the front. -/
theorem grows_show {force : Bool} {s : PipeState}
    (h : Grows (shownAll s.passes ++ s.rbSort.map Trace.bit)) :
    Grows (shownAll (showEntriesRb o find force s).passes ++
      (showEntriesRb o find force s).rbSort.map Trace.bit) := by
  obtain ⟨done, hts, hout⟩ := showLoop_split o find force s.rbSort none s
  have hpasses : (showEntriesRb o find force s).passes =
      s.passes ++ [(force, (showLoop o find force s.rbSort none s).2)] := rfl
  have hrb : (showEntriesRb o find force s).rbSort =
      (showLoop o find force s.rbSort none s).1.rbSort := rfl
  rw [hpasses, hrb, shownAll_concat, hout, List.append_assoc, ← List.map_append, ← hts]
  exact h

/-- **A turn.** -/
theorem OneCpuRun.turn {s s' s₁ : PipeState} {events : Nat} {youngest : UInt64}
    (h : OneCpuRun o native dev cpu input rest s)
    (heq : Blkparse.readEvents o rest 0 none s = (s', events, rest')) (hpos : 0 < events)
    (hsort : Blkparse.sortEntries o { s' with readSequence := s'.readSequence + 1 } = (s₁, youngest)) :
    InOrder native input s₁ ∧ OneCpuRun o native dev cpu input rest' (showEntriesRb o find false s₁) := by
  have h₁ := (h.read.sort h.inv.read heq hpos hsort).1
  have horder := h.order.sort hone h.inv h.read h.origins h.drained heq hpos hsort
  have horigins := h.origins.turn heq hsort
  have hinv : PipeInv o s₁ := by
    have hnew := h.inv.readEvents rest
    rw [heq] at hnew
    have hs₁ := PipeInv.sortEntries (s := { s' with readSequence := s'.readSequence + 1 })
      ⟨rfl, hnew.tree, hnew.once, hnew.stored, hnew.dumped, hnew.unforced, hnew.order⟩
    rwa [hsort] at hs₁
  obtain ⟨hdevs, -⟩ := h.devs.turn
    (fun devices cache past e he hd hc hs => hs.look hd hc (by rw [he]))
    (h.read.fit hone) h.inv.read heq hsort
  have hout : DevsKept (· = dev)
      (fun devices past => SkipInv dev cpu devices (seqsOf dev cpu past))
      (showEntriesRb o find false s₁) := hdevs.showEntriesRb
    (fun devices cache past e he hd hc hs => hs.look hd hc (by rw [he]))
    (fun devices i pdi' past t rest he hd hslot hpass hs => hs.show hd (by rw [he]) hslot hpass)
  have hframe : (showEntriesRb o find false s₁).genesisTime = s₁.genesisTime := by
    rw [showEntriesRb, showLoop_frame]
  obtain ⟨done, hts, -⟩ := showLoop_split o find false s₁.rbSort none s₁
  refine ⟨horder, h₁.show, hinv.showEntriesRb, horigins.showEntriesRb,
    ⟨grows_show horder.grows, fun t ht => ?_⟩, hout, fun hzero => ?_⟩
  · rw [hframe]
    refine horder.tree t ?_
    rw [hts]
    exact List.mem_append_right _ ht
  · -- the tree was empty, so all that is in it has just been read
    rw [hframe] at hzero
    obtain ⟨hread, -⟩ := readEvents_frame o rest 0 none s
    have hseq := readEvents_sequence o rest h.devs.devs h.inv.read
    have hmem := @sortEntries_mem o { s' with readSequence := s'.readSequence + 1 }
    have hsframe := (sortEntries_frame o { s' with readSequence := s'.readSequence + 1 }).1
    rw [heq] at hread hseq
    rw [hsort] at hmem hsframe
    have hgen₁ := congrArg PipeState.genesisTime hsframe
    have hgen' := congrArg PipeState.genesisTime hread
    have hrb := congrArg PipeState.rbSort hread
    have hseq₁ := congrArg PipeState.readSequence hsframe
    have hseq' := congrArg PipeState.readSequence hread
    dsimp only at hgen₁ hgen' hrb hseq₁ hseq' hmem
    have hbefore : s.genesisTime = 0 := by
      by_contra hne
      rw [hgen', originOf, if_neg hne] at hgen₁
      exact hne (hgen₁.symm.trans hzero)
    rw [hrb, h.drained hbefore] at hmem
    have hsource : ∀ t ∈ s₁.rbSort, t.bit.device = dev ∧ t.bit.cpu = cpu := by
      intro t ht
      obtain ⟨raw, hraw, -, hbit⟩ := horder.tree t ht
      rw [hbit]
      exact ⟨hone.ofDevice raw hraw, hone.ofCpu raw hraw⟩
    refine showLoop_drains (fun t ht => (hsource t ht).1) (fun t ht => (hsource t ht).2)
      (fun t ht => ?_) (horder.runsOn hone hinv h₁ horigins hzero) hdevs.devs (CacheOk.none _)
      hdevs.kept
    rcases hmem ht with hno | ⟨u, hu, rfl⟩
    · cases hno
    · rw [hseq₁, hseq', hseq u hu]
      simp

/-- **The numbers shown grow** over a whole run. -/
theorem doPipe_grows (hv : ValidPipe native input) :
    Grows (shownAll (doPipe o find names input).passes) := by
  have hloop : Grows (shownAll (pipeLoop o find (input.length + 1) input (.init names)).passes ++
      (pipeLoop o find (input.length + 1) input (.init names)).rbSort.map Trace.bit) := by
    refine pipeLoop_induction (P := OneCpuRun o native dev cpu input)
      (Q := fun s => Grows (shownAll s.passes ++ s.rbSort.map Trace.bit)) ?_ ?_ (Nat.lt_succ_self _)
      ⟨⟨hv, Or.inl rfl, rfl, by simp [PipeState.init]⟩, PipeInv.init o names, Origins.init names,
        ⟨List.Pairwise.nil, by simp [PipeState.init]⟩,
        ⟨DevsOk.init names, by simp [PipeState.init], SkipInv.init dev cpu names⟩, fun _ => rfl⟩
    · intro rest s s' rest' h heq
      have hframe := (readEvents_frame o rest 0 none s).1
      rw [heq] at hframe
      rw [congrArg PipeState.passes hframe, congrArg PipeState.rbSort hframe]
      exact h.order.grows
    · intro rest s s' events rest' s₁ youngest h heq hpos hsort
      obtain ⟨horder, hnext⟩ := h.turn hone heq hpos hsort
      exact ⟨fun _ => horder.grows, fun _ => hnext⟩
  have hend : Grows (shownAll (doPipe o find names input).passes ++
      (doPipe o find names input).rbSort.map Trace.bit) := by
    rw [doPipe]
    split
    · exact hloop
    · exact grows_show hloop
  rw [Grows, numbered_append] at hend
  exact (List.pairwise_append.mp hend).1

end Run

end Blktrace.Blkparse
