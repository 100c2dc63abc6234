import Blktrace.Lib.Chains
import Blktrace.Lib.Runs
import Blktrace.Blkiomon.Dstat

/-!
# Matching dispatches and completions

`blkiomon` holds one record for each device, sector and kind of request until a record comes that
goes with it. An older dispatch and a younger completion are accounted; of two others the younger
stays.
-/

namespace Blktrace.Blkiomon

def blkTcIssue : UInt32 := 0x40
def blkTcComplete : UInt32 := 0x80
def blkTcDrvData : UInt32 := 0x4000

/-- `action`: the categories that have to agree. -/
def action (a : UInt32) : UInt32 := a &&& blkTcAct (blkTcWrite ||| blkTcRead ||| blkTcFs ||| blkTcPc)

/-- What `blkiomon_fetch_trace` compares. -/
abbrev Key := UInt32 × UInt64 × UInt32

def keyOf (t : BlkIoTrace) : Key := (t.device, t.sector, action t.action)

/-- `sector % TRACE_HASH_SIZE`. -/
def slotOf (k : Key) : Fin 128 := ⟨k.2.1.toNat % 128, Nat.mod_lt _ (by norm_num)⟩

/-- `thash`. -/
abbrev Thash := Fin 128 → List BlkIoTrace

def blkiomonStoreTrace (thash : Thash) (t : BlkIoTrace) : Thash := Chains.store keyOf slotOf thash t

def blkiomonFetchTrace (thash : Thash) (t : BlkIoTrace) : Option (BlkIoTrace × Thash) :=
  Chains.fetch keyOf slotOf thash (keyOf t)

/-- The older and the younger trace; of two of one time the new one is taken for older. -/
def ordered (tStored t : BlkIoTrace) : BlkIoTrace × BlkIoTrace :=
  if tStored.time < t.time then (tStored, t) else (t, tStored)

/-- An older D and a younger C. -/
def isMatch (tOld tYoung : BlkIoTrace) : Bool := tOld.hasTc blkTcIssue && tYoung.hasTc blkTcComplete

/-- `blkiomon_do_trace`: the table, and the traces to account. -/
def blkiomonDoTrace (thash : Thash) (t : BlkIoTrace) : Thash × Option (BlkIoTrace × BlkIoTrace) :=
  match blkiomonFetchTrace thash t with
  | none => (blkiomonStoreTrace thash t, none)
  | some (tStored, thash) =>
    let (tOld, tYoung) := ordered tStored t
    if isMatch tOld tYoung then (thash, some (tOld, tYoung))
    else (blkiomonStoreTrace thash tYoung, none)

structure Fifo where
  thash : Thash := fun _ => []
  dstats : Dstats := {}

/-- What the loop of `blkiomon_do_fifo` does with a good record, `none` where a division traps. -/
def doRecord (malloc : Bool) (s : Fifo) (t : BlkIoTrace) : Option Fifo :=
  if t.hasTc blkTcDrvData then some s
  else if !t.hasTc (blkTcIssue ||| blkTcComplete) then some s
  else
    match blkiomonDoTrace s.thash t with
    | (thash, none) => some { s with thash }
    | (thash, some (d, c)) => do
      let dstats ← blkiomonAccount malloc s.dstats d c
      some { thash, dstats }

/-- `blkiomon_do_fifo` on the records as converted: a bad one ends it. -/
def blkiomonDoFifo (malloc : Bool) (s : Fifo) : List BlkIoTrace → Option Fifo
  | [] => some s
  | t :: ts =>
    if verifyTrace t then some s
    else (doRecord malloc s t).bind fun s => blkiomonDoFifo malloc s ts

/-! ## One key -/

/-- The trace held for a key, and those accounted, when one more of the key comes. -/
def pairUp (held : Option BlkIoTrace) (t : BlkIoTrace) :
    Option BlkIoTrace × Option (BlkIoTrace × BlkIoTrace) :=
  match held with
  | none => (some t, none)
  | some tStored =>
    let (tOld, tYoung) := ordered tStored t
    if isMatch tOld tYoung then (none, some (tOld, tYoung)) else (some tYoung, none)

theorem pairUp_some (tStored t : BlkIoTrace) : pairUp (some tStored) t =
    if isMatch (ordered tStored t).1 (ordered tStored t).2 then (none, some (ordered tStored t))
    else (some (ordered tStored t).2, none) := rfl

/-- **The table keeps the keys apart.** -/
theorem blkiomonDoTrace_spec {thash : Thash} (h : Chains.Single keyOf thash) (t : BlkIoTrace) :
    Chains.Single keyOf (blkiomonDoTrace thash t).1 ∧
      (∀ k, Chains.held keyOf slotOf (blkiomonDoTrace thash t).1 k =
        if keyOf t = k then (pairUp (Chains.held keyOf slotOf thash k) t).1
        else Chains.held keyOf slotOf thash k) ∧
      (blkiomonDoTrace thash t).2 = (pairUp (Chains.held keyOf slotOf thash (keyOf t)) t).2 := by
  unfold blkiomonDoTrace blkiomonFetchTrace Chains.fetch
  cases hheld : Chains.held keyOf slotOf thash (keyOf t) with
  | none =>
    refine ⟨h.store hheld, fun k => ?_, rfl⟩
    show Chains.held keyOf slotOf (Chains.store keyOf slotOf thash t) k = _
    rw [Chains.held_store]
    split_ifs with hk
    · rw [← hk, hheld]
      rfl
    · rfl
  | some tStored =>
    have hkey : keyOf tStored = keyOf t := Chains.key_of_held hheld
    have hsingle : Chains.Single keyOf (Chains.unlink keyOf slotOf thash (keyOf t)) := h.unlink _
    have hunlink : ∀ k, Chains.held keyOf slotOf (Chains.unlink keyOf slotOf thash (keyOf t)) k =
        if keyOf t = k then none else Chains.held keyOf slotOf thash k := Chains.held_unlink h (keyOf t)
    have hyoung : keyOf (ordered tStored t).2 = keyOf t := by
      unfold ordered
      split_ifs
      · rfl
      · exact hkey
    have hpair : ∀ k, keyOf t = k → Chains.held keyOf slotOf thash k = some tStored :=
      fun k hk => hk ▸ hheld
    rw [pairUp_some]
    by_cases hm : isMatch (ordered tStored t).1 (ordered tStored t).2 = true
    · simp only [Option.map_some, hm, if_true, and_true]
      refine ⟨hsingle, fun k => ?_⟩
      rw [hunlink]
      split_ifs with hk
      · rw [hpair k hk, pairUp_some, if_pos hm]
      · rfl
    · simp only [Option.map_some, hm, Bool.false_eq_true, if_false, and_true]
      refine ⟨hsingle.store ?_, fun k => ?_⟩
      · rw [hyoung, hunlink, if_pos rfl]
      · show Chains.held keyOf slotOf (Chains.store keyOf slotOf _ _) k = _
        rw [Chains.held_store, hunlink, hyoung]
        split_ifs with hk
        · rw [hpair k hk, pairUp_some, if_neg hm]
        · rfl

/-! ## Arrivals of one key -/

/-- The trace that is held once these have come. -/
def holding : Option BlkIoTrace → List BlkIoTrace → Option BlkIoTrace :=
  Runs.run fun held t => some (pairUp held t).1

/-- A dispatch and a completion are a microsecond apart at least, where `t` meets the one held. -/
def Gap (held : Option BlkIoTrace) (t : BlkIoTrace) : Prop :=
  ∀ s ∈ held,
    (s.time < t.time → s.hasTc blkTcIssue → t.hasTc blkTcComplete →
      s.time.toNat + 1000 ≤ t.time.toNat) ∧
    (t.time ≤ s.time → t.hasTc blkTcIssue → s.hasTc blkTcComplete →
      t.time.toNat + 1000 ≤ s.time.toNat)

/-- All the arrivals of a key keep the gap to what is held for it. -/
def Apart (ts : List BlkIoTrace) : Prop :=
  Runs.Along (fun held t => some (pairUp held t).1) Gap none ts

/-- The records that are looked at: those before the first bad one that are of a dispatch or a
completion, and of this key. -/
def arrivals (k : Key) (ts : List BlkIoTrace) : List BlkIoTrace :=
  (ts.takeWhile fun t => !verifyTrace t).filter fun t =>
    !t.hasTc blkTcDrvData && t.hasTc (blkTcIssue ||| blkTcComplete) && keyOf t == k

/-- In order of time the quotient is 0 just if the difference is below 1000. -/
theorem d2cOf_eq_zero_iff {d c : BlkIoTrace} (h : d.time ≤ c.time) :
    d2cOf d c = 0 ↔ ¬ d.time.toNat + 1000 ≤ c.time.toNat := by
  rw [d2cOf, ← UInt64.toNat_inj, UInt64.toNat_div, Word.toNat_sub_of_le h]
  rw [UInt64.le_iff_toNat_le] at h
  show (c.time.toNat - d.time.toNat) / 1000 = 0 ↔ _
  rw [Nat.div_eq_zero_iff]
  omega

/-- **The pairs that come up**, and when their latency is not 0. -/
theorem gap_iff (held : Option BlkIoTrace) (t : BlkIoTrace) :
    Gap held t ↔ ∀ p ∈ (pairUp held t).2, d2cOf p.1 p.2 ≠ 0 := by
  cases held with
  | none => simp [Gap, pairUp]
  | some s =>
    simp only [Gap, Option.mem_def, Option.some.injEq, forall_eq', pairUp_some]
    by_cases hlt : s.time < t.time
    · have hord : ordered s t = (s, t) := if_pos hlt
      have hz := d2cOf_eq_zero_iff hlt.le
      simp only [hord, isMatch, hlt, not_le.mpr hlt]
      cases s.hasTc blkTcIssue <;> cases t.hasTc blkTcComplete <;> simp [hz]
    · have hord : ordered s t = (t, s) := if_neg hlt
      have hz := d2cOf_eq_zero_iff (not_lt.mp hlt)
      simp only [hord, isMatch, hlt, not_lt.mp hlt]
      cases t.hasTc blkTcIssue <;> cases s.hasTc blkTcComplete <;> simp [hz]

/-- The trace held is the youngest that came since the last match. -/
theorem holding_youngest {ts : List BlkIoTrace} {s : BlkIoTrace} (h : holding none ts = some s) :
    ∃ as bs, ts = as ++ bs ∧ holding none as = none ∧ s ∈ bs ∧ ∀ u ∈ bs, u.time ≤ s.time := by
  induction ts using List.reverseRecOn generalizing s with
  | nil => nomatch h
  | append_singleton ts t ih =>
    have hstep : (pairUp (holding none ts) t).1 = some s := by
      rw [holding, Runs.run_append] at h
      exact h
    cases hheld : holding none ts with
    | none =>
      rw [hheld] at hstep
      obtain rfl := Option.some.inj hstep
      exact ⟨ts, [t], rfl, hheld, List.mem_cons_self, by simp⟩
    | some s₀ =>
      obtain ⟨as, bs, rfl, hnone, hmem, hle⟩ := ih hheld
      rw [hheld, pairUp_some] at hstep
      split_ifs at hstep
      obtain rfl := Option.some.inj hstep
      refine ⟨as, bs ++ [t], List.append_assoc _ _ _, hnone, ?_, fun u hu => ?_⟩
      · unfold ordered
        split_ifs
        · exact List.mem_append_right _ List.mem_cons_self
        · exact List.mem_append_left _ hmem
      · unfold ordered
        rcases List.mem_append.mp hu with hu | hu
        · split_ifs with hlt
          · exact (hle u hu).trans hlt.le
          · exact hle u hu
        · rw [List.mem_singleton.mp hu]
          split_ifs with hlt
          · exact le_refl _
          · exact not_lt.mp hlt

/-- **The pairs that are accounted**, over any history: the trace that comes and the youngest since the
last match, in order of time, the older a dispatch and the younger a completion. -/
theorem pairUp_matched {ts : List BlkIoTrace} {t : BlkIoTrace} {p : BlkIoTrace × BlkIoTrace}
    (h : (pairUp (holding none ts) t).2 = some p) :
    ∃ as bs s, ts = as ++ bs ∧ holding none as = none ∧ s ∈ bs ∧ (∀ u ∈ bs, u.time ≤ s.time) ∧
      p = ordered s t ∧ p.1.time ≤ p.2.time ∧ p.1.hasTc blkTcIssue ∧ p.2.hasTc blkTcComplete := by
  cases hheld : holding none ts with
  | none =>
    rw [hheld] at h
    nomatch h
  | some s =>
    rw [hheld, pairUp_some] at h
    split_ifs at h with hm
    obtain rfl := Option.some.inj h
    obtain ⟨as, bs, hts, hnone, hmem, hle⟩ := holding_youngest hheld
    rw [isMatch, Bool.and_eq_true] at hm
    refine ⟨as, bs, s, hts, hnone, hmem, hle, rfl, ?_, hm.1, hm.2⟩
    unfold ordered
    split_ifs with hlt
    · exact hlt.le
    · exact not_lt.mp hlt

/-! ## A stream -/

/-- The record is looked at. -/
def looksAt (t : BlkIoTrace) : Bool :=
  !t.hasTc blkTcDrvData && t.hasTc (blkTcIssue ||| blkTcComplete)

/-- The table holds for each key what has come of it. -/
structure Holds (s : Fifo) (ts : List BlkIoTrace) : Prop where
  single : Chains.Single keyOf s.thash
  held : ∀ k, Chains.held keyOf slotOf s.thash k = holding none (ts.filter (keyOf · == k))

theorem holds_nil : Holds {} [] := ⟨Chains.single_nil, fun _ => rfl⟩

theorem blkiomonAccount_isSome_iff (malloc : Bool) (s : Dstats) (d c : BlkIoTrace) :
    (blkiomonAccount malloc s d c).isSome ↔ d2cOf d c ≠ 0 := by
  unfold blkiomonAccount
  split_ifs with h
  · simp [h]
  · cases blkiomonGetDstat malloc s d.device <;> simp [h]

theorem doRecord_of_looksAt (malloc : Bool) (s : Fifo) {t : BlkIoTrace} (ht : looksAt t = true) :
    ((blkiomonDoTrace s.thash t).2 = none →
      doRecord malloc s t = some { s with thash := (blkiomonDoTrace s.thash t).1 }) ∧
    ∀ p, (blkiomonDoTrace s.thash t).2 = some p →
      doRecord malloc s t = (blkiomonAccount malloc s.dstats p.1 p.2).map fun dstats =>
        { thash := (blkiomonDoTrace s.thash t).1, dstats } := by
  rw [looksAt, Bool.and_eq_true, Bool.not_eq_true'] at ht
  unfold doRecord
  rw [ht.1, ht.2]
  rcases blkiomonDoTrace s.thash t with ⟨thash, pair⟩
  constructor
  · rintro rfl
    rfl
  · rintro p rfl
    cases haccount : blkiomonAccount malloc s.dstats p.1 p.2 <;> simp [haccount]

theorem holding_concat (k : Key) (ts : List BlkIoTrace) (t : BlkIoTrace) :
    holding none ((ts ++ [t]).filter (keyOf · == k)) =
      if keyOf t = k then (pairUp (holding none (ts.filter (keyOf · == k))) t).1
      else holding none (ts.filter (keyOf · == k)) := by
  rw [List.filter_append, holding, Runs.run_append]
  split_ifs with hk <;> simp [hk]

/-- **One record**: it traps just if it does not keep its gap, and goes on holding what it should. -/
theorem doRecord_holds {s : Fifo} {ts : List BlkIoTrace} (h : Holds s ts) (malloc : Bool)
    {t : BlkIoTrace} (ht : looksAt t = true) :
    ((doRecord malloc s t).isSome ↔ Gap (holding none (ts.filter (keyOf · == keyOf t))) t) ∧
      ∀ s' ∈ doRecord malloc s t, Holds s' (ts ++ [t]) := by
  obtain ⟨hsingle, hheld, hpair⟩ := blkiomonDoTrace_spec h.single t
  obtain ⟨hnone, hsome⟩ := doRecord_of_looksAt malloc s ht
  rw [h.held] at hpair
  have hholds : ∀ dstats, Holds { thash := (blkiomonDoTrace s.thash t).1, dstats } (ts ++ [t]) := by
    refine fun dstats => ⟨hsingle, fun k => ?_⟩
    rw [hheld, h.held, holding_concat]
  rw [gap_iff, ← hpair]
  cases hdo : (blkiomonDoTrace s.thash t).2 with
  | none =>
    rw [hnone hdo]
    refine ⟨by simp, fun s' hs' => ?_⟩
    rw [← Option.some.inj hs']
    exact hholds s.dstats
  | some p =>
    rw [hsome p hdo]
    refine ⟨?_, fun s' hs' => ?_⟩
    · simp [blkiomonAccount_isSome_iff]
    · obtain ⟨dstats, -, rfl⟩ := Option.map_eq_some_iff.mp hs'
      exact hholds dstats

theorem doRecord_of_not_looksAt (malloc : Bool) (s : Fifo) {t : BlkIoTrace}
    (ht : looksAt t = false) : doRecord malloc s t = some s := by
  unfold doRecord
  rw [looksAt, Bool.and_eq_false_iff] at ht
  rcases ht with ht | ht
  · rw [Bool.not_eq_false'] at ht
    rw [if_pos ht]
  · rw [ht]
    simp

theorem arrivals_eq (k : Key) (ts : List BlkIoTrace) : arrivals k ts =
    ((ts.takeWhile fun t => !verifyTrace t).filter looksAt).filter (keyOf · == k) := by
  rw [List.filter_filter, arrivals]
  apply List.filter_congr
  intro t _
  rw [looksAt, Bool.and_comm]

/-- **A stream**, with what came before it. -/
theorem blkiomonDoFifo_isSome_iff (malloc : Bool) {s : Fifo} {ts : List BlkIoTrace}
    (h : Holds s ts) (records : List BlkIoTrace) :
    (blkiomonDoFifo malloc s records).isSome ↔
      ∀ k, Runs.Along (fun held t => some (pairUp held t).1) Gap
        (holding none (ts.filter (keyOf · == k))) (arrivals k records) := by
  induction records generalizing s ts with
  | nil => exact ⟨fun _ k => .nil _, fun _ => rfl⟩
  | cons t records ih =>
    rw [blkiomonDoFifo]
    cases hbad : verifyTrace t with
    | true =>
      have harr : ∀ k, arrivals k (t :: records) = [] := by simp [arrivals, hbad]
      simp only [harr]
      exact ⟨fun _ k => .nil _, fun _ => rfl⟩
    | false =>
      rw [if_neg Bool.false_ne_true]
      cases ht : looksAt t with
      | false =>
        have harr : ∀ k, arrivals k (t :: records) = arrivals k records := by
          intro k
          rw [arrivals_eq, arrivals_eq, List.takeWhile_cons_of_pos (by simp [hbad]),
            List.filter_cons_of_neg (by simp [ht])]
        rw [doRecord_of_not_looksAt malloc s ht, Option.bind_some, ih h]
        simp only [harr]
      | true =>
        have harr : ∀ k, arrivals k (t :: records) =
            if keyOf t = k then t :: arrivals k records else arrivals k records := by
          intro k
          rw [arrivals_eq, arrivals_eq, List.takeWhile_cons_of_pos (by simp [hbad]),
            List.filter_cons_of_pos ht, List.filter_cons]
          simp only [beq_iff_eq]
        obtain ⟨hgap, hnext⟩ := doRecord_holds h malloc ht
        cases hrec : doRecord malloc s t with
        | none =>
          rw [hrec] at hgap
          refine ⟨fun hsome => (nomatch hsome), fun hall => ?_⟩
          have hkey := hall (keyOf t)
          rw [harr, if_pos rfl, Runs.along_cons] at hkey
          exact absurd (hgap.mpr hkey.1) (by simp)
        | some s' =>
          rw [hrec] at hgap
          have hkeeps := hgap.mp rfl
          rw [Option.bind_some, ih (hnext s' hrec)]
          refine forall_congr' fun k => ?_
          rw [holding_concat, harr]
          split_ifs with hk
          · subst hk
            rw [Runs.along_cons]
            exact ⟨fun hall => ⟨hkeeps, hall⟩, And.right⟩
          · rfl

/-- **`blkiomon` divides by zero** just where a dispatch and a completion that it takes for a pair are
less than a microsecond apart. -/
theorem no_trap_iff (malloc : Bool) (records : List BlkIoTrace) :
    (blkiomonDoFifo malloc {} records).isSome ↔ ∀ k, Apart (arrivals k records) :=
  blkiomonDoFifo_isSome_iff malloc holds_nil records

/-- A read of one page, completed half a microsecond after its dispatch. -/
theorem traps_at_once : ¬ (blkiomonDoFifo true {}
    [{ magic := 0x65617407, sequence := 1, time := 5000, sector := 8, bytes := 4096,
       action := 0x00410007, pid := 1, device := 0x800000, cpu := 0, error := 0, pduLen := 0,
       pdu := [] },
     { magic := 0x65617407, sequence := 2, time := 5500, sector := 8, bytes := 4096,
       action := 0x00810008, pid := 0, device := 0x800000, cpu := 0, error := 0, pduLen := 0,
       pdu := [] }]).isSome := by
  decide

/-! ## The order of arrival -/

/-- Two traces, one after the other: the table, and the traces to account. -/
def doTwo (thash : Thash) (t u : BlkIoTrace) : Thash × List (BlkIoTrace × BlkIoTrace) :=
  let first := blkiomonDoTrace thash t
  let second := blkiomonDoTrace first.1 u
  (second.1, first.2.toList ++ second.2.toList)

/-- Two traces of a key that nothing is held for. -/
theorem doTwo_eq {thash : Thash} {t u : BlkIoTrace} (hkey : keyOf t = keyOf u)
    (hnone : Chains.held keyOf slotOf thash (keyOf t) = none) :
    doTwo thash t u =
      if isMatch (ordered t u).1 (ordered t u).2 then (thash, [ordered t u])
      else (blkiomonStoreTrace thash (ordered t u).2, []) := by
  have hfirst : blkiomonDoTrace thash t = (blkiomonStoreTrace thash t, none) := by
    rw [blkiomonDoTrace, blkiomonFetchTrace, Chains.fetch, hnone]
    rfl
  have hfetch : blkiomonFetchTrace (blkiomonStoreTrace thash t) u = some (t, thash) := by
    rw [blkiomonFetchTrace, ← hkey]
    exact Chains.fetch_store thash t
  unfold doTwo
  dsimp only
  rw [hfirst, blkiomonDoTrace, hfetch]
  dsimp only
  split_ifs
  · rfl
  · rfl

/-- A table with one more trace is another table. -/
theorem blkiomonStoreTrace_ne (thash : Thash) (t : BlkIoTrace) : blkiomonStoreTrace thash t ≠ thash := by
  intro h
  have hchain := congrFun h (slotOf (keyOf t))
  rw [blkiomonStoreTrace, Chains.store, Function.update_self] at hchain
  exact List.cons_ne_self _ _ hchain

/-- **In either order** a dispatch and a later completion leave the table as it was, and are accounted. -/
theorem doTwo_of_lt {thash : Thash} {d c : BlkIoTrace} (hkey : keyOf d = keyOf c)
    (hd : d.hasTc blkTcIssue = true) (hc : c.hasTc blkTcComplete = true)
    (hnone : Chains.held keyOf slotOf thash (keyOf d) = none) (hlt : d.time < c.time) :
    doTwo thash d c = (thash, [(d, c)]) ∧ doTwo thash c d = (thash, [(d, c)]) := by
  have hmatch : isMatch d c = true := by
    rw [isMatch, hd, hc]
    rfl
  have hdc : ordered d c = (d, c) := if_pos hlt
  have hcd : ordered c d = (d, c) := if_neg (UInt64.not_lt.mpr hlt.le)
  constructor
  · rw [doTwo_eq hkey hnone, hdc, if_pos hmatch]
  · rw [doTwo_eq hkey.symm (hkey ▸ hnone), hcd, if_pos hmatch]

/-- **The order of arrival** makes no difference just if the dispatch is the earlier one, and not of the
same time: of two traces of one time the one that comes last is taken for the older. -/
theorem order_iff {thash : Thash} {d c : BlkIoTrace} (hkey : keyOf d = keyOf c)
    (hd : d.hasTc blkTcIssue = true) (hc : c.hasTc blkTcComplete = true)
    (hnone : Chains.held keyOf slotOf thash (keyOf d) = none) (hle : d.time ≤ c.time) :
    doTwo thash d c = doTwo thash c d ↔ d.time < c.time ∨ d = c := by
  constructor
  · intro hsame
    refine (lt_or_eq_of_le hle).imp_right fun heq => ?_
    have hdc : ordered d c = (c, d) := if_neg (by rw [heq]; exact lt_irrefl _)
    have hcd : ordered c d = (d, c) := if_neg (by rw [heq]; exact lt_irrefl _)
    have hmatch : isMatch d c = true := by
      rw [isMatch, hd, hc]
      rfl
    rw [doTwo_eq hkey hnone, doTwo_eq hkey.symm (hkey ▸ hnone), hdc, hcd, if_pos hmatch] at hsame
    split_ifs at hsame
    · exact (Prod.mk.inj (List.singleton_inj.mp (Prod.mk.inj hsame).2)).2
    · exact absurd (Prod.mk.inj hsame).1 (blkiomonStoreTrace_ne thash d)
  · rintro (hlt | rfl)
    · obtain ⟨hdc, hcd⟩ := doTwo_of_lt hkey hd hc hnone hlt
      rw [hdc, hcd]
    · rfl

/-- The dispatch of a read of one page. -/
def readIssued (time : UInt64) : BlkIoTrace where
  magic := 0x65617407
  sequence := 1
  time := time
  sector := 8
  bytes := 4096
  action := 0x00410007
  pid := 1
  device := 0x800000
  cpu := 0
  error := 0
  pduLen := 0
  pdu := []

/-- Its completion. -/
def readCompleted (time : UInt64) : BlkIoTrace :=
  { readIssued time with sequence := 2, action := 0x00810008, pid := 0 }

theorem order_iff_apart :
    doTwo (fun _ => []) (readIssued 5000) (readCompleted 7000) =
      doTwo (fun _ => []) (readCompleted 7000) (readIssued 5000) :=
  (order_iff (by decide) (by decide) (by decide) rfl (by decide)).mpr
    (.inl (by decide))

/-- At one time, and the dispatch first: it stays in the table. -/
theorem not_order : ¬ (doTwo (fun _ => []) (readIssued 5000) (readCompleted 5000) =
    doTwo (fun _ => []) (readCompleted 5000) (readIssued 5000)) := by
  intro h
  have haccounted := congrArg (fun r => r.2.length) h
  revert haccounted
  decide

end Blktrace.Blkiomon
