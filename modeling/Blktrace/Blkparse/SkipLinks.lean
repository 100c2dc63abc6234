import Blktrace.Lib.Linked
import Blktrace.Lib.Runs
import Blktrace.Blkparse.SkipSet

/-!
# The links of the skip list

The nodes of a skip list in memory, linked both ways. What the list does is what the list of their ranges
does, and the links stay those of one list.
-/

namespace Blktrace.Blkparse

/-- The address of a `struct skip_info`. -/
abbrev SipAddr := ℕ

/-- The nodes, and the ends of the list. `live` are those that `malloc` gave and `free` did not take
back. -/
structure SkipLinks where
  info : SipAddr → SkipInfo
  prev : SipAddr → Option SipAddr
  next : SipAddr → Option SipAddr
  skipsHead : Option SipAddr := none
  skipsTail : Option SipAddr := none
  live : Finset SipAddr := ∅

namespace SkipLinks

/-- The loop of `insert_skip`, for at most `fuel` turns. -/
def joinLoop (s : SkipLinks) (start stop : UInt64) : ℕ → Option SipAddr → Option SkipLinks
  | 0, _ => none
  | _ + 1, none => none
  | fuel + 1, some sip =>
    if stop = (s.info sip).start - 1 then
      some { s with info := Function.update s.info sip { s.info sip with start := start } }
    else if start = (s.info sip).stop + 1 then
      some { s with info := Function.update s.info sip { s.info sip with stop := stop } }
    else s.joinLoop start stop fuel (s.prev sip)

/-- A new node behind the last one; `malloc` is a block that is not in use. -/
def append (s : SkipLinks) (malloc : SipAddr) (start stop : UInt64) : SkipLinks :=
  let s :=
    { s with
      info := Function.update s.info malloc ⟨start, stop⟩
      prev := Function.update s.prev malloc none
      next := Function.update s.next malloc none
      live := insert malloc s.live }
  match s.skipsTail with
  | none => { s with skipsHead := some malloc, skipsTail := some malloc }
  | some tail =>
    { s with
      prev := Function.update s.prev malloc (some tail)
      next := Function.update s.next tail (some malloc)
      skipsTail := some malloc }

/-- `insert_skip`. The list is not longer than there are nodes. -/
def insertSkip (s : SkipLinks) (malloc : SipAddr) (start stop : UInt64) : SkipLinks :=
  (s.joinLoop start stop s.live.card s.skipsTail).getD (s.append malloc start stop)

/-- `remove_sip`. -/
def removeSip (s : SkipLinks) (sip : SipAddr) : SkipLinks :=
  let s :=
    match s.prev sip, s.next sip with
    | none, none => { s with skipsHead := none, skipsTail := none }
    | none, some next => { s with skipsHead := some next, prev := Function.update s.prev next none }
    | some prev, none => { s with skipsTail := some prev, next := Function.update s.next prev none }
    | some prev, some next =>
      { s with
        next := Function.update s.next prev (some next)
        prev := Function.update s.prev next (some prev) }
  { s with
    prev := Function.update s.prev sip none
    next := Function.update s.next sip none
    live := s.live.erase sip }

/-- The loop of `check_current_skips` up to a range that the number is in. -/
def findSkip (s : SkipLinks) (seq : UInt64) : ℕ → Option SipAddr → Option SipAddr
  | 0, _ => none
  | _ + 1, none => none
  | fuel + 1, some sip => if (s.info sip).inSkip seq then some sip else s.findSkip seq fuel (s.prev sip)

/-- What it does with the range. -/
def punch (s : SkipLinks) (malloc : SipAddr) (seq : UInt64) (sip : SipAddr) : SkipLinks :=
  if (s.info sip).start = seq then
    if (s.info sip).stop = seq then s.removeSip sip
    else { s with info := Function.update s.info sip { s.info sip with start := (s.info sip).start + 1 } }
  else if (s.info sip).stop = seq then
    { s with info := Function.update s.info sip { s.info sip with stop := (s.info sip).stop - 1 } }
  else
    let s := { s with info := Function.update s.info sip { s.info sip with stop := seq - 1 } }
    s.insertSkip malloc (seq + 1) (s.info sip).stop

/-- `check_current_skips`. -/
def checkCurrentSkips (s : SkipLinks) (malloc : SipAddr) (seq : UInt64) : SkipLinks × Bool :=
  match s.findSkip seq s.live.card s.skipsTail with
  | some sip => (s.punch malloc seq sip, true)
  | none => (s, false)

/-- The ranges, from the tail on. -/
def sips (s : SkipLinks) : List SkipInfo := (Linked.walk s.prev s.live.card s.skipsTail).map s.info

/-- `seq_skips` of `collect_pdi_skips`, for one CPU: from the head on. -/
def seqSkips (s : SkipLinks) : UInt64 :=
  Blkparse.seqSkips ((Linked.walk s.next s.live.card s.skipsHead).map s.info)

/-- The numbers. -/
def set (s : SkipLinks) : Finset ℕ := skipped s.sips

end SkipLinks

/-! ## The nodes as a list -/

/-- The links are those of one list, of all the nodes. -/
structure Nodes (s : SkipLinks) (l : List SipAddr) : Prop where
  links : Linked.Double s.prev s.next s.skipsHead s.skipsTail l
  live : ∀ sip, sip ∈ l ↔ sip ∈ s.live

section

variable {s : SkipLinks} {l : List SipAddr} {start stop seq : UInt64} {malloc sip : SipAddr}

theorem Nodes.length_eq (h : Nodes s l) : l.length = s.live.card := by
  have hset : l.toFinset = s.live := by
    ext a
    rw [List.mem_toFinset, h.live]
  rw [← hset, List.toFinset_card_of_nodup h.links.nodup]

theorem Nodes.sips_eq (h : Nodes s l) : s.sips = l.map s.info :=
  congrArg _ (h.links.back.walk_eq h.length_eq.le)

theorem Nodes.seqSkips_eq (h : Nodes s l) : s.seqSkips = seqSkips (l.reverse.map s.info) := by
  unfold SkipLinks.seqSkips
  rw [h.links.forth.walk_eq (by rw [List.length_reverse, h.length_eq])]

/-- The range of one node changes. -/
theorem map_update {info : SipAddr → SkipInfo} {l₁ l₂ : List SipAddr} (h : (l₁ ++ sip :: l₂).Nodup)
    (r : SkipInfo) :
    (l₁ ++ sip :: l₂).map (Function.update info sip r) = l₁.map info ++ r :: l₂.map info := by
  obtain ⟨-, hright, hcross⟩ := List.nodup_append.mp h
  have hl₁ : l₁.map (Function.update info sip r) = l₁.map info :=
    List.map_congr_left fun a ha => Function.update_of_ne (hcross a ha sip List.mem_cons_self) _ _
  have hl₂ : l₂.map (Function.update info sip r) = l₂.map info := by
    refine List.map_congr_left fun a ha => Function.update_of_ne ?_ _ _
    rintro rfl
    exact (List.nodup_cons.mp hright).1 ha
  rw [List.map_append, List.map_cons, hl₁, hl₂, Function.update_self]

/-- The loop of `insert_skip` goes as over the ranges. -/
theorem joinLoop_spec {pre : List SipAddr} {fuel : ℕ} {p : Option SipAddr} (h : Linked.Chain s.prev p l)
    (hfuel : l.length ≤ fuel) (hnodup : (pre ++ l).Nodup) :
    match joinSkip start stop (l.map s.info) with
    | none => s.joinLoop start stop fuel p = none
    | some sips => ∃ info, s.joinLoop start stop fuel p = some { s with info } ∧
        (pre ++ l).map info = pre.map s.info ++ sips := by
  induction l generalizing pre fuel p with
  | nil =>
    obtain rfl : p = none := h
    cases fuel <;> rfl
  | cons a l ih =>
    obtain ⟨fuel, rfl⟩ := Nat.exists_eq_add_one_of_ne_zero (Nat.ne_of_gt (Nat.zero_lt_of_lt hfuel))
    obtain ⟨rfl, hl⟩ := h
    rw [List.map_cons, joinSkip, SkipLinks.joinLoop]
    split_ifs with hlow hhigh
    · exact ⟨_, rfl, map_update hnodup _⟩
    · exact ⟨_, rfl, map_update hnodup _⟩
    · have hrest := @ih (pre ++ [a]) fuel (s.prev a) hl (Nat.le_of_succ_le_succ hfuel)
        (by rwa [List.append_assoc, List.singleton_append])
      cases hjoin : joinSkip start stop (l.map s.info) with
      | none =>
        rw [hjoin] at hrest
        exact hrest
      | some sips =>
        rw [hjoin] at hrest
        obtain ⟨info, hloop, hmap⟩ := hrest
        refine ⟨info, hloop, ?_⟩
        rw [List.append_assoc, List.singleton_append] at hmap
        rw [hmap, List.map_append, List.append_assoc]
        rfl

theorem Nodes.append (h : Nodes s l) (hnew : malloc ∉ s.live) :
    Nodes (s.append malloc start stop) (malloc :: l) ∧
      (malloc :: l).map (s.append malloc start stop).info = ⟨start, stop⟩ :: l.map s.info := by
  have hmem : malloc ∉ l := fun hl => hnew ((h.live malloc).mp hl)
  have hpush := h.links.push hmem
  have hinfo : (s.append malloc start stop).info = Function.update s.info malloc ⟨start, stop⟩ := by
    unfold SkipLinks.append
    dsimp only
    cases s.skipsTail <;> rfl
  have hlive : (s.append malloc start stop).live = insert malloc s.live := by
    unfold SkipLinks.append
    dsimp only
    cases s.skipsTail <;> rfl
  constructor
  · refine ⟨?_, fun a => ?_⟩
    · unfold SkipLinks.append
      dsimp only
      cases htail : s.skipsTail with
      | none =>
        rw [htail] at hpush
        exact hpush
      | some tail =>
        rw [htail] at hpush
        dsimp only
        rw [Function.update_idem]
        exact hpush
    · rw [hlive, List.mem_cons, Finset.mem_insert, h.live]
  · rw [hinfo]
    exact @map_update _ _ [] _ (List.nodup_cons.mpr ⟨hmem, h.links.nodup⟩) _

/-- **`insert_skip`** does with the nodes what it does with their ranges. -/
theorem Nodes.insertSkip (h : Nodes s l) (hnew : malloc ∉ s.live) (start stop : UInt64) :
    ∃ l', Nodes (s.insertSkip malloc start stop) l' ∧
      l'.map (s.insertSkip malloc start stop).info = insertSkip start stop (l.map s.info) := by
  have hjoin := @joinLoop_spec s l start stop [] _ _ h.links.back h.length_eq.le h.links.nodup
  unfold SkipLinks.insertSkip Blkparse.insertSkip
  cases hlist : joinSkip start stop (l.map s.info) with
  | none =>
    rw [hlist] at hjoin
    rw [hjoin, Option.getD_none, Option.getD_none]
    exact ⟨malloc :: l, h.append hnew⟩
  | some sips =>
    rw [hlist] at hjoin
    obtain ⟨info, hloop, hmap⟩ := hjoin
    rw [hloop, Option.getD_some, Option.getD_some]
    exact ⟨l, ⟨h.links, h.live⟩, hmap⟩

/-- **`remove_sip`** takes a node out of the list. -/
theorem Nodes.removeSip {l₁ l₂ : List SipAddr} (h : Nodes s (l₁ ++ sip :: l₂)) :
    Nodes (s.removeSip sip) (l₁ ++ l₂) ∧ (s.removeSip sip).info = s.info := by
  obtain ⟨-, hright, hcross⟩ := List.nodup_append.mp h.links.nodup
  have hout : sip ∉ l₁ ++ l₂ := by
    intro hmem
    rcases List.mem_append.mp hmem with hmem | hmem
    · exact hcross sip hmem sip List.mem_cons_self rfl
    · exact (List.nodup_cons.mp hright).1 hmem
  have hout' : sip ∉ (l₁ ++ l₂).reverse := fun hmem => hout (List.mem_reverse.mp hmem)
  have hremove := h.links.remove
  have hlive : ∀ a, a ∈ l₁ ++ l₂ ↔ a ∈ s.live.erase sip := by
    intro a
    rw [Finset.mem_erase, ← h.live, List.mem_append, List.mem_append, List.mem_cons]
    constructor
    · intro hmem
      refine ⟨?_, hmem.imp_right .inr⟩
      rintro rfl
      exact hout (List.mem_append.mpr hmem)
    · rintro ⟨hne, hmem | rfl | hmem⟩
      · exact .inl hmem
      · exact absurd rfl hne
      · exact .inr hmem
  unfold SkipLinks.removeSip
  cases hprev : s.prev sip <;> cases hnext : s.next sip <;> rw [hprev, hnext] at hremove
  · exact ⟨⟨⟨hremove.back.frame hout _, hremove.forth.frame hout' _, hremove.nodup⟩, hlive⟩, rfl⟩
  · exact ⟨⟨⟨hremove.back.frame hout _, hremove.forth.frame hout' _, hremove.nodup⟩, hlive⟩, rfl⟩
  · exact ⟨⟨⟨hremove.back.frame hout _, hremove.forth.frame hout' _, hremove.nodup⟩, hlive⟩, rfl⟩
  · exact ⟨⟨⟨hremove.back.frame hout _, hremove.forth.frame hout' _, hremove.nodup⟩, hlive⟩, rfl⟩

/-- The loop of `check_current_skips` goes down to the first range with the number. -/
theorem findSkip_spec {fuel : ℕ} {p : Option SipAddr} (h : Linked.Chain s.prev p l)
    (hfuel : l.length ≤ fuel) :
    (s.findSkip seq fuel p = none ∧ ∀ a ∈ l, (s.info a).inSkip seq = false) ∨
      ∃ l₁ a l₂, l = l₁ ++ a :: l₂ ∧ (∀ b ∈ l₁, (s.info b).inSkip seq = false) ∧
        (s.info a).inSkip seq = true ∧ s.findSkip seq fuel p = some a := by
  induction l generalizing fuel p with
  | nil =>
    obtain rfl : p = none := h
    refine .inl ⟨?_, nofun⟩
    cases fuel <;> rfl
  | cons a l ih =>
    obtain ⟨fuel, rfl⟩ := Nat.exists_eq_add_one_of_ne_zero (Nat.ne_of_gt (Nat.zero_lt_of_lt hfuel))
    obtain ⟨rfl, hl⟩ := h
    rw [SkipLinks.findSkip]
    cases hin : (s.info a).inSkip seq with
    | true => exact .inr ⟨[], a, l, rfl, nofun, hin, if_pos rfl⟩
    | false =>
      rw [if_neg Bool.false_ne_true]
      rcases ih hl (Nat.le_of_succ_le_succ hfuel) with ⟨hnone, hall⟩ | ⟨l₁, b, l₂, rfl, hl₁, hb, hsome⟩
      · exact .inl ⟨hnone, List.forall_mem_cons.mpr ⟨hin, hall⟩⟩
      · exact .inr ⟨a :: l₁, b, l₂, rfl, List.forall_mem_cons.mpr ⟨hin, hl₁⟩, hb, hsome⟩

/-- **`check_current_skips`** does with the nodes what it does with their ranges. -/
theorem Nodes.checkCurrentSkips (h : Nodes s l) (hnew : malloc ∉ s.live) (seq : UInt64) :
    match checkCurrentSkips seq (l.map s.info) with
    | none => s.checkCurrentSkips malloc seq = (s, false)
    | some sips => (s.checkCurrentSkips malloc seq).2 = true ∧
        ∃ l', Nodes (s.checkCurrentSkips malloc seq).1 l' ∧
          l'.map (s.checkCurrentSkips malloc seq).1.info = sips := by
  have hfind := @findSkip_spec s l seq _ _ h.links.back h.length_eq.le
  unfold SkipLinks.checkCurrentSkips Blkparse.checkCurrentSkips
  rcases hfind with ⟨hnone, hall⟩ | ⟨l₁, a, l₂, rfl, hl₁, ha, hsome⟩
  · have hpunch : punchSkip seq (l.map s.info) = none := by
      apply punchSkip_eq_none
      intro hmem
      obtain ⟨sip, hsip, hin⟩ := mem_skipped.mp hmem
      obtain ⟨a, hal, rfl⟩ := List.mem_map.mp hsip
      exact absurd (inSkip_iff.mpr hin) (by rw [hall a hal]; exact Bool.false_ne_true)
    rw [hpunch, hnone]
    rfl
  · have hpunch : punchSkip seq (l₁.map s.info ++ s.info a :: l₂.map s.info) = _ :=
      punchSkip_split (List.forall_mem_map.mpr hl₁) ha
    rw [List.map_append, List.map_cons, hpunch, Option.map_some, hsome]
    dsimp only
    refine ⟨rfl, ?_⟩
    have hrange : ∀ r, ∃ l', Nodes { s with info := Function.update s.info a r } l' ∧
        l'.map (Function.update s.info a r) = l₁.map s.info ++ [r] ++ l₂.map s.info := by
      intro r
      refine ⟨l₁ ++ a :: l₂, ⟨h.links, h.live⟩, ?_⟩
      rw [map_update h.links.nodup, List.append_assoc, List.singleton_append]
    unfold SkipLinks.punch punchOne
    split_ifs with hstart hstop hstop
    · obtain ⟨hnodes, hinfo⟩ := h.removeSip
      refine ⟨l₁ ++ l₂, hnodes, ?_⟩
      rw [hinfo, List.map_append, List.append_nil]
    · exact hrange _
    · exact hrange _
    · obtain ⟨l', hnodes, hmap⟩ := hrange { s.info a with stop := seq - 1 }
      obtain ⟨l'', hnodes', hmap'⟩ := hnodes.insertSkip hnew (seq + 1) (seq - 1)
      refine ⟨l'', ?_⟩
      dsimp only
      rw [Function.update_self, ← hmap]
      exact ⟨hnodes', hmap'⟩

end

/-! ## Runs -/

/-- A call of `insert_skip` or `check_current_skips`, with a block for a node if one is needed. -/
inductive SkipOp
  | insert (malloc : SipAddr) (start stop : UInt64)
  | check (malloc : SipAddr) (seq : UInt64)

def skipOp (s : SkipLinks) : SkipOp → Option SkipLinks
  | .insert malloc start stop => if malloc ∈ s.live then none else some (s.insertSkip malloc start stop)
  | .check malloc seq => if malloc ∈ s.live then none else some (s.checkCurrentSkips malloc seq).1

/-- A new range is of new numbers, and not of both ends; a number is not inside a range. -/
def SkipOp.Suits (s : SkipLinks) : SkipOp → Prop
  | .insert _ start stop => start ≤ stop ∧
      (∀ n ∈ s.set, ¬ (start.toNat ≤ n ∧ n ≤ stop.toNat)) ∧
      ¬ BothEnds (s.set ∪ Finset.Icc start.toNat stop.toNat)
  | .check _ seq => ¬ Splits seq s.sips

instance (seq : UInt64) (sips : List SkipInfo) : Decidable (Splits seq sips) := by
  unfold Splits
  infer_instance

instance (s : SkipLinks) (op : SkipOp) : Decidable (op.Suits s) := by
  cases op <;> unfold SkipOp.Suits <;> infer_instance

/-- The call does with the set what it should, and returns what it should. -/
def SkipOp.Right (s : SkipLinks) : SkipOp → Prop
  | .insert malloc start stop => malloc ∉ s.live →
      (s.insertSkip malloc start stop).set = s.set ∪ Finset.Icc start.toNat stop.toNat
  | .check malloc seq => malloc ∉ s.live →
      (seq.toNat ∈ s.set → (s.checkCurrentSkips malloc seq).2 = true ∧
        (s.checkCurrentSkips malloc seq).1.set = s.set.erase seq.toNat) ∧
      (seq.toNat ∉ s.set → s.checkCurrentSkips malloc seq = (s, false))

/-- The list is in order: its links are those of one list, no range is empty and no two share a
number. -/
structure SkipLinks.Ok (s : SkipLinks) : Prop where
  links : ∃ l, Nodes s l
  ranges : RangesOk s.sips
  ends : ¬ BothEnds s.set

theorem SkipLinks.Ok.seqSkips {s : SkipLinks} (h : s.Ok) : s.seqSkips.toNat = s.set.card := by
  obtain ⟨l, hl⟩ := h.links
  have hranges := h.ranges
  have hends := h.ends
  unfold SkipLinks.set at hends ⊢
  rw [hl.sips_eq] at hranges hends ⊢
  have hperm : (l.map s.info).Perm (l.reverse.map s.info) := (l.reverse_perm.map s.info).symm
  rw [hl.seqSkips_eq]
  rw [skipped_perm hperm] at hends ⊢
  exact RangesOk.toNat_seqSkips ((Intervals.parted_perm (hperm.map SkipInfo.interval)).mp hranges) hends

/-- The nodes, once their ranges are known. -/
theorem Nodes.ok {s : SkipLinks} {l : List SipAddr} (h : Nodes s l) (hranges : RangesOk (l.map s.info))
    (hends : ¬ BothEnds (skipped (l.map s.info))) : s.Ok := by
  refine ⟨⟨l, h⟩, ?_, ?_⟩
  · rw [h.sips_eq]
    exact hranges
  · rw [SkipLinks.set, h.sips_eq]
    exact hends

/-- **A call.** -/
theorem SkipLinks.Ok.next {s : SkipLinks} (h : s.Ok) {op : SkipOp} (hsuits : op.Suits s) :
    op.Right s ∧ ∀ s', skipOp s op = some s' → s'.Ok := by
  obtain ⟨l, hl⟩ := h.links
  have hranges := h.ranges
  have hends := h.ends
  cases op with
  | insert malloc start stop =>
    obtain ⟨hle, haway, hroom⟩ := hsuits
    rw [UInt64.le_iff_toNat_le] at hle
    unfold SkipLinks.set at haway hroom
    rw [hl.sips_eq] at haway hroom hranges
    obtain ⟨hok, hset⟩ := hranges.insertSkip hle haway hroom
    constructor
    · intro hnew
      obtain ⟨l', hl', hmap⟩ := hl.insertSkip hnew start stop
      rw [SkipLinks.set, hl'.sips_eq, hmap, hset, SkipLinks.set, hl.sips_eq]
    · intro s' hs'
      rw [skipOp] at hs'
      split_ifs at hs' with hnew
      obtain rfl := Option.some.inj hs'
      obtain ⟨l', hl', hmap⟩ := hl.insertSkip hnew start stop
      refine hl'.ok ?_ ?_
      · rw [hmap]
        exact hok
      · rw [hmap, hset]
        exact hroom
  | check malloc seq =>
    replace hsuits : ¬ Splits seq s.sips := hsuits
    unfold SkipLinks.set at hends
    rw [hl.sips_eq] at hsuits hranges hends
    by_cases hin : seq.toNat ∈ skipped (l.map s.info)
    · obtain ⟨sips', hcheck, hok, hset⟩ := hranges.checkCurrentSkips hin hsuits
      have hnodes := fun hnew => @Nodes.checkCurrentSkips s l malloc hl hnew seq
      rw [hcheck] at hnodes
      constructor
      · intro hnew
        obtain ⟨hret, l', hl', hmap⟩ := hnodes hnew
        refine ⟨fun _ => ⟨hret, ?_⟩, fun hnot => absurd ?_ hnot⟩
        · rw [SkipLinks.set, hl'.sips_eq, hmap, hset, SkipLinks.set, hl.sips_eq]
        · rw [SkipLinks.set, hl.sips_eq]
          exact hin
      · intro s' hs'
        rw [skipOp] at hs'
        split_ifs at hs' with hnew
        obtain rfl := Option.some.inj hs'
        obtain ⟨-, l', hl', hmap⟩ := hnodes hnew
        refine hl'.ok ?_ ?_
        · rw [hmap]
          exact hok
        · rw [hmap, hset]
          intro hboth
          exact hends ⟨Finset.mem_of_mem_erase hboth.1, Finset.mem_of_mem_erase hboth.2⟩
    · have hnodes := fun hnew => @Nodes.checkCurrentSkips s l malloc hl hnew seq
      rw [checkCurrentSkips_none hin] at hnodes
      constructor
      · intro hnew
        refine ⟨fun hmem => absurd hmem ?_, fun _ => hnodes hnew⟩
        rw [SkipLinks.set, hl.sips_eq]
        exact hin
      · intro s' hs'
        rw [skipOp] at hs'
        split_ifs at hs' with hnew
        obtain rfl := Option.some.inj hs'
        rw [hnodes hnew]
        exact h

/-- A number inside a range: the one after it is lost. -/
theorem SkipLinks.Ok.not_right {s : SkipLinks} (h : s.Ok) {malloc : SipAddr} {seq : UInt64}
    (hnew : malloc ∉ s.live) (hsplit : Splits seq s.sips) : ¬ (SkipOp.check malloc seq).Right s := by
  obtain ⟨l, hl⟩ := h.links
  have hranges := h.ranges
  rw [hl.sips_eq] at hsplit hranges
  obtain ⟨sips', hcheck, hin, hout⟩ := hranges.checkCurrentSkips_of_splits hsplit
  obtain ⟨sip, hsip, hlo, hhi⟩ := hsplit
  rw [UInt64.lt_iff_toNat_lt] at hlo hhi
  have hnodes := hl.checkCurrentSkips hnew seq
  rw [hcheck] at hnodes
  obtain ⟨-, l', hl', hmap⟩ := hnodes
  intro hright
  have hset := ((hright hnew).1 ?_).2
  · rw [SkipLinks.set, hl'.sips_eq, hmap, SkipLinks.set, hl.sips_eq] at hset
    rw [hset] at hout
    exact hout (Finset.mem_erase.mpr ⟨Nat.succ_ne_self _, hin⟩)
  · rw [SkipLinks.set, hl.sips_eq]
    exact mem_skipped.mpr ⟨sip, hsip, hlo.le, hhi.le⟩

/-- An empty list, whatever the memory holds. -/
def noSkips (info : SipAddr → SkipInfo) (prev next : SipAddr → Option SipAddr) : SkipLinks := { info, prev, next }

theorem ok_noSkips (info : SipAddr → SkipInfo) (prev next : SipAddr → Option SipAddr) :
    (noSkips info prev next).Ok := by
  have hnodes : Nodes (noSkips info prev next) [] := ⟨⟨rfl, rfl, .nil⟩, fun _ => ⟨nofun, nofun⟩⟩
  refine hnodes.ok Intervals.Parted.nil ?_
  rintro ⟨hzero, -⟩
  exact absurd hzero (Finset.notMem_empty 0)

/-- **The skip list is a set of numbers** in every run in which no number is looked up inside a range and
the ranges do not reach both ends: it stays in order, `seq_skips` is its size, and every call does what it
should. -/
theorem skips_run (info : SipAddr → SkipInfo) (prev next : SipAddr → Option SipAddr) {ops : List SkipOp}
    (h : Runs.Along skipOp (fun s op => op.Suits s) (noSkips info prev next) ops) :
    (Runs.run skipOp (noSkips info prev next) ops).Ok ∧
      (Runs.run skipOp (noSkips info prev next) ops).seqSkips.toNat =
        (Runs.run skipOp (noSkips info prev next) ops).set.card ∧
      Runs.Along skipOp (fun s op => op.Right s) (noSkips info prev next) ops := by
  have hstep : ∀ s op s', s.Ok → SkipOp.Suits s op → skipOp s op = some s' → s'.Ok :=
    fun s op s' hs hsuits hs' => (hs.next hsuits).2 s' hs'
  have hok := Runs.run_invariant_of hstep h (ok_noSkips info prev next)
  exact ⟨hok, hok.seqSkips,
    h.of_invariant hstep (fun s op hs hsuits => (hs.next hsuits).1) (ok_noSkips info prev next)⟩

/-- Zeros. -/
def zeroSkips : SkipLinks := noSkips (fun _ => ⟨0, 0⟩) (fun _ => none) (fun _ => none)

theorem skips_run_ends :
    (Runs.run skipOp zeroSkips [.insert 0 1 5, .check 1 7, .check 1 1]).Ok ∧
      (Runs.run skipOp zeroSkips [.insert 0 1 5, .check 1 7, .check 1 1]).seqSkips.toNat =
        (Runs.run skipOp zeroSkips [.insert 0 1 5, .check 1 7, .check 1 1]).set.card ∧
      Runs.Along skipOp (fun s op => op.Right s) zeroSkips [.insert 0 1 5, .check 1 7, .check 1 1] :=
  skips_run _ _ _ (by decide)

/-- 3 is looked up in a list of 1 to 5: 4 and 5 go with it. -/
theorem not_skips : ¬ Runs.Along skipOp (fun s op => op.Right s) zeroSkips [.insert 0 1 5, .check 1 3] := by
  intro h
  have hright := (((h [.insert 0 1 5] (.check 1 3) [] rfl) (by decide)).1 (by decide)).2
  revert hright
  decide

end Blktrace.Blkparse
