import Blktrace.Blkparse.PipeLoops
import Blktrace.Lib.SearchTree

/-!
# The search for a sequence number

`trace_rb_insert` puts a trace into a tree by its time, its device and its sequence number. `trace_rb_find`
does not know the time and goes by the other two. It finds all that is in the tree just if the times put the
traces in no other order.
-/

namespace Blktrace.Blkparse

open SearchTree

/-! ## The code -/

variable (bal : Balancer BlkIoTrace)

/-- `trace_rb_insert`, with the tree that it goes into. -/
def rbInsertTrace (root : RbTree BlkIoTrace) (bit : BlkIoTrace) : RbTree BlkIoTrace :=
  bal.insertColor bit (root.attach (fun other => goesLeft bit other) bit)

/-- The tree that the traces are put into, one after another. -/
def rbTreeOf (bits : List BlkIoTrace) : RbTree BlkIoTrace := bits.foldl (rbInsertTrace bal) .nil

/-- `trace_rb_find`. `above` is what comes after the subtree, and `next` what comes after the last node that
was visited: with an `order` five of these are tried. -/
def traceRbFind (device sequence : UInt64) (order : Bool) :
    RbTree BlkIoTrace → List BlkIoTrace → List BlkIoTrace → Option BlkIoTrace
  | .nil, _, next =>
    if order then
      (next.take 5).find? fun t => t.device.toUInt64 = device && t.sequence.toUInt64 = sequence
    else none
  | .node _ l t r, above, _ =>
    if device < t.device.toUInt64 then
      traceRbFind device sequence order l (t :: (r.toList ++ above)) (r.toList ++ above)
    else if device > t.device.toUInt64 then traceRbFind device sequence order r above (r.toList ++ above)
    else if sequence < t.sequence.toUInt64 then
      traceRbFind device sequence order l (t :: (r.toList ++ above)) (r.toList ++ above)
    else if sequence > t.sequence.toUInt64 then traceRbFind device sequence order r above (r.toList ++ above)
    else some t

/-! ## What it is for -/

/-- No two of the traces have the same device and the same sequence number. -/
def Distinct (bits : List BlkIoTrace) : Prop :=
  bits.Pairwise fun a b => ¬ (a.device = b.device ∧ a.sequence = b.sequence)

/-- The search without an `order` finds the trace with a device and a sequence number, and nothing if there
is none. -/
def FindsLast (root : RbTree BlkIoTrace) (bits : List BlkIoTrace) : Prop :=
  ∀ device sequence t, traceRbFind device sequence false root [] [] = some t ↔
    t ∈ bits ∧ t.device.toUInt64 = device ∧ t.sequence.toUInt64 = sequence

/-- An earlier trace is of a smaller device, or of the same with a smaller sequence number. -/
def TimesAgree (bits : List BlkIoTrace) : Prop :=
  ∀ a ∈ bits, ∀ b ∈ bits, a.time < b.time →
    a.device < b.device ∨ a.device = b.device ∧ a.sequence < b.sequence

/-! ## The tree in order -/

/-- What the search goes by. -/
def findKey (t : BlkIoTrace) : ℕ ×ₗ ℕ := toLex (t.device.toNat, t.sequence.toNat)

theorem findKey_eq_iff {a b : BlkIoTrace} :
    findKey a = findKey b ↔ a.device = b.device ∧ a.sequence = b.sequence := by
  rw [findKey, findKey, toLex_inj, Prod.mk.injEq, UInt32.toNat_inj, UInt32.toNat_inj]

theorem findKey_lt_iff {a b : BlkIoTrace} :
    findKey a < findKey b ↔ a.device < b.device ∨ a.device = b.device ∧ a.sequence < b.sequence := by
  rw [findKey, findKey, Prod.Lex.toLex_lt_toLex, UInt32.lt_iff_toNat_lt, UInt32.lt_iff_toNat_lt,
    UInt32.toNat_inj]

/-- The order of the tree is that of the times, and of the keys at the same time. -/
theorem orderKey_le_iff {a b : BlkIoTrace} :
    orderKey a ≤ orderKey b ↔ a.time < b.time ∨ a.time = b.time ∧ findKey a ≤ findKey b := by
  rw [orderKey, orderKey, Prod.Lex.toLex_le_toLex, UInt64.lt_iff_toNat_lt, UInt64.toNat_inj]
  rfl

variable {bal} {bits : List BlkIoTrace}

/-- The tree in order is the list that `traceRbInsertBit` makes. -/
theorem toList_rbInsertTrace {root : RbTree BlkIoTrace}
    (hsorted : root.toList.Pairwise fun a b => orderKey a ≤ orderKey b) (bit : BlkIoTrace) :
    (rbInsertTrace bal root bit).toList = traceRbInsertBit bit root.toList ∧
      (rbInsertTrace bal root bit).toList.Perm (bit :: root.toList) ∧
      (rbInsertTrace bal root bit).toList.Pairwise fun a b => orderKey a ≤ orderKey b := by
  have hmono : root.toList.Pairwise fun a b => goesLeft bit a = true → goesLeft bit b = true := by
    refine hsorted.imp fun {a b} hle hleft => ?_
    rw [goesLeft_iff] at hleft ⊢
    exact hleft.trans_le hle
  obtain ⟨xs, ys, hroot, hnew, hbelow, habove⟩ := RbTree.toList_attach bit hmono
  rw [rbInsertTrace, bal.toList_insertColor, hnew]
  rw [hroot] at hsorted ⊢
  refine ⟨?_, List.perm_middle, ?_⟩
  · clear hroot hnew hsorted hmono
    induction xs with
    | nil =>
      cases ys with
      | nil => rfl
      | cons y ys => exact (if_pos (habove y List.mem_cons_self)).symm
    | cons x xs ih =>
      obtain ⟨hx, hxs⟩ := List.forall_mem_cons.mp hbelow
      rw [List.cons_append, ih hxs]
      exact (if_neg hx).symm
  · obtain ⟨hxs, hys, hcross⟩ := List.pairwise_append.mp hsorted
    rw [List.pairwise_append, List.pairwise_cons]
    refine ⟨hxs, ⟨fun y hy => ((goesLeft_iff bit y).mp (habove y hy)).le, hys⟩, fun x hx y hy => ?_⟩
    rcases List.mem_cons.mp hy with rfl | hy
    · exact not_lt.mp fun hlt => hbelow x hx ((goesLeft_iff _ _).mpr hlt)
    · exact hcross x hx y hy

/-- **The tree** has the traces, in order. -/
theorem rbTreeOf_spec : (rbTreeOf bal bits).toList.Perm bits ∧
    (rbTreeOf bal bits).toList.Pairwise fun a b => orderKey a ≤ orderKey b := by
  induction bits using List.reverseRecOn with
  | nil => exact ⟨.nil, .nil⟩
  | append_singleton bits bit ih =>
    obtain ⟨hperm, hsorted⟩ := ih
    have hstep : rbTreeOf bal (bits ++ [bit]) = rbInsertTrace bal (rbTreeOf bal bits) bit := by
      rw [rbTreeOf, List.foldl_append]
      rfl
    obtain ⟨-, hperm', hsorted'⟩ := @toList_rbInsertTrace bal _ hsorted bit
    rw [hstep]
    exact ⟨(hperm'.trans (hperm.cons bit)).trans (List.perm_append_singleton bit bits).symm, hsorted'⟩

/-- Its order is that of the search just if the times agree. -/
theorem sorted_iff_timesAgree (hdistinct : Distinct bits) :
    ((rbTreeOf bal bits).toList.Pairwise fun a b => findKey a < findKey b) ↔ TimesAgree bits := by
  obtain ⟨hperm, hsorted⟩ := @rbTreeOf_spec bal bits
  have hne : (rbTreeOf bal bits).toList.Pairwise fun a b => findKey a ≠ findKey b :=
    (hperm.pairwise_iff fun hab => hab.symm).mpr (hdistinct.imp fun hab => mt findKey_eq_iff.mp hab)
  constructor
  · intro hkeys a ha b hb hlt
    refine findKey_lt_iff.mp ?_
    -- the later trace does not come first
    have hall : ∀ ⦃a⦄, a ∈ (rbTreeOf bal bits).toList → ∀ ⦃b⦄, b ∈ (rbTreeOf bal bits).toList →
        a.time < b.time → findKey a < findKey b := by
      refine List.Pairwise.forall_of_forall_of_flip (fun a _ h => absurd h (lt_irrefl _)) ?_ ?_
      · refine hkeys.imp ?_
        intro a b hab _
        exact hab
      · refine hsorted.imp ?_
        intro b a hba hab
        rcases orderKey_le_iff.mp hba with h | ⟨h, -⟩
        · exact absurd (h.trans hab) (lt_irrefl _)
        · exact absurd hab (by rw [h]; exact lt_irrefl _)
    exact hall (hperm.mem_iff.mpr ha) (hperm.mem_iff.mpr hb) hlt
  · intro h
    refine (hsorted.and hne).imp_of_mem fun {a b} ha hb hab => ?_
    rcases orderKey_le_iff.mp hab.1 with hlt | ⟨-, hle⟩
    · exact findKey_lt_iff.mpr (h a (hperm.mem_iff.mp ha) b (hperm.mem_iff.mp hb) hlt)
    · exact lt_of_le_of_ne hle hab.2

/-! ## The search -/

/-- Without an `order` the search is that for a key. -/
theorem traceRbFind_eq_lookup (device sequence : UInt64) (root : RbTree BlkIoTrace)
    (above next : List BlkIoTrace) : traceRbFind device sequence false root above next =
      root.lookup findKey (toLex (device.toNat, sequence.toNat)) := by
  induction root generalizing above next with
  | nil => rfl
  | node c l t r ihl ihr =>
    rw [traceRbFind, RbTree.lookup, ihl, ihr, findKey]
    simp only [Prod.Lex.toLex_lt_toLex, UInt64.lt_iff_toNat_lt, UInt32.toNat_toUInt64, gt_iff_lt]
    split_ifs <;> first | rfl | omega

/-- **`trace_rb_find` is complete** just if the times of the traces agree with their sequence numbers. -/
theorem findsLast_iff (bal : Balancer BlkIoTrace) {bits : List BlkIoTrace} (hdistinct : Distinct bits) :
    FindsLast (rbTreeOf bal bits) bits ↔ TimesAgree bits := by
  obtain ⟨hperm, -⟩ := @rbTreeOf_spec bal bits
  have hne : (rbTreeOf bal bits).toList.Pairwise fun a b => findKey a ≠ findKey b :=
    (hperm.pairwise_iff fun hab => hab.symm).mpr (hdistinct.imp fun hab => mt findKey_eq_iff.mp hab)
  rw [← @sorted_iff_timesAgree bal bits hdistinct]
  have hkey : ∀ (t : BlkIoTrace) (device sequence : UInt64),
      findKey t = toLex (device.toNat, sequence.toNat) ↔
        t.device.toUInt64 = device ∧ t.sequence.toUInt64 = sequence := by
    intro t device sequence
    rw [findKey, toLex_inj, Prod.mk.injEq, ← UInt64.toNat_inj, ← UInt64.toNat_inj, UInt32.toNat_toUInt64,
      UInt32.toNat_toUInt64]
  constructor
  · intro h
    refine RbTree.sorted_of_lookup hne fun t ht => ?_
    have hfound := (h t.device.toUInt64 t.sequence.toUInt64 t).mpr ⟨hperm.mem_iff.mp ht, rfl, rfl⟩
    rw [traceRbFind_eq_lookup] at hfound
    rw [(hkey t t.device.toUInt64 t.sequence.toUInt64).mpr ⟨rfl, rfl⟩]
    exact hfound
  · intro h device sequence t
    rw [traceRbFind_eq_lookup, RbTree.lookup_eq_some h, hperm.mem_iff, hkey]

/-- A record of the CPU with a sequence number, at a time. -/
def lastRecord (sequence : UInt32) (time : UInt64) : BlkIoTrace :=
  { queueRecord 0x800000 0 1 time with sequence }

theorem findsLast_iff_two :
    Distinct [lastRecord 1 10, lastRecord 2 20] ∧
      (FindsLast (rbTreeOf (.plain _) [lastRecord 1 10, lastRecord 2 20]) [lastRecord 1 10, lastRecord 2 20] ↔
        TimesAgree [lastRecord 1 10, lastRecord 2 20]) := by
  have hdistinct : Distinct [lastRecord 1 10, lastRecord 2 20] := by
    unfold Distinct
    decide
  exact ⟨hdistinct, findsLast_iff _ hdistinct⟩

/-- The second record has the smaller sequence number. It is linked to the right, and looked for to the left. -/
theorem not_findsLast :
    Distinct [lastRecord 2 10, lastRecord 1 20] ∧
      ¬ FindsLast (rbTreeOf (.plain _) [lastRecord 2 10, lastRecord 1 20])
        [lastRecord 2 10, lastRecord 1 20] := by
  constructor
  · unfold Distinct
    decide
  · intro h
    have hfound := (h 0x800000 1 (lastRecord 1 20)).mpr (by decide)
    exact absurd hfound (by decide)

end Blktrace.Blkparse
