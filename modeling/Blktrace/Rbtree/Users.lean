import Blktrace.Blkparse.PipeLoops
import Blktrace.Btt.Devs
import Blktrace.Rbtree.Run

/-!
# The trees of the tools

`blkparse` keeps the traces that wait for their turn in a tree, and always takes the first one; `btt` keeps the
IOs of a device in trees by their sectors. Elsewhere these are lists, and trees with some balance or other. What
is in memory comes to the same.
-/

namespace Blktrace.Rbtree

open SearchTree
open SearchTree.RbTree hiding node
open Blkparse (Trace goesLeft orderKey goesLeft_iff traceRbInsert)

/-! ## `blkparse` -/

/-- The descent of `trace_rb_insert`; `content` says which trace a node is part of. -/
def traceDir (content : Ptr → Trace) (a p : Ptr) : Option Side :=
  if goesLeft (content a).bit (content p).bit then some .left else some .right

/-- `trace_rb_insert`, and the turn of `show_entries_rb` that takes the first trace and erases its node. -/
inductive SortOp
  | insert (a : Addr)
  | takeFirst

/-- With the traces that have been taken. -/
def SortOp.run (content : Ptr → Trace) (fuel : ℕ) : SortOp → Heap × List Ptr → Option (Heap × List Ptr)
  | insert a, (h, out) => do
    let h ← rbAdd (traceDir content a) fuel a h
    return (h, out)
  | takeFirst, (h, out) => do
    let n ← rbFirst fuel h
    if n = 0 then return (h, out)
    else
      let h ← rbErase fuel n h
      return (h, out ++ [n])

/-- The nodes in the tree and those that were taken. -/
def SortOp.next (content : Ptr → Trace) : SortOp → List Addr × List Addr → List Addr × List Addr
  | insert a, (l, out) => (addSorted (traceDir content a) a l, out)
  | takeFirst, (l, out) => (l.tail, out ++ l.head?.toList)

/-- The traces that wait and those that were taken, in the list that stands for the tree. -/
def SortOp.list (content : Ptr → Trace) : SortOp → List Trace × List Trace → List Trace × List Trace
  | insert a, (ts, out) => (traceRbInsert (content a) ts, out)
  | takeFirst, (ts, out) => (ts.tail, out ++ ts.head?.toList)

/-- A node is put into the tree that is not there. -/
def SortFits (content : Ptr → Trace) : List SortOp → List Addr × List Addr → Prop
  | [], _ => True
  | op :: ops, s => (∀ a, op = .insert a → a ∉ s.1) ∧ SortFits content ops (op.next content s)

section

variable {content : Ptr → Trace}

theorem orderly_traceDir (content : Ptr → Trace) : Orderly (traceDir content) := by
  have hkey : traceDir content = keyDir (some .right) fun p => orderKey (content p).bit := by
    funext a p
    rw [traceDir, keyDir]
    by_cases hlt : goesLeft (content a).bit (content p).bit = true
    · rw [if_pos hlt, if_pos ((goesLeft_iff _ _).mp hlt)]
    · rw [if_neg hlt, if_neg fun h => hlt ((goesLeft_iff _ _).mpr h), ite_self]
  rw [hkey]
  exact orderly_keyDir (by decide) _

theorem map_addSorted (a : Addr) (l : List Addr) :
    (addSorted (traceDir content a) a l).map (fun p : Addr => content p) =
      traceRbInsert (content a) (l.map fun p : Addr => content p) := by
  induction l with
  | nil => rfl
  | cons b l ih =>
    rw [addSorted, List.map_cons, traceRbInsert, traceDir]
    split_ifs
    · rfl
    · exact congrArg _ ih

/-- The list of the traces is that of the nodes. -/
theorem SortOp.map_next (op : SortOp) (s : List Addr × List Addr) :
    ((op.next content s).1.map (fun p : Addr => content p), (op.next content s).2.map fun p : Addr => content p) =
      op.list content (s.1.map (fun p : Addr => content p), s.2.map fun p : Addr => content p) := by
  obtain ⟨l, out⟩ := s
  cases op with
  | insert a => rw [SortOp.next, SortOp.list, map_addSorted]
  | takeFirst => cases l <;> simp [SortOp.next, SortOp.list]

/-- Memory, tree and list go together. -/
structure Waits (content : Ptr → Trace) (h : Heap) (l : List Addr) : Prop where
  tree : ∃ t, Holds h t ∧ t.RedBlack ∧ t.toList = l
  order : InOrder (traceDir content) l

/-- **One step of the queue.** -/
theorem SortOp.run_spec {op : SortOp} {h : Heap} {l out : List Addr} {fuel : ℕ} (hw : Waits content h l)
    (hfits : ∀ a, op = .insert a → a ∉ l) (hfuel : 2 * Nat.log 2 (l.length + 1) + 2 ≤ fuel) :
    ∃ h', op.run content fuel (h, out.map (·.1)) = some (h', (op.next content (l, out)).2.map (·.1)) ∧
      Waits content h' (op.next content (l, out)).1 := by
  obtain ⟨⟨t, hh, hrb, rfl⟩, horder⟩ := hw
  have hdepth : t.depth + 2 ≤ fuel := by
    have hle := hrb.depth_le
    omega
  cases op with
  | insert a =>
    have ha := hfits a rfl
    obtain ⟨h', hs, hh'⟩ : ∃ h', rbAdd (traceDir content a) fuel a h = some h' ∧ Holds h' _ :=
      rbAdd_spec hh hrb ha hdepth
    refine ⟨h', ?_, ⟨_, hh', redBlack_insertBy hrb, (Op.add a).toList_apply hh.nodup horder⟩, ?_⟩
    · simp only [SortOp.run, hs, Option.bind_eq_bind, Option.bind_some]
      rfl
    · exact (Op.add a).inOrder_spec (orderly_traceDir content) horder
  | takeFirst =>
    have hfirst : rbFirst fuel h = some (headPtr t.toList) := rbEnd_spec (s := .right) hh (by omega)
    cases hlist : t.toList with
    | nil =>
      refine ⟨h, ?_, ⟨t, hh, hrb, hlist⟩, fun b => List.Pairwise.nil⟩
      rw [hlist] at hfirst
      simp only [SortOp.run, hfirst, headPtr, if_true, Option.bind_eq_bind, Option.bind_some]
      simp [SortOp.next]
    | cons a l =>
      rw [hlist] at hfirst
      have ha : a ∈ t.toList := hlist ▸ List.mem_cons_self
      obtain ⟨h', hs, hh'⟩ := rbErase_remove hh hrb ha (show t.depth < fuel by omega)
      have hnodup := hh.nodup
      have hrest : (remove a t).toList = l := by
        rw [toList_remove hnodup, hlist]
        rw [hlist] at hnodup
        have hal := (List.nodup_cons.mp hnodup).1
        rw [List.filter_cons_of_neg (by simp)]
        exact List.filter_eq_self.mpr fun b hb => decide_eq_true fun hba => hal (hba ▸ hb)
      refine ⟨h', ?_, ⟨remove a t, hh', redBlack_remove hrb, hrest⟩, fun b => ?_⟩
      · simp only [SortOp.run, hfirst, headPtr, a.2.1, if_false, hs, Option.bind_eq_bind, Option.bind_some]
        simp [SortOp.next]
      · have hb := horder b
        rw [hlist] at hb
        exact (List.pairwise_cons.mp hb).2

/-- **All steps**: never more than `n` traces wait. -/
theorem sortRun_spec {ops : List SortOp} {h : Heap} {l out : List Addr} {fuel n : ℕ} (hw : Waits content h l)
    (hfits : SortFits content ops (l, out)) (hn : l.length + ops.length ≤ n)
    (hfuel : 2 * Nat.log 2 (n + 1) + 2 ≤ fuel) :
    ∃ (h' : Heap) (l' out' : List Addr),
      ops.foldlM (fun s op => op.run content fuel s) (h, out.map (·.1)) = some (h', out'.map (·.1)) ∧
      Waits content h' l' ∧ l'.length ≤ n ∧
      (l'.map (fun p : Addr => content p), out'.map fun p : Addr => content p) =
        ops.foldl (fun s op => op.list content s)
          (l.map (fun p : Addr => content p), out.map fun p : Addr => content p) := by
  induction ops generalizing h l out with
  | nil => exact ⟨h, l, out, rfl, hw, by simpa using hn, rfl⟩
  | cons op ops ih =>
    rw [List.length_cons] at hn
    have hmono : Nat.log 2 (l.length + 1) ≤ Nat.log 2 (n + 1) := Nat.log_mono_right (by omega)
    have hfuel' : 2 * Nat.log 2 (l.length + 1) + 2 ≤ fuel := by omega
    obtain ⟨h₁, hs₁, hw₁⟩ := SortOp.run_spec hw hfits.1 hfuel'
    have hlen : (op.next content (l, out)).1.length ≤ l.length + 1 := by
      cases op with
      | insert a => exact length_addSorted_le (traceDir content a) a l
      | takeFirst => exact (List.tail_sublist l).length_le.trans (Nat.le_succ _)
    have hrest : SortFits content ops ((op.next content (l, out)).1, (op.next content (l, out)).2) := hfits.2
    obtain ⟨h', l', out', hs, hw', hl', hlist⟩ := ih hw₁ hrest (by omega)
    refine ⟨h', l', out', ?_, hw', hl', ?_⟩
    · rw [List.foldlM_cons, hs₁]
      exact hs
    · rw [hlist, List.foldl_cons, op.map_next]

/-- **The traces leave the tree in the order of the list**, and those that wait are in it. -/
theorem sortTree_run {ops : List SortOp} {fuel : ℕ} (mem : Ptr → Option RbNode) (hfits : SortFits content ops ([], []))
    (hfuel : 2 * Nat.log 2 (ops.length + 1) + 2 ≤ fuel) :
    ∃ h t out p l, ops.foldlM (fun s op => op.run content fuel s) (rbRoot mem, []) = some (h, out) ∧
      Holds h t ∧ rbFirst fuel h = some p ∧ walk .right fuel (ops.length + 1) p h = some l ∧
      (l.map content, out.map content) = ops.foldl (fun s op => op.list content s) ([], []) := by
  have hroot : Waits content (rbRoot mem) [] :=
    ⟨⟨nil, holds_rbRoot mem, redBlack_nil, rfl⟩, fun a => List.Pairwise.nil⟩
  obtain ⟨h, l, out, hs, ⟨⟨t, hh, hrb, rfl⟩, -⟩, hlen, hlist⟩ :=
    sortRun_spec hroot hfits (le_of_eq (Nat.zero_add _)) hfuel
  have hdepth : t.depth < fuel := by
    have hle := hrb.depth_le
    have hmono : Nat.log 2 (t.toList.length + 1) ≤ Nat.log 2 (ops.length + 1) := Nat.log_mono_right (by omega)
    omega
  refine ⟨h, t, _, _, _, hs, hh, rbEnd_spec (s := .right) hh hdepth.le,
    walk_spec (s := .right) (l := []) hh rfl hdepth (show t.toList.length < ops.length + 1 by omega), ?_⟩
  rw [List.map_map, List.map_map]
  exact hlist

/-- Two traces, by their times. -/
def twoTraces (p : Ptr) : Trace :=
  ⟨⟨0, 1, UInt64.ofNat p.toNat, 0, 0, 0, 0, 0, 0, 0, 0, []⟩, 0⟩

theorem sortTree_run_two : ∃ h t out p l,
    [SortOp.insert addr16, .insert addr8, .takeFirst].foldlM (fun s op => op.run twoTraces 6 s)
        (rbRoot fun _ => none, []) = some (h, out) ∧
      Holds h t ∧ rbFirst 6 h = some p ∧ walk .right 6 4 p h = some l ∧
      (l.map twoTraces, out.map twoTraces) =
        [SortOp.insert addr16, .insert addr8, .takeFirst].foldl (fun s op => op.list twoTraces s) ([], []) :=
  sortTree_run _ (by simp [SortFits, SortOp.next, addSorted, traceDir, addr8, addr16]) (by decide)

end

/-! ## `btt` -/

/-- The comparisons of `rb_insert`; `content` says which IO a node is part of. -/
def iopDir (content : Ptr → Btt.Iop) : Ptr → Ptr → Option Side := keyDir none fun p => (content p).bitStart

/-- The tree of a device, balanced in some way: a record whose sector is taken is not put in. -/
def dipStep (content : Ptr → Btt.Iop) (bal : Balancer Btt.Iop) (root : RbTree Btt.Iop) : Op → RbTree Btt.Iop
  | .add a => (Btt.rbInsert bal root (content a)).getD root
  | .erase a => bal.erase (content a) root

section

variable {content : Ptr → Btt.Iop}

theorem iopDir_eq_left {a p : Ptr} : iopDir content a p = some .left ↔ (content a).bitStart < (content p).bitStart := by
  rw [iopDir, keyDir]
  split_ifs with hlt hgt
  · exact iff_of_true rfl hlt
  · exact iff_of_false (fun h => by cases h) hlt
  · exact iff_of_false (fun h => by cases h) hlt

theorem iopDir_eq_right {a p : Ptr} : iopDir content a p = some .right ↔ (content p).bitStart < (content a).bitStart := by
  rw [iopDir, keyDir]
  split_ifs with hlt hgt
  · exact iff_of_false (fun h => by cases h) hlt.asymm
  · exact iff_of_true rfl hgt
  · exact iff_of_false (fun h => by cases h) hgt

/-- The nodes are in the order of their sectors. -/
theorem sorted_of_inOrder {l : List Addr} (h : InOrder (iopDir content) l) :
    l.Pairwise fun a b : Addr => (content a).bitStart < (content b).bitStart := by
  induction l with
  | nil => exact List.Pairwise.nil
  | cons a l ih =>
    refine List.pairwise_cons.mpr ⟨fun b hb => ?_, ih fun c => (List.pairwise_cons.mp (h c)).2⟩
    refine iopDir_eq_left.mp (((List.pairwise_cons.mp (h a)).1 b hb).resolve_left fun hright => ?_)
    exact lt_irrefl _ (iopDir_eq_right.mp hright)

/-- **One step**, of the list and of any balanced tree. -/
theorem toList_dipStep (bal : Balancer Btt.Iop) {root : RbTree Btt.Iop} {l : List Addr} {op : Op}
    (horder : InOrder (iopDir content) l) (hroot : root.toList = l.map fun p : Addr => content p)
    (hfits : op.Fits l) :
    (dipStep content bal root op).toList = (op.spec (iopDir content) l).map fun p : Addr => content p := by
  have hl := sorted_of_inOrder horder
  have hsorted : root.toList.Pairwise fun a b => a.bitStart < b.bitStart := by
    rw [hroot]
    exact List.pairwise_map.mpr hl
  cases op with
  | add a =>
    rw [dipStep, Btt.rbInsert, Op.spec]
    cases hlink : root.link Btt.Iop.bitStart (content a) with
    | none =>
      -- a node with the sector is there
      obtain ⟨iop, hmem, hkey⟩ := (link_eq_none hsorted).mp hlink
      rw [hroot] at hmem
      obtain ⟨b, hb, rfl⟩ := List.mem_map.mp hmem
      obtain ⟨xs, ys, rfl⟩ := List.append_of_mem hb
      have hx : ∀ x ∈ xs, iopDir content a x.1 = some .right := fun x hmem =>
        iopDir_eq_right.mpr (hkey ▸ (List.pairwise_append.mp hl).2.2 x hmem b List.mem_cons_self)
      have hb : iopDir content a b = none := by
        rw [iopDir, keyDir, hkey, if_neg (lt_irrefl _), if_neg (lt_irrefl _)]
      rw [addSorted_split a hx, addSorted, hb]
      exact hroot
    | some root' =>
      obtain ⟨xs, ys, hlist, hlist', hbelow, habove⟩ := toList_link hsorted hlink
      rw [hroot] at hlist
      obtain ⟨xs, ys, rfl, rfl, rfl⟩ := List.map_eq_append_iff.mp hlist
      have hx : ∀ x ∈ xs, iopDir content a x.1 = some .right := fun x hmem =>
        iopDir_eq_right.mpr (hbelow _ (List.mem_map_of_mem hmem))
      rw [Option.map_some, Option.getD_some, bal.toList_insertColor, hlist', addSorted_split a hx, List.map_append]
      cases ys with
      | nil => rfl
      | cons y ys =>
        have hy : iopDir content a y = some .left := iopDir_eq_left.mpr (habove _ List.mem_cons_self)
        rw [addSorted, hy]
        rfl
  | erase a =>
    obtain ⟨xs, ys, rfl⟩ := List.append_of_mem hfits
    have hcross := List.pairwise_append.mp hl
    have hne : ∀ b ∈ xs ++ ys, b ≠ a := by
      rintro b hb rfl
      rcases List.mem_append.mp hb with hb | hb
      · exact lt_irrefl _ (hcross.2.2 b hb b List.mem_cons_self)
      · exact lt_irrefl _ ((List.pairwise_cons.mp hcross.2.1).1 b hb)
    have hfilter : (xs ++ a :: ys).filter (fun b => b ≠ a) = xs ++ ys := by
      rw [List.filter_append, List.filter_cons_of_neg (by simp), ← List.filter_append]
      exact List.filter_eq_self.mpr fun b hb => decide_eq_true (hne b hb)
    have hnot : content a ∉ xs.map fun p : Addr => content p := by
      intro hmem
      obtain ⟨b, hb, heq⟩ := List.mem_map.mp hmem
      have hlt := hcross.2.2 b hb a List.mem_cons_self
      rw [heq] at hlt
      exact lt_irrefl _ hlt
    rw [dipStep, bal.toList_erase _ _ (nodup_of_sorted hsorted), hroot, Op.spec, hfilter, List.map_append,
      List.map_cons, List.erase_append_right _ hnot, List.erase_cons_head, List.map_append]

/-- **All steps.** -/
theorem toList_dipSteps (bal : Balancer Btt.Iop) {ops : List Op} {root : RbTree Btt.Iop} {l : List Addr}
    (horder : InOrder (iopDir content) l) (hroot : root.toList = l.map fun p : Addr => content p)
    (hfits : ListFits (iopDir content) ops l) :
    (ops.foldl (dipStep content bal) root).toList =
      (ops.foldl (fun l op => op.spec (iopDir content) l) l).map fun p : Addr => content p := by
  induction ops generalizing root l with
  | nil => exact hroot
  | cons op ops ih =>
    exact ih (op.inOrder_spec (orderly_keyDir (by decide) _) horder) (toList_dipStep bal horder hroot hfits.1) hfits.2

/-- **The tree of a device in memory** holds the IOs that a tree does which is balanced in any other way. -/
theorem dipTree_run (bal : Balancer Btt.Iop) {ops : List Op} {fuel : ℕ} (mem : Ptr → Option RbNode)
    (hfits : ListFits (iopDir content) ops []) (hfuel : 2 * Nat.log 2 (ops.length + 1) + 2 ≤ fuel) :
    ∃ h t p l, ops.foldlM (fun h op => op.run (iopDir content) fuel h) (rbRoot mem) = some h ∧ Holds h t ∧
      rbFirst fuel h = some p ∧ walk .right fuel (ops.length + 1) p h = some l ∧
      l.map content = (ops.foldl (dipStep content bal) .nil).toList := by
  obtain ⟨h, t, hs, hh, hlist, hdepth, hlen⟩ := run_list (orderly_keyDir (by decide) _) mem hfits hfuel
  refine ⟨h, t, _, _, hs, hh, rbEnd_spec (s := .right) hh hdepth.le,
    walk_spec (s := .right) (l := []) hh rfl hdepth hlen, ?_⟩
  rw [toList_dipSteps bal (fun a => List.Pairwise.nil) rfl hfits, along, Side.pick, hlist, List.map_map]
  rfl

/-- IOs that begin where they lie. -/
def twoIops (p : Ptr) : Btt.Iop :=
  ⟨p.toNat, 0, 1, 0, UInt64.ofNat p.toNat, 0, 0, 0, 0, 0, 0, 0, []⟩

theorem dipTree_run_two : ∃ h t p l,
    [Op.add addr16, .add addr8, .erase addr16].foldlM (fun h op => op.run (iopDir twoIops) 6 h)
        (rbRoot fun _ => none) = some h ∧ Holds h t ∧
      rbFirst 6 h = some p ∧ walk .right 6 4 p h = some l ∧
      l.map twoIops =
        ([Op.add addr16, .add addr8, .erase addr16].foldl (dipStep twoIops (Balancer.plain _)) .nil).toList :=
  dipTree_run _ _ (by
    have hleft : iopDir twoIops 8#64 16#64 = some .left := by decide
    simp [ListFits, Op.Fits, Op.spec, addSorted, hleft, addr8, addr16]) (by decide)

end

end Blktrace.Rbtree
