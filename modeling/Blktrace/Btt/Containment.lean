import Blktrace.Btt.Iostat
import Blktrace.Btt.PointQuery

/-!
# `btt`: the IOs inside another

`rb_foreach` visits the queued IOs inside a dispatch or a completion. It leaves the right side of a node out
when that node ends no earlier than the query does, as if those behind it ended later still.
-/

namespace Blktrace.Btt

open SearchTree

/-- The extent of an IO is inside the one of the query. -/
def Iop.Contains (query iop : Iop) : Prop := query.bitStart ≤ iop.bitStart ∧ iop.bitEnd ≤ query.bitEnd

instance (query iop : Iop) : Decidable (query.Contains iop) :=
  inferInstanceAs (Decidable (_ ∧ _))

section

variable (root : RbTree Iop) (query : Iop)

/-- `rb_foreach` visits just the IOs inside, each once. -/
def VisitsContained : Prop :=
  (rbForeach root query).Perm (root.toList.filter fun iop => query.Contains iop)

/-- As a dispatch, the query gives its time to the IOs inside, and to no other. -/
def DispatchesContained : Prop :=
  ∀ (outputAllData : Bool) (s : State), (s.dip query.t.device).heads .q = root → ∀ id,
    ((s.handleIssue outputAllData query).times id).dTime =
      if ∃ iop ∈ root.toList, query.Contains iop ∧ iop.id = id then query.t.time else (s.times id).dTime

/-- As a completion, it releases the IOs inside, each once, and no other. -/
def CompletesContained (bal : Balancer Iop) : Prop :=
  ∀ s : State, (s.dip query.t.device).heads .q = root →
    ∃ done, (s.handleComplete bal query).released = done ++ s.released ∧
      done.Perm ((root.toList.filter fun iop => query.Contains iop).map Iop.id)

/-- No IO inside is to the right of one that ends where the query does, or later. -/
def Unpruned : Prop :=
  ∀ iop ∈ root.toList, query.Contains iop → ¬ root.Pruned Iop.bitEnd query.bitEnd iop

end

section

variable {root : RbTree Iop} {query : Iop}

/-- A dispatch works on the IOs that the walk visits. -/
theorem VisitsContained.dispatches (h : VisitsContained root query) : DispatchesContained root query := by
  intro outputAllData s hroot id
  have hwatch := congrArg (fun w => w.dTime id) (watch_handleIssue s outputAllData query)
  have hlist : s.dipForeachList query .q = rbForeach root query := by
    rw [State.dipForeachList, hroot]
  rw [hlist] at hwatch
  refine hwatch.trans (if_congr ?_ rfl rfl)
  rw [List.mem_map]
  refine exists_congr fun iop => ?_
  rw [h.mem_iff, List.mem_filter, decide_eq_true_iff, and_assoc]

/-- The loop of `handle_complete` releases one after the other. -/
theorem released_completeLoop (bal : Balancer Iop) (c : Iop) (qs : List Iop) (s : State) :
    (qs.foldl (fun s q => (State.completed c s q).ioRelease bal q) s).released =
      (qs.map Iop.id).reverse ++ s.released := by
  induction qs generalizing s with
  | nil => rfl
  | cons q qs ih =>
    have hround : ((State.completed c s q).ioRelease bal q).released = q.id :: s.released := by
      show q.id :: ((State.completed c s q).iopRemDip bal q).released = _
      have hrem : ((State.completed c s q).iopRemDip bal q).released = (State.completed c s q).released := by
        unfold State.iopRemDip
        cases (State.completed c s q).linked q.id with
        | none => rfl
        | some type => rfl
      rw [hrem, (quiet_completed s c q).released]
      rfl
    rw [List.foldl_cons, ih, hround, List.map_cons, List.reverse_cons, List.append_assoc]
    rfl

/-- So does a completion. -/
theorem VisitsContained.completes (h : VisitsContained root query) (bal : Balancer Iop) :
    CompletesContained root query bal := by
  intro s hroot
  refine ⟨((rbForeach root query).map Iop.id).reverse, ?_, ?_⟩
  · have hlist : (s.report (.avg .blks) query.t.device query.t.tSec.toUInt64).dipForeachList query .q =
        rbForeach root query := by
      rw [← hroot]
      rfl
    dsimp only [State.handleComplete]
    rw [hlist, released_completeLoop]
    rfl
  · exact (List.reverse_perm _).trans (h.map Iop.id)

variable (bal : Balancer Iop)

/-- **The containment query is complete** just if no IO inside is pruned, and then a dispatch or a
completion works on the IOs that it contains. -/
theorem visitsContained_iff (iops : List Iop) (query : Iop) :
    (VisitsContained (inserted bal iops) query ∧ DispatchesContained (inserted bal iops) query ∧
      CompletesContained (inserted bal iops) query bal) ↔ Unpruned (inserted bal iops) query := by
  have hiff : VisitsContained (inserted bal iops) query ↔ Unpruned (inserted bal iops) query :=
    RbTree.covered_perm_iff (inserted_spec bal iops).1 query.bitStart query.bitEnd
  constructor
  · intro h
    exact hiff.mp h.1
  · intro h
    have hvisits := hiff.mpr h
    exact ⟨hvisits, hvisits.dispatches, hvisits.completes bal⟩

/-- IOs that end in the order in which they begin: whatever the tree looks like, nothing is pruned. -/
theorem unpruned_of_ends {iops : List Iop}
    (h : ∀ a ∈ iops, ∀ b ∈ iops, a.bitStart < b.bitStart → a.bitEnd < b.bitEnd) (query : Iop) :
    Unpruned (inserted bal iops) query := by
  obtain ⟨hsorted, hmem⟩ := inserted_spec bal iops
  intro iop hiop hin hpruned
  obtain ⟨b, hb, hlt, hlate⟩ := hpruned.exists_late hsorted
  have hend := h b (hmem b hb) iop (hmem iop hiop) hlt
  exact absurd (hlate.trans_lt hend) (not_lt.mpr hin.2)

/-- Sixteen sectors from 0 on, and then four from 4 on: eight sectors from 2 on contain the four, and they
are not visited. -/
theorem not_visitsContained :
    ¬ VisitsContained (inserted noBalancer [queuedRead 1 0 8192, queuedRead 2 4 2048])
      (queuedRead 3 2 4096) := by
  intro h
  have hnone : rbForeach (inserted noBalancer [queuedRead 1 0 8192, queuedRead 2 4 2048])
      (queuedRead 3 2 4096) = [] := by
    decide
  rw [VisitsContained, hnone] at h
  refine List.not_mem_nil (h.mem_iff.mpr (List.mem_filter.mpr ⟨?_, ?_⟩) : queuedRead 2 4 2048 ∈ [])
  · exact (mem_inserted noBalancer (by decide)).mpr (by simp)
  · decide

end

end Blktrace.Btt
