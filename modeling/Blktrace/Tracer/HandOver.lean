import Blktrace.Lib.Runs
import Mathlib.Algebra.BigOperators.Ring.Finset
import Mathlib.Data.List.ProdSigma
import Mathlib.Tactic.Linarith

/-!
# `blktrace.c`: buffers from the tracers to main

A tracer puts a buffer on the list of its device and CPU, and tells `dp_entries` of it only when its
round over the devices is done. `main` may take the buffer from the list before that, and the
counter goes below zero. `dp_entries` is an `int`; a buffer has a kilobyte at least, and there is
no memory for as many as that would take to wrap.
-/

namespace Blktrace.Tracer.HandOver

/-- A device and a CPU. -/
abbrev Key := ℕ × ℕ

/-- A thread in `handle_pfds_entries`: `i` and `nentries`. -/
structure Thread where
  i : ℕ := 0
  nentries : ℕ := 0
  /-- `tracer_signal_ready(tp, Th_leaving, 0)`. -/
  left : Bool := false

/-- Where `main` is. `clean` says which loop called `__process_trace_bufs`. -/
inductive Main (β : Type*)
  /-- In `wait_empty_entries`. Its waits are timed, so that it tests again without a signal. -/
  | waiting
  /-- In `__process_trace_bufs`, with these heads to come. -/
  | heads (clean : Bool) (todo : List Key) (handled : ℕ)
  /-- In `handle_list`. -/
  | list (clean : Bool) (k : Key) (tbps : List β) (todo : List Key) (handled : ℕ)
  /-- In `wait_tracers_leaving` and `pthread_join`. -/
  | leaving
  /-- At the `while` of `clean_trace_bufs`. -/
  | cleaning
  | finished

structure State (β : Type*) where
  lists : Key → List β := fun _ => []
  dpEntries : ℤ := 0
  done : Bool := false
  threads : ℕ → Thread := fun _ => {}
  main : Main β := .waiting
  /-- What `add_trace_buf` was called with, in order. -/
  added : List (Key × β) := []
  /-- What `handle_list` took from a list, in order. -/
  handled : List (Key × β) := []

inductive Act (β : Type*)
  | main
  /-- A signal, or the end of the stopwatch. -/
  | done
  /-- A turn of the loop over the devices, and what was read there. -/
  | poll (cpu : ℕ) (tbp : Option β)
  /-- The end of the loop. -/
  | incrEntries (cpu : ℕ)
  | leave (cpu : ℕ)

variable {β : Type*} (ndevs ncpus : ℕ)

/-- The heads in the order of `__process_trace_bufs`. -/
def heads : List Key := List.range ndevs ×ˢ List.range ncpus

/-- One step of `main`. -/
def State.mainStep (s : State β) : Option (State β) :=
  match s.main with
  | .waiting =>
    if s.done then some { s with main := .leaving }
    else if s.dpEntries = 0 then none
    else some { s with main := .heads false (heads ndevs ncpus) 0 }
  | .heads clean (k :: todo) handled =>
    if s.lists k = [] then some { s with main := .heads clean todo handled }
    else
      some { s with
        lists := Function.update s.lists k []
        main := .list clean k (s.lists k) todo handled }
  | .list clean k (tbp :: tbps) todo handled =>
    some { s with
      handled := s.handled ++ [(k, tbp)]
      main := .list clean k tbps todo (handled + 1) }
  | .list clean _ [] todo handled => some { s with main := .heads clean todo handled }
  | .heads clean [] handled =>
    some { s with
      dpEntries := s.dpEntries - handled
      main := if clean then .cleaning else .waiting }
  | .leaving =>
    if ∀ cpu < ncpus, (s.threads cpu).left then some { s with main := .cleaning } else none
  | .cleaning =>
    if s.dpEntries = 0 then some { s with main := .finished }
    else some { s with main := .heads true (heads ndevs ncpus) 0 }
  | .finished => none

/-- `add_trace_buf`. -/
def State.addTraceBuf (s : State β) (k : Key) (tbp : β) : State β :=
  { s with
    lists := Function.update s.lists k (s.lists k ++ [tbp])
    added := s.added ++ [(k, tbp)] }

def State.setThread (s : State β) (cpu : ℕ) (t : Thread) : State β :=
  { s with threads := Function.update s.threads cpu t }

/-- One step of any thread. -/
def step (s : State β) : Act β → Option (State β)
  | .main => s.mainStep ndevs ncpus
  | .done => some { s with done := true }
  | .poll cpu tbp =>
    let t := s.threads cpu
    if cpu < ncpus ∧ t.i < ndevs ∧ t.left = false then
      match tbp with
      | some tbp =>
        some ((s.addTraceBuf (t.i, cpu) tbp).setThread cpu
          { t with i := t.i + 1, nentries := t.nentries + 1 })
      | none => some (s.setThread cpu { t with i := t.i + 1 })
    else none
  | .incrEntries cpu =>
    let t := s.threads cpu
    if cpu < ncpus ∧ t.left = false then
      some ({ s with dpEntries := s.dpEntries + t.nentries }.setThread cpu { t with i := 0, nentries := 0 })
    else none
  | .leave cpu =>
    let t := s.threads cpu
    if cpu < ncpus ∧ t.nentries = 0 ∧ t.i = 0 then some (s.setThread cpu { t with left := true })
    else none

/-! ## The books -/

/-- What a record holds of a head. -/
def ofHead (k : Key) (record : List (Key × β)) : List β :=
  (record.filter (fun r => r.1 = k)).map Prod.snd

theorem ofHead_concat (k k' : Key) (record : List (Key × β)) (tbp : β) :
    ofHead k (record ++ [(k', tbp)]) = ofHead k record ++ if k' = k then [tbp] else [] := by
  by_cases hk : k' = k <;> simp [ofHead, List.filter_append, hk]

/-- What `main` has taken of a head and not handled yet. -/
def Main.inHand (k : Key) : Main β → List β
  | .list _ k' tbps _ _ => if k' = k then tbps else []
  | _ => []

/-- What `main` has taken and not told `decr_entries` yet. -/
def Main.pending : Main β → ℕ
  | .heads _ _ handled => handled
  | .list _ _ tbps _ handled => handled + tbps.length
  | _ => 0

/-- Past `pthread_join`. -/
def Main.Joined : Main β → Prop
  | .heads clean _ _ | .list clean _ _ _ _ => clean = true
  | .cleaning | .finished => True
  | _ => False

/-- The heads that a pass of `clean_trace_bufs` has still to come to. -/
def Main.cleanTodo : Main β → Option (List Key)
  | .heads true todo _ | .list true _ _ todo _ => some todo
  | _ => none

/-- Where `dp_entries` lags behind the lists, the threads know by how much. -/
structure Handed (s : State β) : Prop where
  order : ∀ k, ofHead k s.handled ++ s.main.inHand k ++ s.lists k = ofHead k s.added
  counted : s.dpEntries + ∑ cpu ∈ Finset.range ncpus, ((s.threads cpu).nentries : ℤ) =
    ∑ k ∈ Finset.range ndevs ×ˢ Finset.range ncpus, ((s.lists k).length : ℤ) + s.main.pending
  outside : ∀ k, k ∉ heads ndevs ncpus → s.lists k = []
  left : ∀ cpu, (s.threads cpu).left = true → (s.threads cpu).nentries = 0
  joined : s.main.Joined → ∀ cpu < ncpus, (s.threads cpu).left = true
  visited : ∀ todo, s.main.cleanTodo = some todo → ∀ k, k ∉ todo → s.lists k = []
  finished : s.main = .finished → s.dpEntries = 0

variable {ndevs ncpus}

theorem mem_heads {k : Key} :
    k ∈ heads ndevs ncpus ↔ k ∈ Finset.range ndevs ×ˢ Finset.range ncpus := by
  obtain ⟨d, cpu⟩ := k
  simp [heads]

theorem mem_heads_of_lt {i cpu : ℕ} (hi : i < ndevs) (hcpu : cpu < ncpus) :
    (i, cpu) ∈ heads ndevs ncpus := by
  simp [heads, hi, hcpu]

theorem lengths_update (lists : Key → List β) {k : Key} (hk : k ∈ heads ndevs ncpus)
    (tbps : List β) :
    ∑ k' ∈ Finset.range ndevs ×ˢ Finset.range ncpus,
        ((Function.update lists k tbps k').length : ℤ) + (lists k).length =
      ∑ k' ∈ Finset.range ndevs ×ˢ Finset.range ncpus, ((lists k').length : ℤ) + tbps.length := by
  rw [← Runs.sum_update (mem_heads.mp hk) (fun k' => ((lists k').length : ℤ)) tbps.length]
  congr 1
  apply Finset.sum_congr rfl
  intro k' _
  by_cases h : k' = k
  · subst h
    simp
  · simp [h]

theorem handed_init : Handed ndevs ncpus ({} : State β) where
  order _ := rfl
  counted := by simp [Main.pending]
  outside _ _ := rfl
  left _ h := nomatch h
  joined h := h.elim
  visited _ h := nomatch h
  finished h := nomatch h

namespace Handed

variable {s : State β}

/-- No thread is left that could add a buffer. -/
theorem nentries_sum (hs : Handed ndevs ncpus s) (hj : s.main.Joined) :
    ∑ cpu ∈ Finset.range ncpus, ((s.threads cpu).nentries : ℤ) = 0 := by
  apply Finset.sum_eq_zero
  intro cpu hcpu
  have hleft := hs.joined hj cpu (Finset.mem_range.mp hcpu)
  rw [hs.left cpu hleft]
  rfl

/-- Once all threads have left, `dp_entries` is the number of buffers on the lists and in hand. -/
theorem dpEntries_eq (hs : Handed ndevs ncpus s) (hj : s.main.Joined) :
    s.dpEntries =
      ∑ k ∈ Finset.range ndevs ×ˢ Finset.range ncpus, ((s.lists k).length : ℤ) + s.main.pending := by
  have hcounted := hs.counted
  rw [hs.nentries_sum hj, add_zero] at hcounted
  exact hcounted

/-- A list of the pass, taken. -/
theorem take_sum (hs : Handed ndevs ncpus s) (k : Key) :
    ∑ k' ∈ Finset.range ndevs ×ˢ Finset.range ncpus,
        ((Function.update s.lists k [] k').length : ℤ) + (s.lists k).length =
      ∑ k' ∈ Finset.range ndevs ×ˢ Finset.range ncpus, ((s.lists k').length : ℤ) := by
  by_cases hk : k ∈ heads ndevs ncpus
  · rw [lengths_update s.lists hk []]
    exact add_zero _
  · have hnil := hs.outside k hk
    have hupdate : Function.update s.lists k [] = s.lists := by
      rw [← hnil, Function.update_eq_self]
    rw [hupdate, hnil]
    exact add_zero _

/-! ### Main -/

/-- A step of `main` that moves no buffer. -/
theorem move (hs : Handed ndevs ncpus s) {main : Main β}
    (hinHand : ∀ k, main.inHand k = s.main.inHand k) (hpending : main.pending = s.main.pending)
    (hjoined : main.Joined → ∀ cpu < ncpus, (s.threads cpu).left = true)
    (hvisited : ∀ todo, main.cleanTodo = some todo → ∀ k, k ∉ todo → s.lists k = [])
    (hfinished : main = .finished → s.dpEntries = 0) :
    Handed ndevs ncpus { s with main := main } where
  order k := by
    show ofHead k s.handled ++ main.inHand k ++ s.lists k = _
    rw [hinHand]
    exact hs.order k
  counted := by
    show _ = _ + (main.pending : ℤ)
    rw [hpending]
    exact hs.counted
  outside := hs.outside
  left := hs.left
  joined := hjoined
  visited := hvisited
  finished := hfinished

/-- `list_replace_init`. -/
theorem take (hs : Handed ndevs ncpus s) {clean : Bool} {k : Key} {todo : List Key} {handled : ℕ}
    (hmain : s.main = .heads clean (k :: todo) handled) :
    Handed ndevs ncpus { s with
      lists := Function.update s.lists k []
      main := .list clean k (s.lists k) todo handled } where
  order k' := by
    have horder := hs.order k'
    rw [hmain] at horder
    by_cases hk : k = k'
    · subst hk
      simpa [Main.inHand] using horder
    · simpa [Main.inHand, hk, Function.update_of_ne (Ne.symm hk)] using horder
  counted := by
    have hcounted := hs.counted
    have htake := hs.take_sum k
    rw [hmain] at hcounted
    simp only [Main.pending] at hcounted ⊢
    push_cast
    linarith
  outside k' hk' := by
    show Function.update s.lists k [] k' = []
    by_cases hk : k' = k
    · rw [hk, Function.update_self]
    · rw [Function.update_of_ne hk]
      exact hs.outside k' hk'
  left := hs.left
  joined hj := hs.joined (by rw [hmain]; exact hj)
  visited todo' htodo k' hk' := by
    show Function.update s.lists k [] k' = []
    by_cases hk : k' = k
    · rw [hk, Function.update_self]
    · rw [Function.update_of_ne hk]
      cases clean with
      | false => cases htodo
      | true =>
        cases htodo
        apply hs.visited (k :: todo) (by rw [hmain]; rfl)
        simp [hk, hk']
  finished h := nomatch h

/-- A buffer of the list that was taken. -/
theorem handle (hs : Handed ndevs ncpus s) {clean : Bool} {k : Key} {tbp : β} {tbps : List β}
    {todo : List Key} {handled : ℕ} (hmain : s.main = .list clean k (tbp :: tbps) todo handled) :
    Handed ndevs ncpus { s with
      handled := s.handled ++ [(k, tbp)]
      main := .list clean k tbps todo (handled + 1) } where
  order k' := by
    have horder := hs.order k'
    rw [hmain] at horder
    rw [ofHead_concat]
    by_cases hk : k = k' <;> simpa [Main.inHand, hk] using horder
  counted := by
    have hcounted := hs.counted
    rw [hmain] at hcounted
    simp only [Main.pending, List.length_cons] at hcounted ⊢
    push_cast at hcounted ⊢
    linarith
  outside := hs.outside
  left := hs.left
  joined hj := hs.joined (by rw [hmain]; exact hj)
  visited todo' htodo := hs.visited todo' (by rw [hmain]; cases clean <;> exact htodo)
  finished h := nomatch h

/-- `decr_entries`. -/
theorem decr (hs : Handed ndevs ncpus s) {clean : Bool} {handled : ℕ}
    (hmain : s.main = .heads clean [] handled) :
    Handed ndevs ncpus { s with
      dpEntries := s.dpEntries - handled
      main := if clean then .cleaning else .waiting } where
  order k := by
    have horder := hs.order k
    rw [hmain] at horder
    cases clean <;> exact horder
  counted := by
    have hcounted := hs.counted
    rw [hmain] at hcounted
    simp only [Main.pending] at hcounted
    cases clean <;> simp only [Main.pending, Bool.false_eq_true, if_false, if_true] <;>
      push_cast <;> linarith
  outside := hs.outside
  left := hs.left
  joined hj := by
    cases clean with
    | false => exact hj.elim
    | true => exact hs.joined (by rw [hmain]; rfl)
  visited todo htodo := by cases clean <;> cases htodo
  finished h := by cases clean <;> cases h

theorem mainStep (hs : Handed ndevs ncpus s) {s' : State β}
    (h : s.mainStep ndevs ncpus = some s') : Handed ndevs ncpus s' := by
  unfold State.mainStep at h
  split at h
  next hmain =>
    split_ifs at h
    · cases h
      exact hs.move (by simp [hmain, Main.inHand]) (by simp [hmain, Main.pending])
        (fun hj => hj.elim) nofun nofun
    · cases h
      exact hs.move (by simp [hmain, Main.inHand]) (by simp [hmain, Main.pending])
        nofun nofun nofun
  next clean k todo handled hmain =>
    split_ifs at h with hnil
    · cases h
      refine hs.move (by simp [hmain, Main.inHand]) (by simp [hmain, Main.pending])
        (fun hj => hs.joined (by rw [hmain]; exact hj)) (fun todo' htodo k' hk' => ?_) nofun
      cases clean with
      | false => cases htodo
      | true =>
        cases htodo
        by_cases hk : k' = k
        · exact hk ▸ hnil
        · apply hs.visited (k :: todo) (by rw [hmain]; rfl)
          simp [hk, hk']
    · cases h
      exact hs.take hmain
  next hmain =>
    cases h
    exact hs.handle hmain
  next clean k todo handled hmain =>
    cases h
    refine hs.move (by simp [hmain, Main.inHand]) (by simp [hmain, Main.pending])
      (fun hj => hs.joined (by rw [hmain]; exact hj)) (fun todo' htodo => ?_) nofun
    exact hs.visited todo' (by rw [hmain]; cases clean <;> exact htodo)
  next hmain =>
    cases h
    exact hs.decr hmain
  next hmain =>
    split_ifs at h with hleft
    cases h
    exact hs.move (by simp [hmain, Main.inHand]) (by simp [hmain, Main.pending])
      (fun _ => hleft) nofun nofun
  next hmain =>
    have hjoined := hs.joined (by rw [hmain]; trivial)
    split_ifs at h with hzero
    · cases h
      exact hs.move (by simp [hmain, Main.inHand]) (by simp [hmain, Main.pending])
        (fun _ => hjoined) nofun (fun _ => hzero)
    · cases h
      refine hs.move (by simp [hmain, Main.inHand]) (by simp [hmain, Main.pending])
        (fun _ => hjoined) (fun todo htodo => ?_) nofun
      cases htodo
      exact hs.outside
  next => cases h

/-! ### The threads -/

theorem nentries_setThread (s : State β) {cpu : ℕ} (hcpu : cpu < ncpus) (t : Thread) :
    ∑ c ∈ Finset.range ncpus, (((s.setThread cpu t).threads c).nentries : ℤ) +
        (s.threads cpu).nentries =
      ∑ c ∈ Finset.range ncpus, ((s.threads c).nentries : ℤ) + t.nentries := by
  have hsum := Runs.sum_update (Finset.mem_range.mpr hcpu)
    (fun c => ((s.threads c).nentries : ℤ)) (t.nentries : ℤ)
  have hupdate : ∀ c, (((s.setThread cpu t).threads c).nentries : ℤ) =
      Function.update (fun c => ((s.threads c).nentries : ℤ)) cpu t.nentries c := by
    intro c
    by_cases h : c = cpu
    · subst h
      simp [State.setThread]
    · simp [State.setThread, h]
  rw [Finset.sum_congr rfl fun c _ => hupdate c]
  exact hsum

theorem forall_setThread {s : State β} {P : ℕ → Thread → Prop} {cpu : ℕ} {t : Thread}
    (h : ∀ c, P c (s.threads c)) (ht : P cpu t) (c : ℕ) : P c ((s.setThread cpu t).threads c) := by
  by_cases hc : c = cpu
  · subst hc
    simpa [State.setThread] using ht
  · simpa [State.setThread, hc] using h c

/-- While a thread is in its loop, `main` has not joined it. -/
theorem not_joined (hs : Handed ndevs ncpus s) {cpu : ℕ} (hcpu : cpu < ncpus)
    (hleft : (s.threads cpu).left = false) : ¬ s.main.Joined := by
  intro hj
  rw [hs.joined hj cpu hcpu] at hleft
  cases hleft

theorem joined_of_cleanTodo {main : Main β} {todo : List Key} (h : main.cleanTodo = some todo) :
    main.Joined := by
  cases main with
  | heads clean _ _ | list clean _ _ _ _ =>
    cases clean with
    | false => cases h
    | true => rfl
  | waiting | leaving | cleaning | finished => cases h

/-- A step of a thread that moves no buffer: it keeps its own count with `dp_entries`. -/
theorem count (hs : Handed ndevs ncpus s) {cpu : ℕ} (hcpu : cpu < ncpus) {t : Thread} {entries : ℤ}
    (hentries : entries + t.nentries = s.dpEntries + (s.threads cpu).nentries)
    (ht : t.left = true → t.nentries = 0)
    (hkeep : (s.threads cpu).left = true → t.left = true ∧ entries = s.dpEntries) :
    Handed ndevs ncpus ({ s with dpEntries := entries }.setThread cpu t) where
  order := hs.order
  counted := by
    have hcounted := hs.counted
    have hsum := nentries_setThread { s with dpEntries := entries } hcpu t
    dsimp only at hsum
    show entries + _ = ∑ k ∈ _, ((s.lists k).length : ℤ) + s.main.pending
    linarith
  outside := hs.outside
  left := forall_setThread (P := fun _ t => t.left = true → t.nentries = 0) hs.left ht
  joined hj c hc := by
    have hall := hs.joined hj
    by_cases h : c = cpu
    · subst h
      simpa [State.setThread] using (hkeep (hall c hc)).1
    · simpa [State.setThread, h] using hall c hc
  visited := hs.visited
  finished hfin := by
    have hall := hs.joined (by rw [show s.main = .finished from hfin]; trivial) cpu hcpu
    rw [← hs.finished hfin]
    exact (hkeep hall).2

/-- `add_trace_buf`, and `nentries++`. -/
theorem addTraceBuf (hs : Handed ndevs ncpus s) {cpu : ℕ} (hcpu : cpu < ncpus)
    (hleft : (s.threads cpu).left = false) (hi : (s.threads cpu).i < ndevs) (tbp : β) :
    Handed ndevs ncpus ((s.addTraceBuf ((s.threads cpu).i, cpu) tbp).setThread cpu
      { i := (s.threads cpu).i + 1, nentries := (s.threads cpu).nentries + 1, left := false }) where
  order k := by
    show ofHead k s.handled ++ s.main.inHand k ++ Function.update s.lists _ _ k =
      ofHead k (s.added ++ _)
    rw [ofHead_concat, ← hs.order k]
    by_cases hk : ((s.threads cpu).i, cpu) = k
    · subst hk
      simp
    · simp [hk, Function.update_of_ne (Ne.symm hk)]
  counted := by
    have hcounted := hs.counted
    have hsum := nentries_setThread (s.addTraceBuf ((s.threads cpu).i, cpu) tbp) hcpu
      { i := (s.threads cpu).i + 1, nentries := (s.threads cpu).nentries + 1, left := false }
    have hlengths := lengths_update s.lists (mem_heads_of_lt hi hcpu)
      (s.lists ((s.threads cpu).i, cpu) ++ [tbp])
    rw [List.length_append, List.length_singleton] at hlengths
    push_cast at hlengths hsum
    show s.dpEntries + _ = ∑ k ∈ _, ((Function.update s.lists _ _ k).length : ℤ) + s.main.pending
    change _ + ((s.threads cpu).nentries : ℤ) = ∑ c ∈ _, ((s.threads c).nentries : ℤ) + _ at hsum
    linarith
  outside k hk := by
    show Function.update s.lists _ _ k = []
    have hne : k ≠ ((s.threads cpu).i, cpu) := by
      rintro rfl
      exact hk (mem_heads_of_lt hi hcpu)
    rw [Function.update_of_ne hne]
    exact hs.outside k hk
  left := forall_setThread (P := fun _ t => t.left = true → t.nentries = 0) hs.left nofun
  joined hj := absurd hj (hs.not_joined hcpu hleft)
  visited _ htodo := absurd (joined_of_cleanTodo htodo) (hs.not_joined hcpu hleft)
  finished hfin := by
    refine absurd ?_ (hs.not_joined hcpu hleft)
    rw [show s.main = .finished from hfin]
    trivial

theorem step (hs : Handed ndevs ncpus s) (a : Act β) {s' : State β}
    (h : step ndevs ncpus s a = some s') : Handed ndevs ncpus s' := by
  unfold HandOver.step at h
  cases a with
  | main => exact hs.mainStep h
  | done =>
    cases h
    exact ⟨hs.order, hs.counted, hs.outside, hs.left, hs.joined, hs.visited, hs.finished⟩
  | poll cpu tbp =>
    dsimp only at h
    split_ifs at h with hen
    obtain ⟨hcpu, hi, hleft⟩ := hen
    cases tbp with
    | some tbp =>
      cases h
      rw [hleft]
      exact hs.addTraceBuf hcpu hleft hi tbp
    | none =>
      cases h
      exact hs.count hcpu rfl (hs.left cpu) (fun h => ⟨h, rfl⟩)
  | incrEntries cpu =>
    dsimp only at h
    split_ifs at h with hen
    cases h
    refine hs.count hen.1 ?_ (fun _ => rfl) (fun h => ?_)
    · exact add_zero _
    · rw [hen.2] at h
      cases h
  | leave cpu =>
    dsimp only at h
    split_ifs at h with hen
    cases h
    refine hs.count hen.1 rfl (fun _ => hen.2.1) (fun _ => ⟨rfl, rfl⟩)

end Handed

theorem handed (acts : List (Act β)) :
    Handed ndevs ncpus (Runs.run (step ndevs ncpus) {} acts) :=
  Runs.run_invariant (fun _ a _ hs => hs.step a) handed_init acts

/-! ## The end -/

/-- The buffers on the lists. -/
def State.listed (ndevs ncpus : ℕ) (s : State β) : ℕ :=
  ∑ k ∈ Finset.range ndevs ×ˢ Finset.range ncpus, (s.lists k).length

/-- How many steps `main` has still to take in `clean_trace_bufs`, at most. -/
def State.work (ndevs ncpus : ℕ) (s : State β) : ℕ :=
  match s.main with
  | .heads _ todo _ => 2 * todo.length + s.listed ndevs ncpus + 2
  | .list _ _ tbps todo _ => 2 * todo.length + tbps.length + s.listed ndevs ncpus + 3
  | .cleaning =>
    if s.dpEntries = 0 then 1 else 2 * (heads ndevs ncpus).length + s.listed ndevs ncpus + 3
  | .waiting | .leaving | .finished => 0

def Act.isMain : Act β → Bool
  | .main => true
  | _ => false

namespace Handed

variable {s : State β}

theorem listed_eq (hs : Handed ndevs ncpus s) (hj : s.main.Joined) :
    s.dpEntries = (s.listed ndevs ncpus + s.main.pending : ℕ) := by
  rw [hs.dpEntries_eq hj, State.listed]
  push_cast
  rfl

theorem listed_take (hs : Handed ndevs ncpus s) (s' : State β) {k : Key}
    (hlists : s'.lists = Function.update s.lists k []) :
    s'.listed ndevs ncpus + (s.lists k).length = s.listed ndevs ncpus := by
  have htake := hs.take_sum k
  rw [State.listed, State.listed, hlists]
  exact_mod_cast htake

/-- The end of a pass, with all threads gone: the lists are empty, and the counter is zero. -/
theorem pass_over (hs : Handed ndevs ncpus s) {handled : ℕ} (hmain : s.main = .heads true [] handled) :
    s.dpEntries - handled = 0 := by
  have hlisted : s.listed ndevs ncpus = 0 := by
    apply Finset.sum_eq_zero
    intro k _
    rw [hs.visited [] (by rw [hmain]; rfl) k (by simp)]
    rfl
  have hentries := hs.listed_eq (by rw [hmain]; rfl)
  rw [hentries, hlisted, hmain]
  simp [Main.pending]

/-- Until it is finished `main` never waits, and comes nearer to the end. -/
theorem work_lt (hs : Handed ndevs ncpus s) (hj : s.main.Joined) (hfin : s.main ≠ .finished) :
    ∃ s', s.mainStep ndevs ncpus = some s' ∧ s'.main.Joined ∧
      s'.work ndevs ncpus < s.work ndevs ncpus := by
  cases hmain : s.main with
  | waiting | leaving => simp [hmain, Main.Joined] at hj
  | finished => exact absurd hmain hfin
  | heads clean todo handled =>
    rw [hmain] at hj
    cases todo with
    | nil =>
      obtain rfl : clean = true := hj
      simp only [State.mainStep, hmain, Option.some.injEq, exists_eq_left']
      refine ⟨trivial, ?_⟩
      simp only [State.work, hmain, if_true, hs.pass_over hmain]
      omega
    | cons k todo =>
      by_cases hnil : s.lists k = []
      · simp only [State.mainStep, hmain, if_pos hnil, Option.some.injEq, exists_eq_left']
        refine ⟨hj, ?_⟩
        simp only [State.work, hmain, List.length_cons]
        simp only [State.listed]
        omega
      · simp only [State.mainStep, hmain, if_neg hnil, Option.some.injEq, exists_eq_left']
        refine ⟨hj, ?_⟩
        have htake := hs.listed_take { s with
          lists := Function.update s.lists k []
          main := .list clean k (s.lists k) todo handled } rfl
        simp only [State.work, hmain, List.length_cons]
        omega
  | list clean k tbps todo handled =>
    rw [hmain] at hj
    cases tbps with
    | nil =>
      simp only [State.mainStep, hmain, Option.some.injEq, exists_eq_left']
      refine ⟨hj, ?_⟩
      simp only [State.work, hmain, List.length_nil]
      simp only [State.listed]
      omega
    | cons tbp tbps =>
      simp only [State.mainStep, hmain, Option.some.injEq, exists_eq_left']
      refine ⟨hj, ?_⟩
      simp only [State.work, hmain, List.length_cons]
      simp only [State.listed]
      omega
  | cleaning =>
    by_cases hzero : s.dpEntries = 0
    · simp only [State.mainStep, hmain, if_pos hzero, Option.some.injEq, exists_eq_left']
      refine ⟨trivial, ?_⟩
      simp only [State.work, hmain, if_pos hzero]
      exact Nat.zero_lt_one
    · simp only [State.mainStep, hmain, if_neg hzero, Option.some.injEq, exists_eq_left']
      refine ⟨rfl, ?_⟩
      simp only [State.work, hmain, if_neg hzero]
      simp only [State.listed]
      omega

/-- Nothing else is going on by then. -/
theorem step_joined (hs : Handed ndevs ncpus s) (hj : s.main.Joined) {a : Act β} {s' : State β}
    (h : HandOver.step ndevs ncpus s a = some s') :
    s'.main.Joined ∧ s'.work ndevs ncpus ≤ s.work ndevs ncpus ∧
      (s.main = .finished → s'.main = .finished) := by
  cases a with
  | main =>
    have hmain : s.mainStep ndevs ncpus = some s' := h
    by_cases hfin : s.main = .finished
    · simp [State.mainStep, hfin] at hmain
    · obtain ⟨t, ht, htj, htw⟩ := hs.work_lt hj hfin
      rw [hmain] at ht
      cases ht
      exact ⟨htj, le_of_lt htw, fun h => absurd h hfin⟩
  | done =>
    cases h
    exact ⟨hj, le_refl _, id⟩
  | poll cpu tbp =>
    simp only [HandOver.step] at h
    split_ifs at h with hen
    exact absurd hj (hs.not_joined hen.1 hen.2.2)
  | incrEntries cpu =>
    simp only [HandOver.step] at h
    split_ifs at h with hen
    exact absurd hj (hs.not_joined hen.1 hen.2)
  | leave cpu =>
    simp only [HandOver.step] at h
    split_ifs at h with hen
    cases h
    exact ⟨hj, le_refl _, id⟩

/-- At the end there is nothing on the lists. -/
theorem lists_eq_nil (hs : Handed ndevs ncpus s) (hfin : s.main = .finished) (k : Key) :
    s.lists k = [] := by
  have hentries := hs.listed_eq (by rw [hfin]; trivial)
  rw [hs.finished hfin, hfin] at hentries
  have hlisted : s.listed ndevs ncpus = 0 := by
    simp only [Main.pending] at hentries
    omega
  by_cases hk : k ∈ heads ndevs ncpus
  · exact List.length_eq_zero_iff.mp (Finset.sum_eq_zero_iff.mp hlisted k (mem_heads.mp hk))
  · exact hs.outside k hk

end Handed

/-- `main` counts a buffer off before its thread has counted it. -/
example :
    let ahead : List (Act ℕ) :=
      [.poll 0 (some 7), .incrEntries 0, .main, .poll 0 (some 8), .main, .main, .main, .main, .main]
    (Runs.run (step 1 1) {} ahead).dpEntries = -1 := by decide

end Blktrace.Tracer.HandOver
