import Mathlib

/-!
# A k-way merge with a lazily sorted chain

Streams `i : ι` hold lists of records; a *chain* lists the streams that still hold one, ordered
by the key of their first record. One step takes the first record of the first stream and
re-places **that stream only**: the rest of the chain is never touched, which is what makes the
order an invariant to prove rather than a sort to quote.

* `insert` is the placement. A stream whose key ties with the head's goes behind the head, and
  one that ties further down goes before the tie, so `insert` is *not* `List.orderedInsert`; that
  it keeps the chain sorted (`insert_sorted`) does not depend on which side a tie falls.
* `pop` is the step and `run` the whole merge, cut after the first record `stop` holds of.
* `WF` is the chain invariant and `pop_wf` its step lemma. `run_sorted`, `run_prefix` and
  `run_complete` are what a run guarantees.
-/

namespace KMerge

variable {ι α κ : Type*} [LinearOrder κ]

/-! ## The chain -/

section Chain

variable (key : ι → κ)

/-- Placement behind an entry already passed: before the first stream whose key is not smaller. -/
def insertTail (i : ι) : List ι → List ι
  | [] => [i]
  | j :: js => if key j < key i then j :: insertTail i js else i :: j :: js

/-- Placement in a whole chain. Only a strictly smaller key takes the head's place. -/
def insert (i : ι) : List ι → List ι
  | [] => [i]
  | j :: js => if key i < key j then i :: j :: js else j :: insertTail key i js

theorem insertTail_perm (i : ι) (js : List ι) : (insertTail key i js).Perm (i :: js) := by
  induction js with
  | nil => exact List.Perm.refl _
  | cons j js ih =>
    rw [insertTail]
    split
    · exact (ih.cons j).trans (List.Perm.swap i j js)
    · exact List.Perm.refl _

theorem insert_perm (i : ι) (js : List ι) : (insert key i js).Perm (i :: js) := by
  cases js with
  | nil => exact List.Perm.refl _
  | cons j js =>
    rw [insert]
    split
    · exact List.Perm.refl _
    · exact ((insertTail_perm key i js).cons j).trans (List.Perm.swap i j js)

theorem mem_insert {i j : ι} {js : List ι} : j ∈ insert key i js ↔ j = i ∨ j ∈ js := by
  rw [(insert_perm key i js).mem_iff, List.mem_cons]

/-- The chain order. -/
abbrev Sorted (js : List ι) : Prop := js.Pairwise fun a b => key a ≤ key b

theorem insertTail_sorted {i : ι} {js : List ι} (h : Sorted key js) :
    Sorted key (insertTail key i js) := by
  induction js with
  | nil => exact List.pairwise_singleton _ _
  | cons j js ih =>
    rw [Sorted, List.pairwise_cons] at h
    rw [insertTail]
    split
    case isTrue hlt =>
      refine List.pairwise_cons.mpr ⟨fun a ha => ?_, ih h.2⟩
      rcases List.mem_cons.mp ((insertTail_perm key i js).mem_iff.mp ha) with rfl | ha
      · exact hlt.le
      · exact h.1 a ha
    case isFalse hge =>
      refine List.pairwise_cons.mpr ⟨fun a ha => ?_, List.pairwise_cons.mpr h⟩
      rcases List.mem_cons.mp ha with rfl | ha
      · exact not_lt.mp hge
      · exact (not_lt.mp hge).trans (h.1 a ha)

theorem insert_sorted {i : ι} {js : List ι} (h : Sorted key js) :
    Sorted key (insert key i js) := by
  cases js with
  | nil => exact List.pairwise_singleton _ _
  | cons j js =>
    have hj := List.pairwise_cons.mp h
    rw [insert]
    split
    case isTrue hlt =>
      refine List.pairwise_cons.mpr ⟨fun a ha => ?_, h⟩
      rcases List.mem_cons.mp ha with rfl | ha
      · exact hlt.le
      · exact hlt.le.trans (hj.1 a ha)
    case isFalse hge =>
      refine List.pairwise_cons.mpr ⟨fun a ha => ?_, insertTail_sorted key hj.2⟩
      rcases List.mem_cons.mp ((insertTail_perm key i js).mem_iff.mp ha) with rfl | ha
      · exact not_lt.mp hge
      · exact hj.1 a ha

variable {key}

theorem Sorted.congr {key' : ι → κ} {js : List ι} (h : ∀ j ∈ js, key j = key' j)
    (hs : Sorted key js) : Sorted key' js :=
  hs.imp_of_mem fun ha hb hab => by rw [← h _ ha, ← h _ hb]; exact hab

end Chain

/-- Re-place the head stream `i` before or into the rest of the chain. -/
def resort (key : ι → κ) (i : ι) : List ι → List ι
  | [] => [i]
  | j :: js => if key j < key i then insert key i (j :: js) else i :: j :: js

theorem resort_perm (key : ι → κ) (i : ι) (js : List ι) :
    (resort key i js).Perm (i :: js) := by
  cases js with
  | nil => exact List.Perm.refl _
  | cons j js =>
    rw [resort]
    split
    · exact insert_perm key i (j :: js)
    · exact List.Perm.refl _

theorem resort_sorted {key : ι → κ} {i : ι} {js : List ι} (h : Sorted key js) :
    Sorted key (resort key i js) := by
  cases js with
  | nil => exact List.pairwise_singleton _ _
  | cons j js =>
    rw [resort]
    split
    case isTrue => exact insert_sorted key h
    case isFalse hge =>
      refine List.pairwise_cons.mpr ⟨fun a ha => ?_, h⟩
      rcases List.mem_cons.mp ha with rfl | ha
      · exact not_lt.mp hge
      · exact (not_lt.mp hge).trans ((List.pairwise_cons.mp h).1 a ha)

/-! ## The machine -/

/-- What every stream has left, and the chain. -/
structure State (ι α : Type*) where
  rem : ι → List α
  chain : List ι

/-- The key of a stream's first record; `d` stands in for a stream that has none. -/
def front {ι α κ : Type*} (t : α → κ) (d : κ) (rem : ι → List α) (i : ι) : κ :=
  match rem i with
  | [] => d
  | a :: _ => t a

theorem front_cons {ι α κ : Type*} (t : α → κ) (d : κ) {rem : ι → List α} {i : ι} {a : α}
    {as : List α} (h : rem i = a :: as) : front t d rem i = t a := by rw [front, h]

theorem front_update_of_ne {ι α κ : Type*} [DecidableEq ι] {t : α → κ} {d : κ}
    {rem : ι → List α} {i j : ι} {as : List α} (h : j ≠ i) :
    front t d (Function.update rem i as) j = front t d rem j := by
  rw [front, front, Function.update_of_ne h]

/-- How many records the streams of the chain hold. -/
def size (s : State ι α) : Nat := (s.chain.map fun i => (s.rem i).length).sum

/-- The chain is exactly the streams that hold a record, each once, by their first keys. -/
structure WF (t : α → κ) (d : κ) (s : State ι α) : Prop where
  nodup : s.chain.Nodup
  mem : ∀ i, i ∈ s.chain ↔ s.rem i ≠ []
  sorted : Sorted (front t d s.rem) s.chain

theorem WF.empty {t : α → κ} {d : κ} : WF t d (⟨fun _ => [], []⟩ : State ι α) :=
  ⟨List.nodup_nil, by simp, List.Pairwise.nil⟩

/-- Every stream is non-decreasing. -/
def Ordered (t : α → κ) (s : State ι α) : Prop :=
  ∀ i, (s.rem i).Pairwise fun a b => t a ≤ t b

/-- With the chain empty no stream holds anything. -/
theorem WF.rem_eq_nil {t : α → κ} {d : κ} {s : State ι α} (hw : WF t d s) (h : s.chain = []) (i : ι) :
    s.rem i = [] := by
  by_contra hne
  have hi := (hw.mem i).mpr hne
  rw [h] at hi
  simp at hi

/-- The head's first record is below everything any stream holds. -/
theorem front_le {t : α → κ} {d : κ} {s : State ι α} (hw : WF t d s) (ho : Ordered t s) {i : ι} {js : List ι}
    (hc : s.chain = i :: js) (j : ι) : ∀ a ∈ s.rem j, front t d s.rem i ≤ t a := by
  intro a ha
  have hj : j ∈ s.chain := (hw.mem j).mpr (List.ne_nil_of_mem ha)
  have hle : front t d s.rem i ≤ front t d s.rem j := by
    have hso := hw.sorted
    rw [hc] at hj hso
    rcases List.mem_cons.mp hj with rfl | hj
    · exact le_refl _
    · exact (List.pairwise_cons.mp hso).1 j hj
  obtain ⟨c, cs, hcs⟩ := List.exists_cons_of_ne_nil (List.ne_nil_of_mem ha)
  have hok := ho j
  rw [front_cons t d hcs] at hle
  rw [hcs] at ha hok
  rcases List.mem_cons.mp ha with rfl | ha
  · exact hle
  · exact hle.trans ((List.pairwise_cons.mp hok).1 a ha)

variable [DecidableEq ι]

section Machine

variable (t : α → κ) (d : κ)

/-- One step: the first record of the head stream, and what is left. -/
def pop (s : State ι α) : Option ((ι × α) × State ι α) :=
  match s.chain with
  | [] => none
  | i :: js =>
    match s.rem i with
    | [] => none
    | a :: as =>
      let rem := Function.update s.rem i as
      some ((i, a), ⟨rem, if as = [] then js else resort (front t d rem) i js⟩)

/-- A new stream: it joins the chain unless it is empty from the start. -/
def add (s : State ι α) (i : ι) (as : List α) : State ι α :=
  let rem := Function.update s.rem i as
  ⟨rem, if as = [] then s.chain else insert (front t d rem) i s.chain⟩

/-- At most `n` steps, none after the first record `stop` holds of. -/
def run (stop : α → Bool) : Nat → State ι α → List (ι × α)
  | 0, _ => []
  | n + 1, s =>
    match pop t d s with
    | none => []
    | some (e, s') => e :: if stop e.2 then [] else run stop n s'

end Machine

variable {t : α → κ} {d : κ}

/-- What a step is: the head stream gives its first record. -/
theorem pop_eq_some {s s' : State ι α} {e : ι × α} (h : pop t d s = some (e, s')) :
    ∃ js as, s.chain = e.1 :: js ∧ s.rem e.1 = e.2 :: as ∧
      s'.rem = Function.update s.rem e.1 as ∧
      s'.chain = if as = [] then js else resort (front t d s'.rem) e.1 js := by
  unfold pop at h
  cases hc : s.chain with
  | nil => rw [hc] at h; simp at h
  | cons i js =>
    rw [hc] at h
    cases hr : s.rem i with
    | nil => simp [hr] at h
    | cons a as =>
      simp only [hr, Option.some.injEq, Prod.mk.injEq] at h
      obtain ⟨rfl, rfl⟩ := h
      exact ⟨js, as, rfl, hr, rfl, rfl⟩

/-- A well-formed machine is stuck only when every stream is empty. -/
theorem WF.pop_eq_none {s : State ι α} (hw : WF t d s) (h : KMerge.pop t d s = none) :
    s.chain = [] := by
  cases hc : s.chain with
  | nil => rfl
  | cons i js =>
    have hne : s.rem i ≠ [] := (hw.mem i).mp (by rw [hc]; exact List.mem_cons_self)
    cases hr : s.rem i with
    | nil => exact absurd hr hne
    | cons a as => simp [KMerge.pop, hc, hr] at h

/-- **The step keeps the chain invariant.** Only the popped stream's key changed, and only that
stream moved. -/
theorem WF.pop {s s' : State ι α} {e : ι × α} (hw : WF t d s)
    (h : KMerge.pop t d s = some (e, s')) : WF t d s' := by
  obtain ⟨js, as, hc, hr, hrem, hchain⟩ := pop_eq_some h
  obtain ⟨i, a⟩ := e
  dsimp only at hc hr hrem hchain
  have hnd := hw.nodup
  have hso := hw.sorted
  rw [hc] at hnd hso
  obtain ⟨hni, hnd⟩ := List.nodup_cons.mp hnd
  have hne : ∀ j ∈ js, j ≠ i := fun j hj hji => hni (hji ▸ hj)
  have hjs : Sorted (front t d s'.rem) js := by
    refine Sorted.congr (fun j hj => ?_) (List.pairwise_cons.mp hso).2
    rw [hrem, front_update_of_ne (hne j hj)]
  have hmem : ∀ j, j ≠ i → (j ∈ js ↔ s'.rem j ≠ []) := fun j hj => by
    rw [hrem, Function.update_of_ne hj, ← hw.mem j, hc, List.mem_cons, or_iff_right hj]
  have hi : s'.rem i = as := by rw [hrem, Function.update_self]
  by_cases has : as = []
  · rw [if_pos has] at hchain
    refine ⟨hchain ▸ hnd, fun j => ?_, hchain ▸ hjs⟩
    rw [hchain]
    by_cases hj : j = i
    · subst hj; simp [hni, hi, has]
    · exact hmem j hj
  · rw [if_neg has] at hchain
    have hperm := hchain ▸ resort_perm (front t d s'.rem) i js
    refine ⟨hperm.nodup_iff.mpr (List.nodup_cons.mpr ⟨hni, hnd⟩), fun j => ?_,
      hchain ▸ resort_sorted hjs⟩
    rw [hperm.mem_iff, List.mem_cons]
    by_cases hj : j = i
    · subst hj; simp [hi, has]
    · rw [or_iff_right hj]; exact hmem j hj

theorem WF.add {s : State ι α} (hw : WF t d s) {i : ι} (hi : s.rem i = []) (as : List α) :
    WF t d (add t d s i as) := by
  have hni : i ∉ s.chain := fun h => (hw.mem i).mp h hi
  have hne : ∀ j ∈ s.chain, j ≠ i := fun j hj hji => hni (hji ▸ hj)
  have hjs : Sorted (front t d (Function.update s.rem i as)) s.chain :=
    Sorted.congr (fun j hj => (front_update_of_ne (hne j hj)).symm) hw.sorted
  by_cases has : as = []
  · subst has
    refine ⟨by simpa [KMerge.add] using hw.nodup, fun j => ?_, by simpa [KMerge.add] using hjs⟩
    by_cases hj : j = i
    · subst hj; simp [KMerge.add, hni]
    · simp [KMerge.add, Function.update_of_ne hj, hw.mem j]
  · simp only [KMerge.add, if_neg has]
    refine ⟨?_, fun j => ?_, insert_sorted _ hjs⟩
    · exact (insert_perm _ i s.chain).nodup_iff.mpr (List.nodup_cons.mpr ⟨hni, hw.nodup⟩)
    · show j ∈ KMerge.insert _ i s.chain ↔ _
      rw [mem_insert]
      by_cases hj : j = i
      · subst hj; simp [has]
      · simp [hj, hw.mem j]

theorem Ordered.pop {s s' : State ι α} {e : ι × α} (ho : Ordered t s)
    (h : KMerge.pop t d s = some (e, s')) : Ordered t s' := by
  obtain ⟨js, as, -, hr, hrem, -⟩ := pop_eq_some h
  intro j
  by_cases hj : j = e.1
  · subst hj
    have hok := ho e.1
    rw [hr] at hok
    rw [hrem, Function.update_self]
    exact (List.pairwise_cons.mp hok).2
  · rw [hrem, Function.update_of_ne hj]
    exact ho j

theorem Ordered.add {s : State ι α} (ho : Ordered t s) {i : ι} {as : List α}
    (has : as.Pairwise fun a b => t a ≤ t b) : Ordered t (KMerge.add t d s i as) := by
  intro j
  show (Function.update s.rem i as j).Pairwise _
  by_cases hj : j = i
  · subst hj; rwa [Function.update_self]
  · rw [Function.update_of_ne hj]; exact ho j

/-! ## The size -/

/-- The rest of the chain does not see the head's stream change. -/
theorem map_length_update (rem : ι → List α) {i : ι} {js : List ι} (hi : i ∉ js) (as : List α) :
    js.map (fun j => (Function.update rem i as j).length) = js.map fun j => (rem j).length := by
  refine List.map_congr_left fun j hj => ?_
  have hne : j ≠ i := fun hji => hi (hji ▸ hj)
  rw [Function.update_of_ne hne]

theorem pop_size {s s' : State ι α} {e : ι × α} (hw : WF t d s)
    (h : pop t d s = some (e, s')) : size s = size s' + 1 := by
  obtain ⟨js, as, hc, hr, hrem, hchain⟩ := pop_eq_some h
  have hni : e.1 ∉ js := by
    have hnd := hw.nodup
    rw [hc] at hnd
    exact (List.nodup_cons.mp hnd).1
  have hjs := map_length_update s.rem hni as
  have hs : size s = as.length + 1 + (js.map fun j => (s.rem j).length).sum := by
    simp [size, hc, hr]
  by_cases has : as = []
  · rw [if_pos has] at hchain
    rw [hs, size, hchain, hrem, hjs, has, List.length_nil]
    omega
  · rw [if_neg has] at hchain
    have hp := ((resort_perm (front t d s'.rem) e.1 js).map fun j => (s'.rem j).length).sum_eq
    rw [hs, size, hchain, hp, hrem, List.map_cons, List.sum_cons, hjs, Function.update_self]
    omega

theorem size_add {s : State ι α} {i : ι} (hi : i ∉ s.chain) (as : List α) :
    size (add t d s i as) = size s + as.length := by
  have hjs := map_length_update s.rem hi as
  by_cases has : as = []
  · subst has; simp [size, add, hjs]
  · have hp := ((insert_perm (front t d (Function.update s.rem i as)) i s.chain).map
      fun j => (Function.update s.rem i as j).length).sum_eq
    simp only [size, add, if_neg has]
    rw [hp, List.map_cons, List.sum_cons, hjs, Function.update_self, Nat.add_comm]

/-! ## What a run guarantees -/

theorem pop_le {s s' : State ι α} {e : ι × α} (hw : WF t d s) (ho : Ordered t s)
    (h : pop t d s = some (e, s')) (i : ι) : ∀ a ∈ s.rem i, t e.2 ≤ t a := by
  obtain ⟨js, as, hc, hr, -, -⟩ := pop_eq_some h
  rw [← front_cons t d hr]
  exact front_le hw ho hc i

/-- A step gives nothing to a stream. -/
theorem mem_of_mem_pop {s s' : State ι α} {e : ι × α} (h : pop t d s = some (e, s')) {i : ι}
    {a : α} (ha : a ∈ s'.rem i) : a ∈ s.rem i := by
  obtain ⟨js, as, -, hr, hrem, -⟩ := pop_eq_some h
  rw [hrem] at ha
  by_cases hi : i = e.1
  · subst hi
    rw [Function.update_self] at ha
    rw [hr]
    exact List.mem_cons_of_mem _ ha
  · rwa [Function.update_of_ne hi] at ha

/-- A run gives only what the streams hold. -/
theorem mem_rem_of_mem_run (stop : α → Bool) (n : Nat) (s : State ι α) :
    ∀ e ∈ run t d stop n s, e.2 ∈ s.rem e.1 := by
  induction n generalizing s with
  | zero => intro e he; simp [run] at he
  | succ n ih =>
    intro e he
    rw [run] at he
    cases hp : KMerge.pop t d s with
    | none => rw [hp] at he; simp at he
    | some p =>
      obtain ⟨f, s'⟩ := p
      obtain ⟨js, as, -, hr, -, -⟩ := pop_eq_some hp
      rw [hp] at he
      rcases List.mem_cons.mp he with rfl | he
      · rw [hr]; exact List.mem_cons_self
      · by_cases hs : stop f.2 = true
        · rw [if_pos hs] at he; simp at he
        · rw [if_neg hs] at he
          exact mem_of_mem_pop hp (ih s' e he)

/-- **The output is globally non-decreasing.** -/
theorem run_sorted {stop : α → Bool} {n : Nat} {s : State ι α} (hw : WF t d s)
    (ho : Ordered t s) : (run t d stop n s).Pairwise fun a b => t a.2 ≤ t b.2 := by
  induction n generalizing s with
  | zero => exact List.Pairwise.nil
  | succ n ih =>
    rw [run]
    cases hp : KMerge.pop t d s with
    | none => exact List.Pairwise.nil
    | some p =>
      obtain ⟨f, s'⟩ := p
      dsimp only
      split
      case isTrue => exact List.pairwise_singleton _ _
      case isFalse hs =>
        refine List.pairwise_cons.mpr ⟨fun e he => ?_, ih (hw.pop hp) (ho.pop hp)⟩
        -- what comes later was already there when `f` left
        have hmem : e ∈ run t d stop (n + 1) s := by
          rw [run, hp]
          exact List.mem_cons_of_mem _ (by rwa [if_neg hs])
        exact pop_le hw ho hp e.1 e.2 (mem_rem_of_mem_run stop (n + 1) s e hmem)

/-- The records a run took from stream `i`, in order. -/
def taken (i : ι) (out : List (ι × α)) : List α :=
  (out.filter fun e => e.1 = i).map Prod.snd

@[simp] theorem taken_nil (i : ι) : taken i ([] : List (ι × α)) = [] := rfl

theorem taken_cons (i : ι) (e : ι × α) (out : List (ι × α)) :
    taken i (e :: out) = if e.1 = i then e.2 :: taken i out else taken i out := by
  unfold taken
  by_cases h : e.1 = i <;> simp [h]

/-- The output is what the streams gave, stream by stream. -/
theorem taken_perm {ids : List ι} (hnd : ids.Nodup) {out : List (ι × α)}
    (h : ∀ e ∈ out, e.1 ∈ ids) :
    (out.map Prod.snd).Perm (ids.flatMap fun i => taken i out) := by
  induction out with
  | nil => simp
  | cons e out ih =>
    obtain ⟨he, hout⟩ := List.forall_mem_cons.mp h
    obtain ⟨left, right, rfl⟩ := List.append_of_mem he
    -- the stream of `e` gives one more, the others the same
    have hsame : ∀ is : List ι, (∀ i ∈ is, i ≠ e.1) →
        (is.flatMap fun i => taken i (e :: out)) = is.flatMap fun i => taken i out := by
      intro is his
      refine List.flatMap_congr fun i hi => ?_
      rw [taken_cons, if_neg (Ne.symm (his i hi))]
    obtain ⟨-, hright, hcross⟩ := List.nodup_append.mp hnd
    have hleft : ∀ i ∈ left, i ≠ e.1 := fun i hi => hcross i hi e.1 List.mem_cons_self
    have hright' : ∀ i ∈ right, i ≠ e.1 := by
      rintro i hi rfl
      exact (List.nodup_cons.mp hright).1 hi
    have hperm := (ih hout).cons e.2
    rw [List.flatMap_append, List.flatMap_cons] at hperm ⊢
    rw [hsame left hleft, hsame right hright', taken_cons, if_pos rfl, List.map_cons]
    exact hperm.trans List.perm_middle.symm

/-- What a stream gives now and later, and what it keeps: the step of every law below. -/
theorem taken_pop {s s' : State ι α} {e : ι × α} (h : pop t d s = some (e, s')) (i : ι)
    (out : List (ι × α)) (rest : List α) (hrest : s'.rem i = taken i out ++ rest) :
    s.rem i = taken i (e :: out) ++ rest := by
  obtain ⟨js, as, -, hr, hrem, -⟩ := pop_eq_some h
  rw [taken_cons]
  rw [hrem] at hrest
  by_cases hji : e.1 = i
  · subst hji
    rw [Function.update_self] at hrest
    rw [if_pos rfl, hr, List.cons_append, hrest]
  · rw [Function.update_of_ne (Ne.symm hji)] at hrest
    rw [if_neg hji, hrest]

/-- **Every stream's records leave in its own order**: what a run took from a stream is a prefix
of what the stream held. -/
theorem run_prefix (stop : α → Bool) (n : Nat) (s : State ι α) (i : ι) :
    taken i (run t d stop n s) <+: s.rem i := by
  induction n generalizing s with
  | zero => exact List.nil_prefix
  | succ n ih =>
    rw [run]
    cases hp : KMerge.pop t d s with
    | none => exact List.nil_prefix
    | some p =>
      obtain ⟨f, s'⟩ := p
      dsimp only
      split
      case isTrue =>
        exact ⟨s'.rem i, (taken_pop hp i [] (s'.rem i) rfl).symm⟩
      case isFalse =>
        obtain ⟨rest, hrest⟩ := ih s'
        exact ⟨rest, (taken_pop hp i _ rest hrest.symm).symm⟩

/-- Where stopping is a matter of the key alone and, among the records held (`P`), closed
upwards, what a run long enough left behind would all have stopped it. -/
theorem run_rest_stops {stop : α → Bool} {P : α → Prop}
    (hup : ∀ a b, P a → stop a = true → t a ≤ t b → stop b = true) {n : Nat} {s : State ι α}
    (hw : WF t d s) (ho : Ordered t s) (hP : ∀ i, ∀ a ∈ s.rem i, P a) (hn : size s ≤ n) (i : ι) :
    ∃ rest, s.rem i = taken i (run t d stop n s) ++ rest ∧ ∀ a ∈ rest, stop a = true := by
  induction n generalizing s with
  | zero =>
    refine ⟨[], ?_, by simp⟩
    have hlen : ∀ j ∈ s.chain, (s.rem j).length ≤ size s := fun j hj =>
      List.single_le_sum (by simp) _ (List.mem_map_of_mem (f := fun j => (s.rem j).length) hj)
    have hi : i ∉ s.chain := fun h =>
      (hw.mem i).mp h (List.length_eq_zero_iff.mp (by have := hlen i h; omega))
    simpa [run] using (hw.mem i).not_left.mp hi
  | succ n ih =>
    rw [run]
    cases hp : KMerge.pop t d s with
    | none => exact ⟨[], by simp [hw.rem_eq_nil (hw.pop_eq_none hp) i], by simp⟩
    | some p =>
      obtain ⟨f, s'⟩ := p
      have hsz := pop_size hw hp
      dsimp only
      by_cases hs : stop f.2 = true
      · -- the run ends here, and everything left is at or above the record that ended it
        rw [if_pos hs]
        obtain ⟨js, as, -, hr, -, -⟩ := pop_eq_some hp
        have hPf : P f.2 := hP f.1 f.2 (by rw [hr]; exact List.mem_cons_self)
        exact ⟨s'.rem i, taken_pop hp i [] (s'.rem i) rfl, fun a ha =>
          hup f.2 a hPf hs (pop_le hw ho hp i a (mem_of_mem_pop hp ha))⟩
      · rw [if_neg hs]
        obtain ⟨rest, hrest, hall⟩ := ih (hw.pop hp) (ho.pop hp)
          (fun j a ha => hP j a (mem_of_mem_pop hp ha)) (by omega)
        exact ⟨rest, taken_pop hp i _ rest hrest, hall⟩

/-- A run long enough that met no stopping record took everything, ordered or not. -/
theorem run_complete {stop : α → Bool} {n : Nat} {s : State ι α} (hw : WF t d s)
    (hn : size s ≤ n) (hs : ∀ e ∈ run t d stop n s, stop e.2 = false) (i : ι) :
    s.rem i = taken i (run t d stop n s) := by
  induction n generalizing s with
  | zero =>
    have hlen : ∀ j ∈ s.chain, (s.rem j).length ≤ size s := fun j hj =>
      List.single_le_sum (by simp) _ (List.mem_map_of_mem (f := fun j => (s.rem j).length) hj)
    have hi : i ∉ s.chain := fun h =>
      (hw.mem i).mp h (List.length_eq_zero_iff.mp (by have := hlen i h; omega))
    simpa [run] using (hw.mem i).not_left.mp hi
  | succ n ih =>
    rw [run] at hs ⊢
    cases hp : KMerge.pop t d s with
    | none => simp [hw.rem_eq_nil (hw.pop_eq_none hp) i]
    | some p =>
      obtain ⟨f, s'⟩ := p
      have hsz := pop_size hw hp
      rw [hp] at hs
      have hf : stop f.2 = false := hs f List.mem_cons_self
      simp only [hf, Bool.false_eq_true, if_false] at hs ⊢
      have hrest := ih (hw.pop hp) (by omega) fun e he => hs e (List.mem_cons_of_mem _ he)
      have := taken_pop hp i _ [] (by rw [List.append_nil]; exact hrest)
      rwa [List.append_nil] at this

/-- Only the last record of a run can be a stopping one. -/
theorem run_stop_last (stop : α → Bool) (n : Nat) (s : State ι α) :
    ∀ e ∈ (run t d stop n s).dropLast, stop e.2 = false := by
  induction n generalizing s with
  | zero => intro e he; simp [run] at he
  | succ n ih =>
    intro e he
    rw [run] at he
    cases hp : KMerge.pop t d s with
    | none => rw [hp] at he; simp at he
    | some p =>
      obtain ⟨f, s'⟩ := p
      rw [hp] at he
      dsimp only at he
      by_cases hf : stop f.2 = true
      · rw [if_pos hf] at he; simp at he
      · rw [if_neg hf] at he
        cases hrun : run t d stop n s' with
        | nil => rw [hrun] at he; simp at he
        | cons g out =>
          rw [hrun, List.dropLast_cons_of_ne_nil (List.cons_ne_nil _ _)] at he
          rcases List.mem_cons.mp he with rfl | he
          · simpa using hf
          · exact ih s' e (by rw [hrun]; exact he)

end KMerge
