import Blktrace.Lib.Linked
import Blktrace.Lib.Runs
import Blktrace.Blkiomon.Match
import Mathlib.Algebra.Order.BigOperators.Group.Finset

/-!
# The trace structs of `blkiomon`

A `struct trace` goes from `malloc` to the hands of the reader loop, from there to the table and back, and
to the list of vacant ones. The lists are threaded through one field of the structs, so that a struct in
two of them would break both.
-/

namespace Blktrace.Blkiomon

/-- The address of a `struct trace`. -/
abbrev Addr := ℕ

/-- The structs, and the heads of their lists. `live` are those that `malloc` gave and `free` did not take
back. -/
structure Traces where
  bit : Addr → BlkIoTrace
  next : Addr → Option Addr
  thash : Fin 128 → Option Addr := fun _ => none
  vacantTracesList : Option Addr := none
  vacantTraces : ℕ := 0
  live : Finset Addr := ∅

/-- A struct of zeros. -/
def noTrace : BlkIoTrace := ⟨0, 0, 0, 0, 0, 0, 0, 0, 0, 0, 0, []⟩

namespace Traces

def keyAt (s : Traces) (t : Addr) : Key := keyOf (s.bit t)

/-- `memset`. -/
def clear (s : Traces) (t : Addr) : Traces :=
  { s with bit := Function.update s.bit t noTrace, next := Function.update s.next t none }

/-- `blkiomon_alloc_trace`. `malloc` is what that returns, if it is called: a block that is not in use. -/
def blkiomonAllocTrace (s : Traces) (malloc : Addr) : Option (Addr × Traces) :=
  match s.vacantTracesList with
  | some t =>
    some (t, { s with vacantTracesList := s.next t, vacantTraces := s.vacantTraces - 1 }.clear t)
  | none =>
    if malloc ∈ s.live then none
    else some (malloc, { s with live := insert malloc s.live }.clear malloc)

/-- `blkiomon_free_trace`. -/
def blkiomonFreeTrace (s : Traces) (t : Addr) : Traces :=
  if s.vacantTraces < 256 then
    { s with
      next := Function.update s.next t s.vacantTracesList
      vacantTracesList := some t
      vacantTraces := s.vacantTraces + 1 }
  else { s with live := s.live.erase t }

/-- `blkiomon_store_trace`. -/
def blkiomonStoreTrace (s : Traces) (t : Addr) : Traces :=
  let i := slotOf (s.keyAt t)
  { s with
    next := Function.update s.next t (s.thash i)
    thash := Function.update s.thash i (some t) }

/-- `t` is taken out of the chain `i`, where it is behind `prev` or the first. -/
def unlink (s : Traces) (i : Fin 128) (prev : Option Addr) (t : Addr) : Traces :=
  match prev with
  | some prev => { s with next := Function.update s.next prev (s.next t) }
  | none => { s with thash := Function.update s.thash i (s.next t) }

/-- The loop of `blkiomon_fetch_trace`, for at most `fuel` turns. -/
def fetchLoop (s : Traces) (bit : BlkIoTrace) : ℕ → Option Addr → Option Addr → Option Addr × Traces
  | 0, _, _ => (none, s)
  | _ + 1, _, none => (none, s)
  | fuel + 1, prev, some t =>
    if s.keyAt t = keyOf bit then (some t, s.unlink (slotOf (keyOf bit)) prev t)
    else s.fetchLoop bit fuel (some t) (s.next t)

/-- `blkiomon_fetch_trace`. A chain is not longer than there are structs. -/
def blkiomonFetchTrace (s : Traces) (bit : BlkIoTrace) : Option Addr × Traces :=
  s.fetchLoop bit (s.live.card + 1) none (s.thash (slotOf (keyOf bit)))

/-- The older and the younger trace. -/
def ordered (s : Traces) (tStored t : Addr) : Addr × Addr :=
  if (s.bit tStored).time < (s.bit t).time then (tStored, t) else (t, tStored)

end Traces

/-! ## The reader loop -/

/-- Where `blkiomon_do_fifo` is, with the structs in its hands. -/
inductive Pc
  | alloc
  | top (t : Addr)
  | doTrace (t : Addr)
  | pair (t tStored : Addr)
  | last (t : Addr)
  | done
deriving DecidableEq

def Pc.hands : Pc → List Addr
  | .alloc => []
  | .top t => [t]
  | .doTrace t => [t]
  | .pair t tStored => [t, tStored]
  | .last t => [t]
  | .done => []

/-- What comes from outside: a block of `malloc`, a record as converted and whether driver data could be
sent on, the end of the input or of the program, and nothing. -/
inductive Event
  | malloc (t : Addr)
  | read (bit : BlkIoTrace) (sent : Bool)
  | stop
  | go (malloc : Bool)

structure Loop where
  s : Traces
  dstats : Dstats := {}
  pc : Pc := .alloc

/-- The loop goes on to the next call, `none` where it does not get there. -/
def step (x : Loop) (e : Event) : Option Loop :=
  match x.pc, e with
  | .alloc, .malloc t => (x.s.blkiomonAllocTrace t).map fun (t, s) => { x with s, pc := .top t }
  | .top t, .read bit sent =>
    let s := { x.s with bit := Function.update x.s.bit t bit }
    if verifyTrace bit then some { x with s, pc := .last t }
    else if bit.hasTc blkTcDrvData then some { x with s, pc := if sent then .top t else .last t }
    else if !bit.hasTc (blkTcIssue ||| blkTcComplete) then some { x with s, pc := .top t }
    else some { x with s, pc := .doTrace t }
  | .top t, .stop => some { x with pc := .last t }
  | .doTrace t, .go _ =>
    match x.s.blkiomonFetchTrace (x.s.bit t) with
    | (none, s) => some { x with s := s.blkiomonStoreTrace t, pc := .alloc }
    | (some tStored, s) => some { x with s, pc := .pair t tStored }
  | .pair t tStored, .go malloc =>
    let (tOld, tYoung) := x.s.ordered tStored t
    if isMatch (x.s.bit tOld) (x.s.bit tYoung) then
      (blkiomonAccount malloc x.dstats (x.s.bit tOld) (x.s.bit tYoung)).map fun dstats =>
        { s := x.s.blkiomonFreeTrace tStored, dstats, pc := .top t }
    else some { x with s := x.s.blkiomonStoreTrace tYoung, pc := .top tOld }
  | .last t, .go _ => some { x with s := x.s.blkiomonFreeTrace t, pc := .done }
  | _, _ => none

/-! ## Who has which struct -/

/-- The structs of the table. -/
@[irreducible] def inTable (chains : Fin 128 → List Addr) : Multiset Addr := ∑ i, (chains i : Multiset Addr)

/-- The lists that the pointers lead to and the structs in the hands of the loop: each struct is in one of
them, and once. -/
structure Owned (s : Traces) (chains : Fin 128 → List Addr) (vacant hands : List Addr) : Prop where
  thash : ∀ i, Linked.Chain s.next (s.thash i) (chains i)
  vacantTracesList : Linked.Chain s.next s.vacantTracesList vacant
  vacantTraces : s.vacantTraces = vacant.length
  once : inTable chains + vacant + hands = s.live.val

/-- The chains are those of a hash table that holds no key twice. -/
structure Keyed (s : Traces) (chains : Fin 128 → List Addr) : Prop where
  single : Chains.Single s.keyAt chains
  placed : ∀ i, ∀ t ∈ chains i, slotOf (s.keyAt t) = i

section

variable {s : Traces} {chains : Fin 128 → List Addr} {vacant hands : List Addr}

/-- Two traces of the table do not have one key. -/
theorem Keyed.inj (h : Keyed s chains) {i j : Fin 128} {t u : Addr} (ht : t ∈ chains i)
    (hu : u ∈ chains j) (hkey : s.keyAt t = s.keyAt u) : t = u := by
  have hij : i = j := by rw [← h.placed i t ht, ← h.placed j u hu, hkey]
  subst hij
  exact List.inj_on_of_nodup_map (h.single i) ht hu hkey

theorem Keyed.congr (h : Keyed s chains) {s' : Traces}
    (hbit : ∀ i, ∀ t ∈ chains i, s'.bit t = s.bit t) : Keyed s' chains where
  single := by
    intro i
    have hmap : (chains i).map s'.keyAt = (chains i).map s.keyAt :=
      List.map_congr_left fun t ht => congrArg keyOf (hbit i t ht)
    rw [hmap]
    exact h.single i
  placed := by
    intro i t ht
    rw [Traces.keyAt, hbit i t ht]
    exact h.placed i t ht

theorem Owned.nodup (h : Owned s chains vacant hands) :
    (inTable chains + vacant + hands).Nodup := by
  rw [h.once]
  exact s.live.nodup

theorem mem_inTable {t : Addr} : t ∈ inTable chains ↔ ∃ i, t ∈ chains i := by
  unfold inTable
  simp [Multiset.mem_sum]

/-- The three lots are apart. -/
theorem Owned.parts (h : Owned s chains vacant hands) :
    (inTable chains).Nodup ∧ vacant.Nodup ∧ hands.Nodup ∧ (∀ t ∈ vacant, ∀ i, t ∉ chains i) ∧
      ∀ t ∈ hands, t ∉ vacant ∧ ∀ i, t ∉ chains i := by
  have hnodup := h.nodup
  rw [Multiset.nodup_add, Multiset.nodup_add, Multiset.coe_nodup, Multiset.coe_nodup] at hnodup
  obtain ⟨⟨htable, hvacant, hfirst⟩, hhands, hsecond⟩ := hnodup
  refine ⟨htable, hvacant, hhands, fun t ht i hi => ?_, fun t ht => ?_⟩
  · exact Multiset.disjoint_left.mp hfirst (mem_inTable.mpr ⟨i, hi⟩) (Multiset.mem_coe.mpr ht)
  · have hnot := Multiset.disjoint_right.mp hsecond (Multiset.mem_coe.mpr ht)
    rw [Multiset.mem_add, not_or, mem_inTable, not_exists] at hnot
    exact ⟨hnot.2, hnot.1⟩

/-- The order of two structs in the hands does not matter. -/
theorem Owned.swap {t u : Addr} (h : Owned s chains vacant [t, u]) : Owned s chains vacant [u, t] where
  thash := h.thash
  vacantTracesList := h.vacantTracesList
  vacantTraces := h.vacantTraces
  once := by
    rw [← h.once]
    exact congrArg _ (Multiset.coe_eq_coe.mpr (List.Perm.swap _ _ _))

/-- One of the chains, and the others. -/
theorem inTable_eq (chains : Fin 128 → List Addr) (i : Fin 128) :
    inTable chains = chains i + ∑ j ∈ Finset.univ.erase i, (chains j : Multiset Addr) := by
  unfold inTable
  exact (Finset.add_sum_erase _ _ (Finset.mem_univ i)).symm

theorem Owned.of_chain (h : Owned s chains vacant hands) (i : Fin 128) :
    (chains i).Nodup ∧ ∀ t ∈ chains i, ∀ j ≠ i, t ∉ chains j := by
  have htable := h.parts.1
  rw [inTable_eq chains i, Multiset.nodup_add] at htable
  obtain ⟨hchain, -, hdisjoint⟩ := htable
  refine ⟨hchain, fun t ht j hj htj => ?_⟩
  refine Multiset.disjoint_left.mp hdisjoint (Multiset.mem_coe.mpr ht) ?_
  rw [Multiset.mem_sum]
  exact ⟨j, Finset.mem_erase.mpr ⟨hj, Finset.mem_univ j⟩, Multiset.mem_coe.mpr htj⟩

/-- Another list takes the place of a chain. -/
theorem inTable_update (chains : Fin 128 → List Addr) (i : Fin 128) (l : List Addr) :
    inTable (Function.update chains i l) + chains i = inTable chains + l := by
  have hcoe : ∀ j, (Function.update chains i l j : Multiset Addr) =
      Function.update (fun j => (chains j : Multiset Addr)) i l j :=
    Function.apply_update (fun _ (l : List Addr) => (l : Multiset Addr)) chains i l
  unfold inTable
  rw [Finset.sum_congr rfl fun j _ => hcoe j]
  exact Runs.sum_update (Finset.mem_univ i) _ _

/-! ## The four calls -/

/-- `blkiomon_alloc_trace` hands a struct out. -/
theorem Owned.alloc (h : Owned s chains vacant hands) {malloc t : Addr} {s' : Traces}
    (halloc : s.blkiomonAllocTrace malloc = some (t, s')) :
    (∃ vacant', Owned s' chains vacant' (t :: hands)) ∧ ∀ u, u ≠ t → s'.bit u = s.bit u := by
  unfold Traces.blkiomonAllocTrace at halloc
  have hlist := h.vacantTracesList
  cases hhead : s.vacantTracesList with
  | some v =>
    rw [hhead] at halloc hlist
    obtain ⟨vacant', rfl, hrest⟩ := Linked.chain_some.mp hlist
    obtain ⟨rfl, rfl⟩ := Prod.mk.inj (Option.some.inj halloc)
    obtain ⟨-, hnodup, -, hchains, -⟩ := h.parts
    refine ⟨⟨vacant', ?_, ?_, ?_, ?_⟩, fun u hu => Function.update_of_ne hu _ _⟩
    · exact fun i => (h.thash i).frame (hchains v List.mem_cons_self i) none
    · exact hrest.frame (List.nodup_cons.mp hnodup).1 none
    · show s.vacantTraces - 1 = vacant'.length
      rw [h.vacantTraces]
      rfl
    · refine Eq.trans ?_ h.once
      rw [← Multiset.cons_coe, ← Multiset.cons_coe, Multiset.add_cons, Multiset.add_cons, Multiset.cons_add]
  | none =>
    rw [hhead] at halloc hlist
    obtain rfl := Linked.chain_none.mp hlist
    dsimp only at halloc
    split_ifs at halloc with hmalloc
    obtain ⟨rfl, rfl⟩ := Prod.mk.inj (Option.some.inj halloc)
    refine ⟨⟨[], ?_, ?_, h.vacantTraces, ?_⟩, fun u hu => Function.update_of_ne hu _ _⟩
    · intro i
      refine (h.thash i).frame (fun hi => hmalloc ?_) none
      rw [← Finset.mem_val, ← h.once]
      exact Multiset.mem_add.mpr (.inl (Multiset.mem_add.mpr (.inl (mem_inTable.mpr ⟨i, hi⟩))))
    · rfl
    · show _ = (insert malloc s.live).val
      rw [Finset.insert_val_of_notMem hmalloc, ← h.once, ← Multiset.cons_coe, Multiset.add_cons]

/-- `blkiomon_free_trace` takes one back. -/
theorem Owned.free {t : Addr} (h : Owned s chains vacant (t :: hands)) :
    ∃ vacant', Owned (s.blkiomonFreeTrace t) chains vacant' hands := by
  obtain ⟨-, -, -, -, hhands⟩ := h.parts
  obtain ⟨hvacant, hchains⟩ := hhands t List.mem_cons_self
  unfold Traces.blkiomonFreeTrace
  split_ifs with hroom
  · refine ⟨t :: vacant, ?_, ?_, ?_, ?_⟩
    · exact fun i => (h.thash i).frame (hchains i) _
    · exact h.vacantTracesList.push hvacant
    · show s.vacantTraces + 1 = vacant.length + 1
      rw [h.vacantTraces]
    · refine Eq.trans ?_ h.once
      rw [← Multiset.cons_coe, ← Multiset.cons_coe, Multiset.add_cons, Multiset.add_cons, Multiset.cons_add]
  · refine ⟨vacant, h.thash, h.vacantTracesList, h.vacantTraces, ?_⟩
    show _ = (s.live.erase t).val
    rw [Finset.erase_val, ← h.once, ← Multiset.cons_coe, Multiset.add_cons, Multiset.erase_cons_head]

theorem bit_free (s : Traces) (t : Addr) : (s.blkiomonFreeTrace t).bit = s.bit := by
  unfold Traces.blkiomonFreeTrace
  split_ifs <;> rfl

/-- `blkiomon_store_trace` puts one into the table. -/
theorem Owned.store {t : Addr} (h : Owned s chains vacant (t :: hands)) :
    Owned (s.blkiomonStoreTrace t) (Chains.store s.keyAt slotOf chains t) vacant hands := by
  obtain ⟨-, -, -, -, hhands⟩ := h.parts
  obtain ⟨hvacant, hchains⟩ := hhands t List.mem_cons_self
  refine ⟨fun i => ?_, h.vacantTracesList.frame hvacant _, h.vacantTraces, ?_⟩
  · show Linked.Chain _ (Function.update s.thash (slotOf (s.keyAt t)) (some t) i)
      (Function.update chains (slotOf (s.keyAt t)) _ i)
    by_cases hi : i = slotOf (s.keyAt t)
    · subst hi
      rw [Function.update_self, Function.update_self]
      exact (h.thash _).push (hchains _)
    · rw [Function.update_of_ne hi, Function.update_of_ne hi]
      exact (h.thash i).frame (hchains i) _
  · have htable : inTable (Chains.store s.keyAt slotOf chains t) = t ::ₘ inTable chains := by
      apply add_right_cancel (b := (chains (slotOf (s.keyAt t)) : Multiset Addr))
      rw [Chains.store, inTable_update, ← Multiset.cons_coe, Multiset.add_cons, Multiset.cons_add]
    refine Eq.trans ?_ h.once
    rw [htable, ← Multiset.cons_coe, Multiset.add_cons, Multiset.cons_add, Multiset.cons_add]

theorem Keyed.store (h : Keyed s chains) {t : Addr}
    (hnone : Chains.held s.keyAt slotOf chains (s.keyAt t) = none) :
    Keyed (s.blkiomonStoreTrace t) (Chains.store s.keyAt slotOf chains t) where
  single := h.single.store hnone
  placed := by
    intro i u hu
    show slotOf (s.keyAt u) = i
    rw [Chains.store] at hu
    by_cases hi : i = slotOf (s.keyAt t)
    · subst hi
      rw [Function.update_self] at hu
      rcases List.mem_cons.mp hu with rfl | hu
      · rfl
      · exact h.placed _ u hu
    · rw [Function.update_of_ne hi] at hu
      exact h.placed i u hu

/-- The loop goes down the chain to the first trace with the key. -/
theorem fetchLoop_spec (bit : BlkIoTrace) {fuel : ℕ} {pre l : List Addr} {p : Option Addr}
    (hp : Linked.Chain s.next p l) (hfuel : l.length < fuel) :
    (s.fetchLoop bit fuel pre.getLast? p = (none, s) ∧ ∀ t ∈ l, s.keyAt t ≠ keyOf bit) ∨
      ∃ l₁ t l₂, l = l₁ ++ t :: l₂ ∧ (∀ u ∈ l₁, s.keyAt u ≠ keyOf bit) ∧ s.keyAt t = keyOf bit ∧
        s.fetchLoop bit fuel pre.getLast? p =
          (some t, s.unlink (slotOf (keyOf bit)) (pre ++ l₁).getLast? t) := by
  induction l generalizing fuel pre p with
  | nil =>
    obtain ⟨fuel, rfl⟩ := Nat.exists_eq_add_one_of_ne_zero (Nat.ne_of_gt (Nat.zero_lt_of_lt hfuel))
    obtain rfl : p = none := hp
    exact .inl ⟨rfl, nofun⟩
  | cons a l ih =>
    obtain ⟨fuel, rfl⟩ := Nat.exists_eq_add_one_of_ne_zero (Nat.ne_of_gt (Nat.zero_lt_of_lt hfuel))
    obtain ⟨rfl, hl⟩ := hp
    rw [Traces.fetchLoop]
    split_ifs with hkey
    · exact .inr ⟨[], a, l, rfl, nofun, hkey, by rw [List.append_nil]⟩
    have hrest := @ih _ (pre ++ [a]) _ hl (Nat.lt_of_succ_lt_succ hfuel)
    rw [List.getLast?_concat] at hrest
    rcases hrest with ⟨hnone, hall⟩ | ⟨l₁, t, l₂, rfl, hl₁, ht, hsome⟩
    · exact .inl ⟨hnone, List.forall_mem_cons.mpr ⟨hkey, hall⟩⟩
    · refine .inr ⟨a :: l₁, t, l₂, rfl, List.forall_mem_cons.mpr ⟨hkey, hl₁⟩, ht, ?_⟩
      rw [hsome, List.append_assoc]
      rfl

/-- A chain is not longer than there are structs. -/
theorem Owned.length_le (h : Owned s chains vacant hands) (i : Fin 128) :
    (chains i).length ≤ s.live.card := by
  rw [Finset.card_def, ← h.once, inTable_eq chains i]
  simp only [Multiset.card_add, Multiset.coe_card]
  exact (Nat.le_add_right _ _).trans ((Nat.le_add_right _ _).trans (Nat.le_add_right _ _))

/-- A trace is taken out of its chain. -/
theorem Owned.unlink (h : Owned s chains vacant hands) {i : Fin 128} {l₁ l₂ : List Addr} {t : Addr}
    (hi : chains i = l₁ ++ t :: l₂) :
    Owned (s.unlink i l₁.getLast? t) (Function.update chains i (l₁ ++ l₂)) vacant (t :: hands) := by
  have honce : inTable (Function.update chains i (l₁ ++ l₂)) + vacant + (t :: hands : List Addr) =
      s.live.val := by
    have htable : t ::ₘ inTable (Function.update chains i (l₁ ++ l₂)) = inTable chains := by
      apply add_right_cancel (b := (chains i : Multiset Addr))
      rw [Multiset.cons_add, inTable_update, hi, ← Multiset.add_cons, Multiset.cons_coe]
      exact congrArg _ (Multiset.coe_eq_coe.mpr List.perm_middle.symm)
    rw [← Multiset.cons_coe, Multiset.add_cons, ← Multiset.cons_add, ← Multiset.cons_add, htable]
    exact h.once
  obtain ⟨hnodup, hothers⟩ := h.of_chain i
  rw [hi] at hnodup
  have hchain := (hi ▸ h.thash i).remove hnodup
  cases hlast : l₁.getLast? with
  | none =>
    rw [hlast] at hchain
    refine ⟨fun j => ?_, h.vacantTracesList, h.vacantTraces, honce⟩
    show Linked.Chain s.next (Function.update s.thash i (s.next t) j) (Function.update chains i (l₁ ++ l₂) j)
    by_cases hj : j = i
    · subst hj
      rw [Function.update_self, Function.update_self]
      exact hchain
    · rw [Function.update_of_ne hj, Function.update_of_ne hj]
      exact h.thash j
  | some b =>
    rw [hlast] at hchain
    have hb : b ∈ chains i := by
      rw [hi]
      exact List.mem_append_left _ (List.mem_of_getLast? hlast)
    refine ⟨fun j => ?_, ?_, h.vacantTraces, honce⟩
    · show Linked.Chain (Function.update s.next b (s.next t)) (s.thash j) (Function.update chains i (l₁ ++ l₂) j)
      by_cases hj : j = i
      · subst hj
        rw [Function.update_self]
        exact hchain
      · rw [Function.update_of_ne hj]
        exact (h.thash j).frame (hothers b hb j hj) _
    · exact h.vacantTracesList.frame (fun hbv => h.parts.2.2.2.1 b hbv i hb) _

theorem bit_unlink (s : Traces) (i : Fin 128) (prev : Option Addr) (t : Addr) :
    (s.unlink i prev t).bit = s.bit := by
  cases prev <;> rfl

/-- **`blkiomon_fetch_trace`** hands out the trace that the table holds for the key, if there is one. -/
theorem Owned.fetch (h : Owned s chains vacant hands) (bit : BlkIoTrace) :
    (s.blkiomonFetchTrace bit = (none, s) ∧ Chains.held s.keyAt slotOf chains (keyOf bit) = none) ∨
      ∃ t s', s.blkiomonFetchTrace bit = (some t, s') ∧
        Chains.held s.keyAt slotOf chains (keyOf bit) = some t ∧
        Owned s' (Chains.unlink s.keyAt slotOf chains (keyOf bit)) vacant (t :: hands) ∧
        s'.bit = s.bit := by
  have hspec := @fetchLoop_spec s bit _ [] _ _ (h.thash (slotOf (keyOf bit)))
    (Nat.lt_succ_of_le (h.length_le (slotOf (keyOf bit))))
  unfold Chains.held Chains.unlink
  rcases hspec with ⟨hnone, hall⟩ | ⟨l₁, t, l₂, hchain, hl₁, ht, hsome⟩
  · refine .inl ⟨hnone, List.find?_eq_none.mpr fun t hmem => ?_⟩
    simpa using hall t hmem
  · have hnot : ∀ u ∈ l₁, ¬ decide (s.keyAt u = keyOf bit) = true := fun u hu => by simpa using hl₁ u hu
    refine .inr ⟨t, _, hsome, ?_, ?_, bit_unlink _ _ _ _⟩
    · rw [hchain, List.find?_append, List.find?_eq_none.mpr hnot,
        List.find?_cons_of_pos (by simpa using ht)]
      rfl
    · have herase : (l₁ ++ t :: l₂).eraseP (fun u => decide (s.keyAt u = keyOf bit)) = l₁ ++ l₂ := by
        rw [List.eraseP_append_right _ hnot,
          List.eraseP_cons_of_pos (by simpa using ht)]
      rw [hchain, herase]
      exact h.unlink hchain

theorem Keyed.unlink (h : Keyed s chains) (k : Key) :
    Keyed s (Chains.unlink s.keyAt slotOf chains k) where
  single := h.single.unlink k
  placed := by
    intro i u hu
    rw [Chains.unlink] at hu
    by_cases hi : i = slotOf k
    · subst hi
      rw [Function.update_self] at hu
      exact h.placed _ u (List.mem_of_mem_eraseP hu)
    · rw [Function.update_of_ne hi] at hu
      exact h.placed i u hu

end

/-! ## Runs -/

/-- A pair in the hands of the loop is of one key, of which the table holds nothing. -/
def Paired (s : Traces) (chains : Fin 128 → List Addr) : Pc → Prop
  | .pair t tStored =>
    s.keyAt tStored = s.keyAt t ∧ Chains.held s.keyAt slotOf chains (s.keyAt t) = none
  | _ => True

/-- The invariant of the loop. -/
structure Sound (x : Loop) (chains : Fin 128 → List Addr) (vacant : List Addr) : Prop where
  owned : Owned x.s chains vacant x.pc.hands
  keyed : Keyed x.s chains
  paired : Paired x.s chains x.pc

/-- Of a pair that does not match the loop puts the younger trace into the table and keeps the other. -/
def KeepsYounger (x : Loop) : Prop :=
  ∀ t tStored malloc, x.pc = .pair t tStored →
    isMatch (x.s.bit (x.s.ordered tStored t).1) (x.s.bit (x.s.ordered tStored t).2) = false →
      ∃ y chains vacant tOld tYoung, step x (.go malloc) = some y ∧ y.pc = .top tOld ∧
        Sound y chains vacant ∧
        Chains.held y.s.keyAt slotOf chains (x.s.keyAt t) = some tYoung ∧
        (tOld = t ∧ tYoung = tStored ∨ tOld = tStored ∧ tYoung = t) ∧
        (y.s.bit tOld).time ≤ (y.s.bit tYoung).time

section

variable {x y : Loop} {chains : Fin 128 → List Addr} {vacant : List Addr}

/-- A struct that the table does not have is filled. -/
theorem Keyed.write {s : Traces} {hands : List Addr} (h : Keyed s chains)
    (howned : Owned s chains vacant hands) {t : Addr} (ht : t ∈ hands) (bit : BlkIoTrace) :
    Keyed { s with bit := Function.update s.bit t bit } chains := by
  refine h.congr fun i u hu => Function.update_of_ne ?_ _ _
  rintro rfl
  exact (howned.parts.2.2.2.2 u ht).2 i hu

theorem ordered_cases (s : Traces) (tStored t : Addr) :
    s.ordered tStored t = (tStored, t) ∧ (s.bit tStored).time < (s.bit t).time ∨
      s.ordered tStored t = (t, tStored) ∧ (s.bit t).time ≤ (s.bit tStored).time := by
  unfold Traces.ordered
  split_ifs with hlt
  · exact .inl ⟨rfl, hlt⟩
  · exact .inr ⟨rfl, UInt64.not_lt.mp hlt⟩

/-- The younger trace of a pair goes into the table. -/
theorem Sound.keep {t tStored : Addr} (h : Sound x chains vacant) (hpc : x.pc = .pair t tStored) :
    Sound { x with
        s := x.s.blkiomonStoreTrace (x.s.ordered tStored t).2
        pc := .top (x.s.ordered tStored t).1 }
      (Chains.store x.s.keyAt slotOf chains (x.s.ordered tStored t).2) vacant := by
  have howned := h.owned
  have hpaired := h.paired
  rw [hpc] at howned hpaired
  obtain ⟨hkey, hnone⟩ := hpaired
  rcases ordered_cases x.s tStored t with ⟨hord, -⟩ | ⟨hord, -⟩
  · rw [hord]
    exact ⟨howned.store, h.keyed.store hnone, trivial⟩
  · rw [hord]
    exact ⟨howned.swap.store, h.keyed.store (hkey ▸ hnone), trivial⟩

/-- A trace of its key has been fetched. -/
theorem Sound.fetched {s s' : Traces} {dstats : Dstats} {t tStored : Addr}
    (h : Sound ⟨s, dstats, .doTrace t⟩ chains vacant)
    (hheld : Chains.held s.keyAt slotOf chains (keyOf (s.bit t)) = some tStored)
    (howned : Owned s' (Chains.unlink s.keyAt slotOf chains (keyOf (s.bit t))) vacant [tStored, t])
    (hbit : s'.bit = s.bit) :
    Sound ⟨s', dstats, .pair t tStored⟩ (Chains.unlink s.keyAt slotOf chains (keyOf (s.bit t))) vacant where
  owned := howned.swap
  keyed := (h.keyed.unlink (keyOf (s.bit t))).congr fun i u _ => congrFun hbit u
  paired := by
    have hat : s'.keyAt = s.keyAt := funext fun u => congrArg keyOf (congrFun hbit u)
    dsimp only [Paired]
    rw [hat]
    exact ⟨Chains.key_of_held hheld, (Chains.held_unlink h.keyed.single _ _).trans (if_pos rfl)⟩

/-- **A step.** -/
theorem Sound.next {e : Event} (h : Sound x chains vacant) (hstep : step x e = some y) :
    ∃ chains' vacant', Sound y chains' vacant' := by
  obtain ⟨s, dstats, pc⟩ := x
  obtain ⟨howned, hkeyed, hpaired⟩ := h
  cases pc with
  | alloc =>
    cases e with
    | malloc a =>
      obtain ⟨⟨t, s'⟩, halloc, rfl⟩ := Option.map_eq_some_iff.mp hstep
      obtain ⟨⟨vacant', howned'⟩, hbit⟩ := howned.alloc halloc
      refine ⟨chains, vacant', howned', hkeyed.congr fun i u hu => hbit u ?_, trivial⟩
      rintro rfl
      exact (howned'.parts.2.2.2.2 u List.mem_cons_self).2 i hu
    | read | stop | go => nomatch hstep
  | top t =>
    cases e with
    | read bit sent =>
      have hkeyed' := hkeyed.write howned List.mem_cons_self bit
      have howned' : Owned { s with bit := Function.update s.bit t bit } chains vacant [t] :=
        ⟨howned.thash, howned.vacantTracesList, howned.vacantTraces, howned.once⟩
      unfold step at hstep
      dsimp only at hstep
      split_ifs at hstep <;> obtain rfl := Option.some.inj hstep
      · exact ⟨chains, vacant, howned', hkeyed', trivial⟩
      · exact ⟨chains, vacant, howned', hkeyed', trivial⟩
      · exact ⟨chains, vacant, howned', hkeyed', trivial⟩
      · exact ⟨chains, vacant, howned', hkeyed', trivial⟩
      · exact ⟨chains, vacant, howned', hkeyed', trivial⟩
    | stop =>
      obtain rfl := Option.some.inj hstep
      exact ⟨chains, vacant, howned, hkeyed, trivial⟩
    | malloc | go => nomatch hstep
  | doTrace t =>
    cases e with
    | go malloc =>
      unfold step at hstep
      dsimp only at hstep
      rcases howned.fetch (s.bit t) with ⟨hfetch, hnone⟩ | ⟨tStored, s', hfetch, hheld, howned', hbit⟩
      · rw [hfetch] at hstep
        obtain rfl := Option.some.inj hstep
        exact ⟨_, vacant, howned.store, hkeyed.store hnone, trivial⟩
      · rw [hfetch] at hstep
        obtain rfl := Option.some.inj hstep
        exact ⟨_, vacant, Sound.fetched ⟨howned, hkeyed, hpaired⟩ hheld howned' hbit⟩
    | malloc | read | stop => nomatch hstep
  | pair t tStored =>
    cases e with
    | go malloc =>
      have hkeep := Sound.keep ⟨howned, hkeyed, hpaired⟩ rfl
      unfold step at hstep
      dsimp only at hstep
      split_ifs at hstep with hmatch
      · obtain ⟨dstats', -, rfl⟩ := Option.map_eq_some_iff.mp hstep
        obtain ⟨vacant', howned'⟩ := howned.swap.free
        refine ⟨chains, vacant', howned', hkeyed.congr fun i u hu => ?_, trivial⟩
        exact congrFun (bit_free s tStored) u
      · obtain rfl := Option.some.inj hstep
        exact ⟨_, vacant, hkeep⟩
    | malloc | read | stop => nomatch hstep
  | last t =>
    cases e with
    | go malloc =>
      obtain rfl := Option.some.inj hstep
      obtain ⟨vacant', howned'⟩ := howned.free
      refine ⟨chains, vacant', howned', hkeyed.congr fun i u hu => ?_, trivial⟩
      exact congrFun (bit_free s t) u
    | malloc | read | stop => nomatch hstep
  | done => cases e <;> nomatch hstep

theorem Sound.keepsYounger (h : Sound x chains vacant) : KeepsYounger x := by
  intro t tStored malloc hpc hmatch
  have hkeep := h.keep hpc
  have hpaired := h.paired
  rw [hpc] at hpaired
  obtain ⟨hkey, -⟩ := hpaired
  have hstep : step x (.go malloc) = some { x with
      s := x.s.blkiomonStoreTrace (x.s.ordered tStored t).2
      pc := .top (x.s.ordered tStored t).1 } := by
    unfold step
    rw [hpc]
    dsimp only
    rw [hmatch, if_neg Bool.false_ne_true]
  refine ⟨_, _, vacant, _, (x.s.ordered tStored t).2, hstep, rfl, hkeep, ?_, ?_, ?_⟩
  · refine (Chains.held_store chains _ _).trans (if_pos ?_)
    rcases ordered_cases x.s tStored t with ⟨hord, -⟩ | ⟨hord, -⟩
    · rw [hord]
      rfl
    · rw [hord]
      exact hkey
  · rcases ordered_cases x.s tStored t with ⟨hord, -⟩ | ⟨hord, -⟩
    · rw [hord]
      exact .inr ⟨rfl, rfl⟩
    · rw [hord]
      exact .inl ⟨rfl, rfl⟩
  · show (x.s.bit _).time ≤ (x.s.bit _).time
    rcases ordered_cases x.s tStored t with ⟨hord, hle⟩ | ⟨hord, hle⟩
    · rw [hord]
      exact hle.le
    · rw [hord]
      exact hle

/-- Nothing is allocated at the start. -/
theorem sound_init (bit : Addr → BlkIoTrace) (next : Addr → Option Addr) :
    Sound { s := { bit, next } } (fun _ => []) [] where
  owned := by
    refine ⟨fun _ => rfl, rfl, rfl, ?_⟩
    have hempty : inTable (fun _ => []) = 0 := by
      unfold inTable
      exact Finset.sum_const_zero
    rw [hempty]
    rfl
  keyed := ⟨Chains.single_nil, nofun⟩
  paired := trivial

end

/-- What the structs hold. -/
def Loop.fifo (x : Loop) (chains : Fin 128 → List Addr) : Fifo where
  thash := fun i => (chains i).map x.s.bit
  dstats := x.dstats

theorem map_congr_bit {chains : Fin 128 → List Addr} {bit bit' : Addr → BlkIoTrace}
    (h : ∀ i, ∀ t ∈ chains i, bit' t = bit t) :
    (fun i => (chains i).map bit') = fun i => (chains i).map bit :=
  funext fun i => List.map_congr_left (h i)

/-- Unless memory runs out, there is a struct to be had. -/
theorem exists_alloc (s : Traces) : ∃ malloc t s', s.blkiomonAllocTrace malloc = some (t, s') := by
  unfold Traces.blkiomonAllocTrace
  cases s.vacantTracesList with
  | some v => exact ⟨0, _, _, rfl⟩
  | none =>
    obtain ⟨malloc, hfresh⟩ := Infinite.exists_notMem_finset s.live
    exact ⟨malloc, _, _, if_neg hfresh⟩

theorem bit_ordered (s : Traces) (tStored t : Addr) :
    ordered (s.bit tStored) (s.bit t) = (s.bit (s.ordered tStored t).1, s.bit (s.ordered tStored t).2) := by
  unfold ordered Traces.ordered
  split_ifs <;> rfl

/-- What `blkiomon_do_fifo` makes of what `blkiomon_do_trace` gives back. -/
def accounted (malloc : Bool) (dstats : Dstats) :
    Thash × Option (BlkIoTrace × BlkIoTrace) → Option Fifo
  | (thash, none) => some { thash, dstats }
  | (thash, some (d, c)) => (blkiomonAccount malloc dstats d c).map fun dstats => { thash, dstats }

/-- A trace in the hands of the loop goes through the table as its record does. -/
theorem Sound.doTrace_refines {x : Loop} {chains : Fin 128 → List Addr} {vacant : List Addr} {t : Addr}
    (h : Sound x chains vacant) (hpc : x.pc = .doTrace t) {malloc : Bool} {fifo : Fifo}
    (hrecord : accounted malloc x.dstats (blkiomonDoTrace (x.fifo chains).thash (x.s.bit t)) = some fifo) :
    ∃ events chains' vacant' t', Sound (Runs.run step x events) chains' vacant' ∧
      (Runs.run step x events).pc = .top t' ∧ (Runs.run step x events).fifo chains' = fifo := by
  obtain ⟨s, dstats, pc⟩ := x
  obtain rfl : pc = .doTrace t := hpc
  have howned := h.owned
  have hheld : Chains.held keyOf slotOf (fun i => (chains i).map s.bit) (keyOf (s.bit t)) = _ :=
    Chains.held_map s.bit chains _
  replace hrecord : accounted malloc dstats (blkiomonDoTrace (fun i => (chains i).map s.bit) (s.bit t)) =
    some fifo := hrecord
  rw [blkiomonDoTrace, blkiomonFetchTrace, Chains.fetch, hheld] at hrecord
  rcases howned.fetch (s.bit t) with ⟨hfetch, hnone⟩ | ⟨tStored, s', hfetch, hsome, howned', hbit⟩
  · -- stored, and another struct allocated
    rw [show Chains.held (fun u => keyOf (s.bit u)) slotOf chains (keyOf (s.bit t)) = none from hnone] at hrecord
    obtain rfl := Option.some.inj hrecord
    obtain ⟨a, t', s', halloc⟩ := exists_alloc (s.blkiomonStoreTrace t)
    obtain ⟨⟨vacant', howned'⟩, hbit⟩ := howned.store.alloc halloc
    have hmem : ∀ i, ∀ u ∈ Chains.store s.keyAt slotOf chains t i, s'.bit u = s.bit u := by
      intro i u hu
      refine hbit u ?_
      rintro rfl
      exact (howned'.parts.2.2.2.2 u List.mem_cons_self).2 i hu
    have hrun : Runs.run step ⟨s, dstats, .doTrace t⟩ [.go malloc, .malloc a] = ⟨s', dstats, .top t'⟩ := by
      have hfirst : step ⟨s, dstats, .doTrace t⟩ (.go malloc) =
          some ⟨s.blkiomonStoreTrace t, dstats, .alloc⟩ := by
        unfold step
        dsimp only
        rw [hfetch]
      have hsecond : step ⟨s.blkiomonStoreTrace t, dstats, .alloc⟩ (.malloc a) = some ⟨s', dstats, .top t'⟩ := by
        unfold step
        dsimp only
        rw [halloc]
        rfl
      rw [Runs.run_cons, hfirst, Option.getD_some, Runs.run_cons, hsecond]
      rfl
    refine ⟨[.go malloc, .malloc a], Chains.store s.keyAt slotOf chains t, vacant', t', ?_⟩
    rw [hrun]
    refine ⟨⟨howned', (h.keyed.store hnone).congr hmem, trivial⟩, rfl, ?_⟩
    show Fifo.mk (fun i => (Chains.store s.keyAt slotOf chains t i).map s'.bit) dstats = _
    rw [map_congr_bit hmem]
    exact congrArg (Fifo.mk · dstats) (Chains.store_map s.bit chains t).symm
  · -- with another in hand: accounted and freed, or the younger one stored
    rw [show Chains.held (fun u => keyOf (s.bit u)) slotOf chains (keyOf (s.bit t)) = some tStored from hsome,
      Option.map_some, Option.map_some, Chains.unlink_map s.bit chains] at hrecord
    have hfirst : step ⟨s, dstats, .doTrace t⟩ (.go malloc) = some ⟨s', dstats, .pair t tStored⟩ := by
      unfold step
      dsimp only
      rw [hfetch]
    have hsound := h.fetched hsome howned' hbit
    have hord : s.ordered tStored t = s'.ordered tStored t := by
      unfold Traces.ordered
      rw [hbit]
    rw [show (fun u => keyOf (s.bit u)) = s.keyAt from rfl] at hrecord
    generalize Chains.unlink s.keyAt slotOf chains (keyOf (s.bit t)) = chains' at hrecord hsound howned'
    dsimp only at hrecord hbit
    rw [bit_ordered, hord, ← hbit] at hrecord
    dsimp only at hrecord
    cases hmatch : isMatch (s'.bit (s'.ordered tStored t).1) (s'.bit (s'.ordered tStored t).2) with
    | true =>
      rw [hmatch, if_pos rfl] at hrecord
      obtain ⟨dstats', haccount, rfl⟩ := Option.map_eq_some_iff.mp hrecord
      have hsecond : step ⟨s', dstats, .pair t tStored⟩ (.go malloc) =
          some ⟨s'.blkiomonFreeTrace tStored, dstats', .top t⟩ := by
        unfold step
        dsimp only
        rw [hmatch, if_pos rfl, haccount]
        rfl
      obtain ⟨vacant', hfree⟩ := howned'.free
      have hrun : Runs.run step ⟨s, dstats, .doTrace t⟩ [.go malloc, .go malloc] =
          ⟨s'.blkiomonFreeTrace tStored, dstats', .top t⟩ := by
        rw [Runs.run_cons, hfirst, Option.getD_some, Runs.run_cons, hsecond]
        rfl
      refine ⟨[.go malloc, .go malloc], chains', vacant', t, ?_⟩
      rw [hrun]
      have hkeyed : Keyed (s'.blkiomonFreeTrace tStored) chains' :=
        hsound.keyed.congr fun i u _ => congrFun (bit_free s' tStored) u
      refine ⟨⟨hfree, hkeyed, trivial⟩, rfl, ?_⟩
      show Fifo.mk (fun i => (chains' i).map (s'.blkiomonFreeTrace tStored).bit) dstats' = _
      rw [bit_free]
    | false =>
      rw [hmatch, if_neg Bool.false_ne_true] at hrecord
      obtain rfl := Option.some.inj hrecord
      have hsecond : step ⟨s', dstats, .pair t tStored⟩ (.go malloc) =
          some ⟨s'.blkiomonStoreTrace (s'.ordered tStored t).2, dstats, .top (s'.ordered tStored t).1⟩ := by
        unfold step
        dsimp only
        rw [hmatch, if_neg Bool.false_ne_true]
      have hrun : Runs.run step ⟨s, dstats, .doTrace t⟩ [.go malloc, .go malloc] =
          ⟨s'.blkiomonStoreTrace (s'.ordered tStored t).2, dstats, .top (s'.ordered tStored t).1⟩ := by
        rw [Runs.run_cons, hfirst, Option.getD_some, Runs.run_cons, hsecond]
        rfl
      refine ⟨[.go malloc, .go malloc], Chains.store s'.keyAt slotOf chains' (s'.ordered tStored t).2, vacant,
        (s'.ordered tStored t).1, ?_⟩
      rw [hrun]
      refine ⟨hsound.keep rfl, rfl, ?_⟩
      exact congrArg (Fifo.mk · dstats) (Chains.store_map s'.bit chains' _).symm

/-- **A good record**: where the division does not trap, the structs come to hold what the table of
records does. -/
theorem Sound.refines {x : Loop} {chains : Fin 128 → List Addr} {vacant : List Addr} {t : Addr}
    (h : Sound x chains vacant) (hpc : x.pc = .top t) {bit : BlkIoTrace} (hgood : verifyTrace bit = false)
    {malloc : Bool} {fifo : Fifo} (hrecord : doRecord malloc (x.fifo chains) bit = some fifo) :
    ∃ events chains' vacant' t', Sound (Runs.run step x events) chains' vacant' ∧
      (Runs.run step x events).pc = .top t' ∧ (Runs.run step x events).fifo chains' = fifo := by
  obtain ⟨s, dstats, pc⟩ := x
  obtain rfl : pc = .top t := hpc
  have hother : ∀ i, ∀ u ∈ chains i, Function.update s.bit t bit u = s.bit u := by
    intro i u hu
    refine Function.update_of_ne ?_ _ _
    rintro rfl
    exact (h.owned.parts.2.2.2.2 u List.mem_cons_self).2 i hu
  have hfifo : (fun i => (chains i).map (Function.update s.bit t bit)) = fun i => (chains i).map s.bit :=
    map_congr_bit hother
  have howned : Owned { s with bit := Function.update s.bit t bit } chains vacant [t] :=
    ⟨h.owned.thash, h.owned.vacantTracesList, h.owned.vacantTraces, h.owned.once⟩
  have hkeyed := h.keyed.write h.owned List.mem_cons_self bit
  have hskip : step ⟨s, dstats, .top t⟩ (.read bit true) =
      some ⟨{ s with bit := Function.update s.bit t bit }, dstats, .top t⟩ →
      some (Loop.fifo ⟨s, dstats, .top t⟩ chains) = some fifo →
      ∃ events chains' vacant' t', Sound (Runs.run step ⟨s, dstats, .top t⟩ events) chains' vacant' ∧
        (Runs.run step ⟨s, dstats, .top t⟩ events).pc = .top t' ∧
        (Runs.run step ⟨s, dstats, .top t⟩ events).fifo chains' = fifo := by
    intro hstep hsame
    refine ⟨[.read bit true], chains, vacant, t, ?_⟩
    rw [Runs.run_cons, hstep, Option.getD_some, Runs.run_nil]
    refine ⟨⟨howned, hkeyed, trivial⟩, rfl, ?_⟩
    rw [← Option.some.inj hsame]
    exact congrArg (Fifo.mk · dstats) hfifo
  unfold doRecord at hrecord
  cases hdrv : bit.hasTc blkTcDrvData with
  | true =>
    rw [hdrv, if_pos rfl] at hrecord
    refine hskip ?_ hrecord
    unfold step
    dsimp only
    rw [hgood, if_neg Bool.false_ne_true, hdrv, if_pos rfl]
    rfl
  | false =>
    rw [hdrv, if_neg Bool.false_ne_true] at hrecord
    cases hdc : bit.hasTc (blkTcIssue ||| blkTcComplete) with
    | false =>
      rw [hdc, Bool.not_false, if_pos rfl] at hrecord
      refine hskip ?_ hrecord
      unfold step
      dsimp only
      rw [hgood, if_neg Bool.false_ne_true, hdrv, if_neg Bool.false_ne_true, hdc]
      rfl
    | true =>
      rw [hdc, Bool.not_true, if_neg Bool.false_ne_true] at hrecord
      have hstep : step ⟨s, dstats, .top t⟩ (.read bit true) =
          some ⟨{ s with bit := Function.update s.bit t bit }, dstats, .doTrace t⟩ := by
        unfold step
        dsimp only
        rw [hgood, if_neg Bool.false_ne_true, hdrv, if_neg Bool.false_ne_true, hdc]
        rfl
      have hsound : Sound ⟨{ s with bit := Function.update s.bit t bit }, dstats, .doTrace t⟩ chains vacant :=
        ⟨howned, hkeyed, trivial⟩
      have haccounted : accounted malloc dstats
          (blkiomonDoTrace (fun i => (chains i).map (Function.update s.bit t bit))
            (Function.update s.bit t bit t)) = some fifo := by
        rw [hfifo, Function.update_self, ← hrecord]
        show accounted malloc dstats (blkiomonDoTrace (Loop.fifo ⟨s, dstats, .top t⟩ chains).thash bit) = _
        rcases blkiomonDoTrace (Loop.fifo ⟨s, dstats, .top t⟩ chains).thash bit with ⟨thash, _ | ⟨d, c⟩⟩
        · rfl
        · show (blkiomonAccount malloc dstats d c).map _ = (blkiomonAccount malloc dstats d c).bind _
          cases blkiomonAccount malloc dstats d c <;> rfl
      obtain ⟨events, hevents⟩ := hsound.doTrace_refines rfl haccounted
      refine ⟨.read bit true :: events, ?_⟩
      rw [Runs.run_cons, hstep]
      exact hevents

end Blktrace.Blkiomon
