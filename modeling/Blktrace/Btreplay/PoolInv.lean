import Blktrace.Btreplay.Pool
import Blktrace.Btreplay.Replayed

/-!
# The invariant of the pool

Where every iocb is, what the counters count at each place of the two threads, and how far the
packets are. The counters lag: `naios_out` misses what `io_submit` has passed on and the submitter
has not counted yet, though the reclaimer may have collected it; but the reclaimer never collects
more at a time than was counted when it looked.
-/

namespace Blktrace.Btreplay.Pool

variable {α : Type*}

/-! ## What a place says -/

/-- The iocbs set up and not passed to the kernel. -/
def SubPc.mapped : SubPc → List ℕ
  | .mapping _ list => list
  | .submitting _ left => left
  | _ => []

/-- How many iocbs are off the free list and still in `naios_free`. -/
def SubPc.taken : SubPc → ℕ
  | .mapping _ list => list.length
  | _ => 0

/-- How many iocbs the kernel was given that are not in `naios_out` yet. -/
def SubPc.uncounted : SubPc → ℕ
  | .submitting ntodo left => ntodo - left.length
  | .count ndone => ndone
  | _ => 0

/-- How many packets of those from `i` on the kernel was given. -/
def SubPc.sent : SubPc → ℕ
  | .submitting ntodo left => ntodo - left.length
  | .count ndone => ndone
  | .counted ndone => ndone
  | _ => 0

def SubPc.holds : SubPc → Bool
  | .nfreeHeld => true
  | .mapping _ _ => true
  | .counted _ => true
  | _ => false

def SubPc.isFinished : SubPc → Bool
  | .finished => true
  | _ => false

/-- The events that `io_getevents` returned and that are not back on the free list. -/
def ReapPc.collected : ReapPc → List ℕ
  | .got _ events => events
  | .moving _ left _ => left
  | _ => []

/-- How many iocbs are back on the free list and still in `naios_out`, not in `naios_free`. -/
def ReapPc.moved : ReapPc → ℕ
  | .moving _ _ moved => moved.length
  | _ => 0

def ReapPc.holds : ReapPc → Bool
  | .held => true
  | .moving _ _ _ => true
  | _ => false

/-- What the submitter may rely on where it is. -/
def SubOk (s : State α) : SubPc → Prop
  | .next => s.pkts = []
  | .loop => True
  | .nfree | .nfreeHeld | .nfreeWait => s.pkts ≠ []
  | .map ntodo =>
    0 < ntodo ∧ ntodo ≤ naios ∧ (ntodo : ℤ) ≤ s.naiosFree ∧ ntodo ≤ s.pkts.length
  | .mapping ntodo list =>
    list.length ≤ ntodo ∧ (ntodo : ℤ) ≤ s.naiosFree ∧ ntodo ≤ s.pkts.length ∧
      list.map s.iocb = (s.pkts.take list.length).map some
  | .submitting ntodo left =>
    left.length ≤ ntodo ∧ ntodo ≤ s.pkts.length ∧
      left.map s.iocb = ((s.pkts.take ntodo).drop (ntodo - left.length)).map some
  | .count ndone | .counted ndone => ndone ≤ s.pkts.length
  | .finished => s.pkts = [] ∧ s.bunches = []
  | .failed => False

/-- The count that the reclaimer carries: AIOs counted and not reclaimed, or the 0 of the end. -/
def Carries (s : State α) (n : ℤ) : Prop :=
  (0 < n ∧ n ≤ s.naiosOut) ∨ (n = 0 ∧ s.sendDone = true ∧ s.naiosOut = 0)

/-- What the reclaimer may rely on where it is. -/
def ReapOk (s : State α) : ReapPc → Prop
  | .check | .lock | .held | .wait => True
  | .checkOut => s.sendDone = true
  | .asserting n | .returning n | .back n => Carries s n
  | .assertingOut n | .returningOut n => Carries s n ∧ s.sendDone = true
  | .getting n => 0 < n ∧ n ≤ s.naiosOut
  | .got n events => (events.length : ℤ) ≤ n ∧ n ≤ s.naiosOut
  | .moving n left moved => (left.length + moved.length : ℤ) ≤ n ∧ n ≤ s.naiosOut
  | .done => s.sendDone = true ∧ s.naiosOut = 0
  | .failed => False

/-- The invariant, for the packets `all` in the order of the file. -/
structure Inv (all : List α) (s : State α) : Prop where
  /-- Every iocb is in one place. -/
  places : s.freeIocbs ++ (s.sub.mapped ++ (s.kernel ++ s.reap.collected)) |>.Perm
    (List.range naios)
  used : s.usedIocbs.Perm (s.sub.mapped ++ (s.kernel ++ s.reap.collected))
  naiosFree : s.naiosFree = s.freeIocbs.length + s.sub.taken - s.reap.moved
  naiosOut : s.naiosOut + s.sub.uncounted =
    s.kernel.length + s.reap.collected.length + s.reap.moved
  naiosOut_nonneg : 0 ≤ s.naiosOut
  subMutex : s.mutex = some .sub ↔ s.sub.holds = true
  reapMutex : s.mutex = some .reap ↔ s.reap.holds = true
  sendDone : s.sendDone = s.sub.isFinished
  log : s.log ++ (s.pkts.drop s.sub.sent ++ s.bunches.flatMap Bunch.pkts) = all
  subOk : SubOk s s.sub
  reapOk : ReapOk s s.reap

theorem inv_init (bunches : List (Bunch α)) :
    Inv (bunches.flatMap Bunch.pkts) { bunches := bunches } where
  places := by simp [SubPc.mapped, ReapPc.collected]
  used := by simp [SubPc.mapped, ReapPc.collected]
  naiosFree := by simp [SubPc.taken, ReapPc.moved]
  naiosOut := by simp [SubPc.uncounted, ReapPc.collected, ReapPc.moved]
  naiosOut_nonneg := le_refl 0
  subMutex := by simp [SubPc.holds]
  reapMutex := by simp [ReapPc.holds]
  sendDone := rfl
  log := by simp [SubPc.sent]
  subOk := rfl
  reapOk := trivial

/-! ## What the other thread may change -/

/-- The submitter's facts stand while `naios_free` only grows. -/
theorem SubOk.mono {s s' : State α} {p : SubPc} (h : SubOk s p) (hpkts : s'.pkts = s.pkts)
    (hbunches : s'.bunches = s.bunches) (hiocb : s'.iocb = s.iocb)
    (hfree : s.naiosFree ≤ s'.naiosFree) : SubOk s' p := by
  cases p with
  | map ntodo =>
    obtain ⟨hpos, hle, hnfree, hlen⟩ := h
    exact ⟨hpos, hle, hnfree.trans hfree, hpkts ▸ hlen⟩
  | mapping ntodo list =>
    obtain ⟨hlist, hnfree, hlen, hmap⟩ := h
    refine ⟨hlist, hnfree.trans hfree, hpkts ▸ hlen, ?_⟩
    rw [hiocb, hpkts]
    exact hmap
  | submitting ntodo left =>
    obtain ⟨hleft, hlen, hmap⟩ := h
    refine ⟨hleft, hpkts ▸ hlen, ?_⟩
    rw [hiocb, hpkts]
    exact hmap
  | finished => exact ⟨hpkts.trans h.1, hbunches.trans h.2⟩
  | loop => trivial
  | failed => exact h
  | _ => simpa only [SubOk, hpkts] using h

/-- The reclaimer's facts stand while more AIOs are counted, before the end. -/
theorem ReapOk.mono {s s' : State α} {p : ReapPc} (h : ReapOk s p) (hs : s.sendDone = false)
    (hout : s.naiosOut ≤ s'.naiosOut) : ReapOk s' p := by
  have hcarries : ∀ n, Carries s n → Carries s' n := by
    rintro n (⟨hpos, hle⟩ | ⟨-, hdone, -⟩)
    · exact .inl ⟨hpos, hle.trans hout⟩
    · rw [hs] at hdone
      cases hdone
  have hnot : s.sendDone ≠ true := by simp [hs]
  cases p with
  | checkOut => exact absurd h hnot
  | asserting n => exact hcarries n h
  | returning n => exact hcarries n h
  | back n => exact hcarries n h
  | assertingOut n => exact absurd h.2 hnot
  | returningOut n => exact absurd h.2 hnot
  | getting n => exact ⟨h.1, h.2.trans hout⟩
  | got n events => exact ⟨h.1, h.2.trans hout⟩
  | moving n left moved => exact ⟨h.1, h.2.trans hout⟩
  | done => exact absurd h.1 hnot
  | failed => exact h
  | _ => trivial

/-- And when the end comes. -/
theorem ReapOk.finish {s s' : State α} {p : ReapPc} (h : ReapOk s p) (hs : s'.sendDone = true)
    (hout : s'.naiosOut = s.naiosOut) : ReapOk s' p := by
  have hcarries : ∀ n, Carries s n → Carries s' n := by
    rintro n (⟨hpos, hle⟩ | ⟨hzero, -, hnone⟩)
    · exact .inl ⟨hpos, hout ▸ hle⟩
    · exact .inr ⟨hzero, hs, hout.trans hnone⟩
  cases p with
  | checkOut => exact hs
  | asserting n => exact hcarries n h
  | returning n => exact hcarries n h
  | back n => exact hcarries n h
  | assertingOut n => exact ⟨hcarries n h.1, hs⟩
  | returningOut n => exact ⟨hcarries n h.1, hs⟩
  | getting n => exact ⟨h.1, hout ▸ h.2⟩
  | got n events => exact ⟨h.1, hout ▸ h.2⟩
  | moving n left moved => exact ⟨h.1, hout ▸ h.2⟩
  | done => exact ⟨hs, hout.trans h.2⟩
  | failed => exact h
  | _ => trivial

/-! ## The submitter's steps -/

theorem orFailed_of {β : Type} {cond : Bool} (h : cond = true) (ok failed : β) :
    orFailed cond ok failed = ok := by rw [h]; rfl

/-- Nobody but the reclaimer, with the mutex, has iocbs back that it has not counted. -/
theorem Inv.moved_eq_zero {all : List α} {s : State α} (hi : Inv all s)
    (h : s.mutex ≠ some .reap) : s.reap.moved = 0 := by
  have hholds : ¬s.reap.holds = true := fun hc => h (hi.reapMutex.mpr hc)
  cases hreap : s.reap <;> rw [hreap] at hholds <;> first | rfl | exact absurd rfl hholds

theorem Inv.length_places {all : List α} {s : State α} (hi : Inv all s) :
    s.freeIocbs.length + (s.sub.mapped.length + (s.kernel.length + s.reap.collected.length)) =
      naios := by
  have hlen := hi.places.length_eq
  simpa only [List.length_append, List.length_range] using hlen

theorem Inv.nodup {all : List α} {s : State α} (hi : Inv all s) :
    (s.freeIocbs ++ (s.sub.mapped ++ (s.kernel ++ s.reap.collected))).Nodup :=
  hi.places.nodup_iff.mpr List.nodup_range

/-- A thread that holds the mutex excludes the other. -/
theorem Inv.not_reap_holds {all : List α} {s : State α} (hi : Inv all s)
    (h : s.mutex ≠ some .reap) : ¬s.reap.holds = true := fun hc => h (hi.reapMutex.mpr hc)

theorem Inv.not_sub_holds {all : List α} {s : State α} (hi : Inv all s)
    (h : s.mutex ≠ some .sub) : ¬s.sub.holds = true := fun hc => h (hi.subMutex.mpr hc)

theorem take_succ_map_some {pkts : List α} {n : ℕ} {p : α} (h : pkts[n]? = some p) :
    (pkts.take (n + 1)).map some = (pkts.take n).map some ++ [some p] := by
  rw [List.take_add_one, h, List.map_append]
  rfl

theorem Inv.subStep {all : List α} {s s' : State α} (hi : Inv all s)
    (h : Pool.subStep s = some s') : Inv all s' := by
  obtain ⟨free, used, mutex, out, nfree, sendWait, reapWait, sendDone, reapDone, iocb, kernel, log,
    bunches, pkts, sub, reap⟩ := s
  cases sub with
  | next =>
    cases bunches with
    | nil =>
      cases h
      exact { hi with
        sendDone := rfl
        subOk := ⟨hi.subOk, rfl⟩
        reapOk := hi.reapOk.finish rfl rfl }
    | cons b rest =>
      have hb : (decide (0 < b.pkts.length) && decide (b.pkts.length ≤ btMaxPkts)) = true := by
        simp [b.pos, b.le]
      simp only [Pool.subStep, orFailed_of hb] at h
      cases h
      have hnil : pkts = [] := hi.subOk
      subst hnil
      exact { hi with
        log := by simpa [SubPc.sent] using hi.log
        subOk := trivial }
  | loop =>
    cases pkts with
    | nil =>
      cases h
      exact { hi with subOk := rfl }
    | cons p pkts =>
      cases h
      exact { hi with subOk := List.cons_ne_nil _ _ }
  | nfree =>
    cases mutex with
    | some t => cases h
    | none =>
      cases h
      exact { hi with
        subMutex := ⟨fun _ => rfl, fun _ => rfl⟩
        reapMutex := ⟨fun hc => (by cases hc), fun hc => absurd hc (hi.not_reap_holds (by simp))⟩ }
  | nfreeWait =>
    cases mutex with
    | some t => cases h
    | none =>
      cases h
      exact { hi with
        subMutex := ⟨fun _ => rfl, fun _ => rfl⟩
        reapMutex := ⟨fun hc => (by cases hc), fun hc => absurd hc (hi.not_reap_holds (by simp))⟩ }
  | nfreeHeld =>
    have hmutex : mutex = some .sub := hi.subMutex.mpr rfl
    subst hmutex
    have hreap := hi.not_reap_holds (by simp)
    have hnone : reap.moved = 0 := hi.moved_eq_zero (by simp)
    simp only [Pool.subStep] at h
    split_ifs at h with hzero
    · cases h
      exact { hi with
        subMutex := ⟨fun hc => (by cases hc), fun hc => (by cases hc)⟩
        reapMutex := ⟨fun hc => (by cases hc), fun hc => absurd hc hreap⟩ }
    · have hfree : nfree = free.length := by
        have hcount : nfree = free.length + (0 : ℕ) - reap.moved := hi.naiosFree
        omega
      have hlen : 0 < pkts.length := List.length_pos_of_ne_nil hi.subOk
      have hplaces : free.length + ([].length + (kernel.length + reap.collected.length)) = naios :=
        hi.length_places
      have hntodo : (decide (0 < min nfree (pkts.length : ℤ)) &&
          decide (min nfree (pkts.length : ℤ) ≤ naios)) = true := by
        rw [Bool.and_eq_true, decide_eq_true_iff, decide_eq_true_iff]
        omega
      rw [orFailed_of hntodo] at h
      have hok : 0 < (min nfree (pkts.length : ℤ)).toNat ∧
          (min nfree (pkts.length : ℤ)).toNat ≤ naios ∧
          ((min nfree (pkts.length : ℤ)).toNat : ℤ) ≤ nfree ∧
          (min nfree (pkts.length : ℤ)).toNat ≤ pkts.length := by omega
      cases h
      exact { hi with
        subMutex := ⟨fun hc => (by cases hc), fun hc => (by cases hc)⟩
        reapMutex := ⟨fun hc => (by cases hc), fun hc => absurd hc hreap⟩
        subOk := hok }
  | map ntodo =>
    cases mutex with
    | some t => cases h
    | none =>
      obtain ⟨hpos, hnaios, hle, hlen⟩ := hi.subOk
      have hnone : reap.moved = 0 := hi.moved_eq_zero (by simp)
      have hcount : nfree = free.length + (0 : ℕ) - reap.moved := hi.naiosFree
      have hroom : decide (ntodo ≤ free.length) = true := by
        rw [decide_eq_true_iff]
        dsimp only at hle
        omega
      simp only [Pool.subStep, if_true, orFailed_of hroom] at h
      cases h
      exact { hi with
        subMutex := ⟨fun _ => rfl, fun _ => rfl⟩
        reapMutex := ⟨fun hc => (by cases hc), fun hc => absurd hc (hi.not_reap_holds (by simp))⟩
        subOk := ⟨Nat.zero_le _, hle, hlen, rfl⟩ }
  | mapping ntodo list =>
    have hmutex : mutex = some .sub := hi.subMutex.mpr rfl
    subst hmutex
    have hreap := hi.not_reap_holds (by simp)
    have hnone : reap.moved = 0 := hi.moved_eq_zero (by simp)
    obtain ⟨hlist, hle, hlen, hmap⟩ := hi.subOk
    dsimp only at hle hlen hmap
    have hcount : nfree = free.length + list.length - reap.moved := hi.naiosFree
    simp only [Pool.subStep] at h
    split_ifs at h with hmore
    · have hpkt : pkts[list.length]? = some pkts[list.length] :=
        List.getElem?_eq_getElem (by omega)
      cases free with
      | nil =>
        simp only [List.length_nil] at hcount
        omega
      | cons x free =>
        simp only [hpkt] at h
        cases h
        have hnodup := hi.nodup
        have hx : x ∉ list := by
          simp only [SubPc.mapped, List.cons_append, List.nodup_cons, List.mem_append,
            not_or] at hnodup
          exact hnodup.1.2.1
        have hmove : (free ++ ((list ++ [x]) ++ (kernel ++ reap.collected))).Perm
            (x :: free ++ (list ++ (kernel ++ reap.collected))) := by
          rw [List.perm_iff_count]
          intro a
          simp only [List.count_append, List.count_cons, List.count_nil, List.cons_append]
          omega
        have hused : (used ++ [x]).Perm (list ++ [x] ++ (kernel ++ reap.collected)) := by
          have hold : used.Perm (list ++ (kernel ++ reap.collected)) := hi.used
          rw [List.perm_iff_count] at hold ⊢
          intro a
          have hcounts := hold a
          simp only [List.count_append] at hcounts ⊢
          omega
        refine { hi with
          places := hmove.trans hi.places
          used := hused
          naiosFree := ?_
          subOk := ⟨?_, hle, hlen, ?_⟩ }
        · show nfree = free.length + (list ++ [x]).length - reap.moved
          rw [List.length_append, List.length_singleton]
          rw [List.length_cons] at hcount
          push_cast at hcount ⊢
          omega
        · rw [List.length_append, List.length_singleton]
          exact hmore
        · show (list ++ [x]).map (Function.update iocb x (some _)) = _
          rw [List.map_append, List.map_singleton, Function.update_self, List.length_append,
            List.length_singleton, take_succ_map_some hpkt, ← hmap]
          congr 1
          apply List.map_congr_left
          intro y hy
          have hne : y ≠ x := by
            rintro rfl
            exact hx hy
          exact Function.update_of_ne hne _ _
    · have hfull : list.length = ntodo := by omega
      have hnonneg : decide (0 ≤ nfree - (ntodo : ℤ)) = true := by
        rw [decide_eq_true_iff]
        omega
      rw [orFailed_of hnonneg] at h
      cases h
      refine { hi with
        naiosFree := ?_
        naiosOut := ?_
        subMutex := ⟨fun hc => (by cases hc), fun hc => (by cases hc)⟩
        reapMutex := ⟨fun hc => (by cases hc), fun hc => absurd hc hreap⟩
        log := ?_
        subOk := ⟨hlist, hlen, ?_⟩ }
      · show nfree - ntodo = free.length + (0 : ℕ) - reap.moved
        omega
      · have hout : out + (0 : ℕ) = kernel.length + reap.collected.length + reap.moved :=
          hi.naiosOut
        show out + ((ntodo - list.length : ℕ) : ℤ) = _
        rw [hfull, Nat.sub_self]
        exact hout
      · show log ++ (pkts.drop (ntodo - list.length) ++ _) = _
        rw [hfull, Nat.sub_self]
        exact hi.log
      · rw [hfull, Nat.sub_self, List.drop_zero, ← hfull]
        exact hmap
  | submitting ntodo left =>
    obtain ⟨hleft, hlen, hmap⟩ := hi.subOk
    dsimp only at hlen hmap
    cases left with
    | nil =>
      cases h
      exact { hi with subOk := hlen }
    | cons x left =>
      rw [List.length_cons] at hleft
      -- the packet that goes with `x`
      have hk : ntodo - (left.length + 1) < (pkts.take ntodo).length := by
        rw [List.length_take]
        omega
      have hk' : ntodo - (left.length + 1) < pkts.length := by omega
      have hnext : ntodo - (left.length + 1) + 1 = ntodo - left.length := by omega
      rw [List.map_cons, List.length_cons, List.drop_eq_getElem_cons hk, List.map_cons,
        List.getElem_take, hnext] at hmap
      obtain ⟨hx, hmap⟩ := List.cons.inj hmap
      cases h
      refine { hi with
        places := List.Perm.trans ?_ hi.places
        used := hi.used.trans ?_
        naiosOut := ?_
        log := ?_
        subOk := ⟨by omega, hlen, hmap⟩ }
      · rw [List.perm_iff_count]
        intro a
        simp only [SubPc.mapped, List.count_append, List.count_cons, List.count_nil]
        omega
      · rw [List.perm_iff_count]
        intro a
        simp only [SubPc.mapped, List.count_append, List.count_cons, List.count_nil]
        omega
      · have hout : out + ((ntodo - (left.length + 1) : ℕ) : ℤ) =
            kernel.length + reap.collected.length + reap.moved := hi.naiosOut
        show out + ((ntodo - left.length : ℕ) : ℤ) = (kernel ++ [x]).length + _ + _
        rw [List.length_append, List.length_singleton]
        push_cast
        omega
      · have hlog : log ++ (pkts.drop (ntodo - (left.length + 1)) ++ bunches.flatMap Bunch.pkts) =
            all := hi.log
        rw [List.drop_eq_getElem_cons hk', hnext] at hlog
        show log ++ (iocb x).toList ++ (pkts.drop (ntodo - left.length) ++ _) = all
        rw [hx, ← hlog]
        simp
  | count ndone =>
    cases mutex with
    | some t => cases h
    | none =>
      have hnone : reap.moved = 0 := hi.moved_eq_zero (by simp)
      have hout : out + ndone = kernel.length + reap.collected.length + reap.moved := hi.naiosOut
      have hplaces : free.length + ([].length + (kernel.length + reap.collected.length)) = naios :=
        hi.length_places
      have hnonneg := hi.naiosOut_nonneg
      dsimp only at hnonneg
      have hle : decide (out + ndone ≤ naios) = true := by
        rw [decide_eq_true_iff]
        omega
      simp only [Pool.subStep, if_true, orFailed_of hle] at h
      cases h
      exact { hi with
        naiosOut := (add_zero _).trans hout
        naiosOut_nonneg := by dsimp only; omega
        subMutex := ⟨fun _ => rfl, fun _ => rfl⟩
        reapMutex := ⟨fun hc => (by cases hc), fun hc => absurd hc (hi.not_reap_holds (by simp))⟩
        reapOk := hi.reapOk.mono hi.sendDone (by dsimp only; omega) }
  | counted ndone =>
    have hmutex : mutex = some .sub := hi.subMutex.mpr rfl
    subst hmutex
    have hlen : decide (ndone ≤ pkts.length) = true := decide_eq_true hi.subOk
    simp only [Pool.subStep, orFailed_of hlen] at h
    cases h
    exact { hi with
      subMutex := ⟨fun hc => (by cases hc), fun hc => (by cases hc)⟩
      reapMutex := ⟨fun hc => (by cases hc), fun hc => absurd hc (hi.not_reap_holds (by simp))⟩
      subOk := trivial }
  | finished => cases h
  | failed => cases h

/-! ## The reclaimer's steps -/

/-- What `io_getevents` returns comes out of the kernel's iocbs. -/
theorem diff_append_perm {kernel events : List ℕ} (hnodup : events.Nodup)
    (hsub : events ⊆ kernel) : (kernel.diff events ++ events).Perm kernel :=
  List.perm_append_comm.trans <| List.subperm_append_diff_self_of_count_le <|
    List.subperm_ext_iff.mp (hnodup.subperm hsub)

theorem Inv.reapStep {all : List α} {events : List ℕ} {s s' : State α} (hi : Inv all s)
    (h : Pool.reapStep events s = some s') : Inv all s' := by
  obtain ⟨free, used, mutex, out, nfree, sendWait, reapWait, sendDone, reapDone, iocb, kernel, log,
    bunches, pkts, sub, reap⟩ := s
  have hnonneg : 0 ≤ out := hi.naiosOut_nonneg
  cases reap with
  | check =>
    cases sendDone with
    | false =>
      cases h
      exact { hi with reapOk := trivial }
    | true =>
      cases h
      exact { hi with reapOk := rfl }
  | checkOut =>
    have hdone : sendDone = true := hi.reapOk
    simp only [Pool.reapStep] at h
    cases h
    split_ifs with hzero
    · exact { hi with reapOk := .inr ⟨rfl, hdone, hzero⟩ }
    · exact { hi with reapOk := trivial }
  | lock =>
    cases mutex with
    | some t => cases h
    | none =>
      cases h
      exact { hi with
        subMutex := ⟨fun hc => (by cases hc), fun hc => absurd hc (hi.not_sub_holds (by simp))⟩
        reapMutex := ⟨fun _ => rfl, fun _ => rfl⟩ }
  | wait =>
    cases mutex with
    | some t => cases h
    | none =>
      cases h
      exact { hi with
        subMutex := ⟨fun hc => (by cases hc), fun hc => absurd hc (hi.not_sub_holds (by simp))⟩
        reapMutex := ⟨fun _ => rfl, fun _ => rfl⟩ }
  | held =>
    have hmutex : mutex = some .reap := hi.reapMutex.mpr rfl
    subst hmutex
    have hsub := hi.not_sub_holds (by simp)
    simp only [Pool.reapStep] at h
    split_ifs at h with hzero
    · cases h
      exact { hi with
        subMutex := ⟨fun hc => (by cases hc), fun hc => absurd hc hsub⟩
        reapMutex := ⟨fun hc => (by cases hc), fun hc => (by cases hc)⟩ }
    · cases h
      exact { hi with
        subMutex := ⟨fun hc => (by cases hc), fun hc => absurd hc hsub⟩
        reapMutex := ⟨fun hc => (by cases hc), fun hc => (by cases hc)⟩
        reapOk := .inl ⟨lt_of_le_of_ne hnonneg (Ne.symm hzero), le_refl _⟩ }
  | asserting n =>
    have hok : Carries _ n := hi.reapOk
    cases sendDone with
    | true =>
      cases h
      exact { hi with reapOk := ⟨hok, rfl⟩ }
    | false =>
      have hpos : decide (0 < n) = true := by
        rcases hok with ⟨hpos, -⟩ | ⟨-, hdone, -⟩
        · exact decide_eq_true hpos
        · cases hdone
      simp only [Pool.reapStep, Bool.false_eq_true, if_false, orFailed_of hpos] at h
      cases h
      exact { hi with reapOk := hok }
  | assertingOut n =>
    obtain ⟨hok, -⟩ := hi.reapOk
    have hcond : (decide (out = 0) || decide (0 < n)) = true := by
      rw [Bool.or_eq_true, decide_eq_true_iff, decide_eq_true_iff]
      rcases hok with ⟨hpos, -⟩ | ⟨-, -, hzero⟩
      · exact .inr hpos
      · exact .inl hzero
    simp only [Pool.reapStep, orFailed_of hcond] at h
    cases h
    exact { hi with reapOk := hok }
  | returning n =>
    have hok : Carries _ n := hi.reapOk
    cases sendDone with
    | true =>
      cases h
      exact { hi with reapOk := ⟨hok, rfl⟩ }
    | false =>
      cases h
      exact { hi with reapOk := hok }
  | returningOut n =>
    obtain ⟨hok, hdone⟩ := hi.reapOk
    simp only [Pool.reapStep] at h
    cases h
    split_ifs with hzero
    · exact { hi with reapOk := .inr ⟨rfl, hdone, hzero⟩ }
    · exact { hi with reapOk := hok }
  | back n =>
    have hnaios : decide (0 < naios) = true := rfl
    simp only [Pool.reapStep, orFailed_of hnaios] at h
    rcases hi.reapOk with ⟨hpos, hle⟩ | ⟨rfl, hdone, hzero⟩
    · rw [if_pos hpos] at h
      cases h
      exact { hi with reapOk := ⟨hpos, hle⟩ }
    · have hdone' : sendDone = true := hdone
      subst hdone'
      rw [if_neg (lt_irrefl 0)] at h
      cases h
      exact { hi with reapOk := ⟨rfl, hzero⟩ }
  | getting n =>
    obtain ⟨-, hle⟩ := hi.reapOk
    simp only [Pool.reapStep] at h
    split_ifs at h with hevents
    obtain ⟨-, hlen, hnodup, hsubset⟩ := hevents
    have hperm := diff_append_perm hnodup hsubset
    have hcount := hperm.length_eq
    rw [List.length_append] at hcount
    cases h
    refine { hi with
      places := List.Perm.trans ?_ hi.places
      used := hi.used.trans ?_
      naiosOut := ?_
      reapOk := ⟨hlen, hle⟩ }
    · show (free ++ (sub.mapped ++ (kernel.diff events ++ events))).Perm
        (free ++ (sub.mapped ++ (kernel ++ [])))
      rw [List.append_nil]
      exact (hperm.append_left _).append_left _
    · show (sub.mapped ++ (kernel ++ [])).Perm (sub.mapped ++ (kernel.diff events ++ events))
      rw [List.append_nil]
      exact hperm.symm.append_left _
    · have hout : out + sub.uncounted = kernel.length + ([] : List ℕ).length + (0 : ℕ) := hi.naiosOut
      show out + sub.uncounted = (kernel.diff events).length + events.length + (0 : ℕ)
      rw [List.length_nil] at hout
      omega
  | got n events' =>
    obtain ⟨hlen, hle⟩ := hi.reapOk
    cases mutex with
    | some t => cases h
    | none =>
      cases h
      exact { hi with
        subMutex := ⟨fun hc => (by cases hc), fun hc => absurd hc (hi.not_sub_holds (by simp))⟩
        reapMutex := ⟨fun _ => rfl, fun _ => rfl⟩
        reapOk := ⟨by simpa using hlen, hle⟩ }
  | moving n left moved =>
    have hmutex : mutex = some .reap := hi.reapMutex.mpr rfl
    subst hmutex
    have hsub := hi.not_sub_holds (by simp)
    obtain ⟨hlen, hle⟩ := hi.reapOk
    dsimp only at hle
    have hcount : nfree = free.length + sub.taken - moved.length := hi.naiosFree
    have hout : out + sub.uncounted = kernel.length + left.length + moved.length := hi.naiosOut
    cases left with
    | cons x left =>
      rw [List.length_cons] at hlen hout
      push_cast at hlen hout
      cases h
      refine { hi with
        places := List.Perm.trans ?_ hi.places
        used := ?_
        naiosFree := ?_
        naiosOut := ?_
        reapOk := ⟨?_, hle⟩ }
      · rw [List.perm_iff_count]
        intro a
        simp only [ReapPc.collected, List.count_append, List.count_cons, List.count_nil]
        omega
      · have hused : used.Perm (sub.mapped ++ (kernel ++ x :: left)) := hi.used
        have hmid : (sub.mapped ++ (kernel ++ x :: left)).Perm
            (x :: (sub.mapped ++ (kernel ++ left))) := by
          rw [List.perm_iff_count]
          intro a
          simp only [List.count_append, List.count_cons]
          omega
        have herase := (hused.trans hmid).erase x
        rwa [List.erase_cons_head] at herase
      · show nfree = (free ++ [x]).length + sub.taken - (moved ++ [x]).length
        rw [List.length_append, List.length_append, List.length_singleton]
        push_cast
        omega
      · show out + sub.uncounted = kernel.length + left.length + (moved ++ [x]).length
        rw [List.length_append, List.length_singleton]
        push_cast
        omega
      · rw [List.length_append, List.length_singleton]
        push_cast
        omega
    | nil =>
      rw [List.length_nil] at hlen hout
      push_cast at hlen hout
      have hnaios : decide (0 < naios) = true := rfl
      simp only [Pool.reapStep, orFailed_of hnaios] at h
      cases h
      have hfree : nfree + moved.length = free.length + sub.taken - (0 : ℕ) := by omega
      have hout' : out - moved.length + sub.uncounted = kernel.length + (0 : ℕ) + (0 : ℕ) := by
        omega
      have hsubOk := hi.subOk
      split_ifs with hzero
      · exact { hi with
          naiosFree := hfree
          naiosOut := hout'
          naiosOut_nonneg := by dsimp only; omega
          subMutex := ⟨fun hc => (by cases hc), fun hc => absurd hc hsub⟩
          reapMutex := ⟨fun hc => (by cases hc), fun hc => (by cases hc)⟩
          subOk := hi.subOk.mono rfl rfl rfl (by dsimp only; omega)
          reapOk := trivial }
      · exact { hi with
          naiosFree := hfree
          naiosOut := hout'
          naiosOut_nonneg := by dsimp only; omega
          subMutex := ⟨fun hc => (by cases hc), fun hc => absurd hc hsub⟩
          reapMutex := ⟨fun hc => (by cases hc), fun hc => (by cases hc)⟩
          subOk := hi.subOk.mono rfl rfl rfl (by dsimp only; omega)
          reapOk := ⟨by omega, min_le_right _ _⟩ }
  | done => cases h
  | failed => cases h

/-! ## Every run -/

theorem Reachable.inv {bunches : List (Bunch α)} {s : State α} (h : Reachable bunches s) :
    Inv (bunches.flatMap Bunch.pkts) s := by
  induction h with
  | refl => exact inv_init bunches
  | tail _ hstep ih =>
    cases hstep with
    | sub h => exact ih.subStep h
    | reap events h => exact ih.reapStep h

/-- The iocbs submitted and not yet back on the free list. -/
def State.inFlight (s : State α) : List ℕ := s.kernel ++ s.reap.collected

/-- What the two threads keep to, on a file with the packets `all`. -/
structure PoolOk (all : List α) (s : State α) : Prop where
  /-- Each iocb is free, mapped or submitted, and in one place only. -/
  places : (s.freeIocbs ++ (s.sub.mapped ++ s.inFlight)).Perm (List.range naios)
  used : s.usedIocbs.Perm (s.sub.mapped ++ s.inFlight)
  /-- The counters, whenever the mutex is free. -/
  naiosFree : s.mutex = none →
    s.naiosFree + s.sub.mapped.length + s.inFlight.length = naios ∧
      s.naiosFree ≤ s.freeIocbs.length
  naiosOut_nonneg : 0 ≤ s.naiosOut
  naiosOut_le : s.mutex = none → s.naiosOut ≤ s.inFlight.length
  /-- And while it is not: the reclaimer may have moved iocbs that it has still to count. -/
  naiosOut_le' : s.naiosOut ≤ s.inFlight.length + s.reap.moved
  sub_ok : s.sub ≠ .failed
  reap_ok : s.reap ≠ .failed
  /-- The packets are submitted in order, each of them once, and all of them in the end. -/
  log_prefix : s.log <+: all
  log_all : s.sub = .finished → s.log = all

theorem Inv.poolOk {all : List α} {s : State α} (hi : Inv all s) : PoolOk all s := by
  have hlen := hi.length_places
  have hcount := hi.naiosFree
  have hout := hi.naiosOut
  have hflight : s.inFlight.length = s.kernel.length + s.reap.collected.length :=
    List.length_append
  have hfree : s.mutex = none → s.sub.taken = 0 ∧ s.reap.moved = 0 := by
    intro hnone
    refine ⟨?_, hi.moved_eq_zero (by simp [hnone])⟩
    have hholds := hi.not_sub_holds (by simp [hnone])
    cases hsub : s.sub <;> rw [hsub] at hholds <;> first | rfl | exact absurd rfl hholds
  exact
    { places := hi.places
      used := hi.used
      naiosFree := by
        intro hnone
        obtain ⟨htaken, hmoved⟩ := hfree hnone
        omega
      naiosOut_nonneg := hi.naiosOut_nonneg
      naiosOut_le := by
        intro hnone
        obtain ⟨-, hmoved⟩ := hfree hnone
        omega
      naiosOut_le' := by omega
      sub_ok := by
        intro hfailed
        have hok := hi.subOk
        rw [hfailed] at hok
        exact hok
      reap_ok := by
        intro hfailed
        have hok := hi.reapOk
        rw [hfailed] at hok
        exact hok
      log_prefix := ⟨_, hi.log⟩
      log_all := by
        intro hfinished
        have hok := hi.subOk
        have hlog := hi.log
        rw [hfinished] at hok
        rw [hok.1, hok.2] at hlog
        simpa using hlog }

/-- The submitter on its own, for some steps. -/
def subSteps : ℕ → State α → Option (State α)
  | 0, s => some s
  | n + 1, s => (subStep s).bind (subSteps n)

theorem Reachable.subSteps {bunches : List (Bunch α)} {n : ℕ} {s s' : State α}
    (h : Reachable bunches s) (hrun : Pool.subSteps n s = some s') : Reachable bunches s' := by
  induction n generalizing s with
  | zero =>
    cases hrun
    exact h
  | succ n ih =>
    obtain ⟨s₁, hstep, hrest⟩ := Option.bind_eq_some_iff.mp hrun
    exact ih (h.tail (.sub hstep)) hrest

/-- What `nfree_current` returns and what `iocbs_map` then finds are as a `FreeList` has them. -/
theorem Inv.freeList {all : List α} {s : State α} (hi : Inv all s) :
    (s.sub = .nfreeHeld → s.naiosFree ≠ 0 → 0 < s.naiosFree ∧ s.naiosFree ≤ naios) ∧
      ∀ ntodo, s.sub = .map ntodo → s.mutex = none →
        (ntodo : ℤ) ≤ s.naiosFree ∧ s.naiosFree ≤ s.freeIocbs.length := by
  have hcount := hi.naiosFree
  have hlen := hi.length_places
  constructor
  · intro hsub hne
    have hmutex : s.mutex = some .sub := hi.subMutex.mpr (by rw [hsub]; rfl)
    have hmoved := hi.moved_eq_zero (by simp [hmutex])
    have htaken : s.sub.taken = 0 := by rw [hsub]; rfl
    omega
  · intro ntodo hsub hnone
    have hok := hi.subOk
    rw [hsub] at hok
    exact ⟨hok.2.2.1, (hi.poolOk.naiosFree hnone).2⟩

/-- When the submitter is through, it has submitted what `replayBunches` says, whatever free list
that is given. -/
theorem Inv.replays {bunches : List IoBunch} (hwf : ∀ b ∈ bunches, b.WF) {s : State IoPkt}
    (hi : Inv (bunches.flatMap IoBunch.pkts) s) (hdone : s.sub = .finished)
    {ndebug writeEnabled : Bool} {free : FreeList} {fuel : ℕ} (hfuel : bunches.length < fuel)
    (k : ℕ) :
    ∃ k', replayBunches ndebug writeEnabled free fuel k (bunches.flatMap IoBunch.image) =
      submitted ndebug writeEnabled (s.log.map IoPkt.content) >>= fun done => .ok (k', done) := by
  have hcontents : contents bunches = s.log.map IoPkt.content := by
    rw [hi.poolOk.log_all hdone, List.map_flatMap]
    rfl
  rw [← hcontents]
  exact replayBunches_eq hwf hfuel k

end Blktrace.Btreplay.Pool
