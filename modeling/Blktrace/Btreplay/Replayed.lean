import Blktrace.Btreplay.Bunches
import Blktrace.Btreplay.Replay

/-!
# What `btreplay` makes of bunches

However the free list fills, the bunches of a file are submitted in order, one iocb for a packet,
as long as every packet passes the assertions of `iocb_setup`.
-/

namespace Blktrace.Btreplay

open Bytes

variable {ndebug writeEnabled : Bool} {free : FreeList}

/-! ## One packet -/

/-- What `iocb_setup` asserts of the contents of a packet. -/
def Ready : UInt64 × UInt64 × UInt32 → Prop
  | (sector, nbytes, rw) =>
    (rw = 0 ∨ rw = 1) ∧ 0 < nbytes.toUInt32.toInt32 ∧ nbytes.toUInt32.toInt32 % 512 = 0 ∧
      0 ≤ (sector * nbSec).toInt64

instance : DecidablePred Ready := fun c => by
  unfold Ready
  infer_instance

/-- The iocb of a packet: a write, where writing is enabled. -/
def toIocb (writeEnabled : Bool) : UInt64 × UInt64 × UInt32 → Iocb
  | (sector, nbytes, rw) =>
    { write := rw == 0 && writeEnabled
      nbytes := nbytes.toUInt32.toInt32
      offset := (sector * nbSec).toInt64 }

theorem assertThat_and {α : Type} (a b : Bool) (f : Unit → Except Stop α) :
    (assertThat ndebug a >>= fun _ => assertThat ndebug b >>= f) =
      assertThat ndebug (a && b) >>= f := by
  unfold assertThat
  cases ndebug <;> cases a <;> cases b <;> rfl

theorem iocbMap_eq (p : IoPkt) :
    iocbMap ndebug writeEnabled p =
      assertThat ndebug (decide (Ready p.content)) >>= fun _ =>
        .ok (toIocb writeEnabled p.content) := by
  have hsec : nbSec.toInt64.toInt32 = 512 := by decide
  have hready : decide (Ready p.content) = ((decide (p.rw = 0) || decide (p.rw = 1)) &&
      ((decide (0 < p.nbytes.toUInt32.toInt32) && decide (p.nbytes.toUInt32.toInt32 % 512 = 0)) &&
        decide (0 ≤ (p.sector * nbSec).toInt64))) := by
    simp [IoPkt.content, Ready, Bool.decide_and, Bool.decide_or, Bool.and_assoc]
  unfold iocbMap iocbSetup
  rw [hsec, hready]
  dsimp only
  rw [assertThat_and, assertThat_and, Bool.and_assoc]
  unfold IoPkt.content toIocb
  dsimp only
  generalize (p.sector * nbSec).toInt64 = off
  generalize p.nbytes.toUInt32.toInt32 = n
  by_cases hrw : p.rw = 0
  · cases writeEnabled <;> simp [hrw]
  · have hbeq : (p.rw == 0) = false := beq_eq_false_iff_ne.mpr hrw
    simp [hrw, hbeq]

variable (ndebug writeEnabled) in
/-- What becomes of packets, one after the other. -/
def submitted (cs : List (UInt64 × UInt64 × UInt32)) : Except Stop (List Iocb) :=
  assertThat ndebug (decide (∀ c ∈ cs, Ready c)) >>= fun _ => .ok (cs.map (toIocb writeEnabled))

@[simp] theorem submitted_nil : submitted ndebug writeEnabled [] = .ok [] := by simp [submitted]

theorem submitted_append (cs ds : List (UInt64 × UInt64 × UInt32)) :
    submitted ndebug writeEnabled (cs ++ ds) = submitted ndebug writeEnabled cs >>= fun done =>
      submitted ndebug writeEnabled ds >>= fun rest => .ok (done ++ rest) := by
  have hall : decide (∀ c ∈ cs ++ ds, Ready c) =
      (decide (∀ c ∈ cs, Ready c) && decide (∀ c ∈ ds, Ready c)) := by
    rw [← Bool.decide_and, decide_eq_decide, List.forall_mem_append]
  unfold submitted
  rw [hall, ← assertThat_and, List.map_append]
  unfold assertThat
  cases ndebug <;> cases decide (∀ c ∈ cs, Ready c) <;> cases decide (∀ c ∈ ds, Ready c) <;> rfl

theorem mapM_iocbMap (pkts : List IoPkt) :
    pkts.mapM (iocbMap ndebug writeEnabled) =
      submitted ndebug writeEnabled (pkts.map IoPkt.content) := by
  induction pkts with
  | nil => simp [pure, Except.pure]
  | cons p pkts ih =>
    have hone : submitted ndebug writeEnabled [p.content] =
        iocbMap ndebug writeEnabled p >>= fun i => .ok [i] := by
      rw [iocbMap_eq]
      unfold submitted assertThat
      cases ndebug <;> by_cases hready : Ready p.content <;> simp [hready]
    rw [List.mapM_cons, ih, List.map_cons, ← List.singleton_append, submitted_append, hone]
    cases iocbMap ndebug writeEnabled p with
    | error e => rfl
    | ok i => rfl

/-! ## Bunches -/

theorem processBunchLoop_eq {fuel : ℕ} {pkts : List IoPkt} (h : pkts.length ≤ fuel) (k : ℕ) :
    ∃ k', processBunchLoop ndebug writeEnabled free fuel k pkts =
      submitted ndebug writeEnabled (pkts.map IoPkt.content) >>= fun done => .ok (k', done) := by
  induction fuel generalizing pkts k with
  | zero =>
    have hnil : pkts = [] := List.length_eq_zero_iff.mp (Nat.le_zero.mp h)
    subst hnil
    exact ⟨k, by rw [List.map_nil, submitted_nil]; rfl⟩
  | succ fuel ih =>
    by_cases hnil : pkts = []
    · subst hnil
      exact ⟨k, by rw [List.map_nil, submitted_nil]; rfl⟩
    have hpos := List.length_pos_of_ne_nil hnil
    have hfree := free.pos k
    have hnaios := free.le_naios k
    have hlist := free.le_listLen k
    generalize hn : min (free.nfree k) pkts.length = ntodo
    obtain ⟨k', hrest⟩ := @ih (pkts.drop ntodo) (by rw [List.length_drop]; omega) (k + 1)
    refine ⟨k', ?_⟩
    have htake : (pkts.take ntodo).length = ntodo := by
      rw [List.length_take]
      omega
    have hntodo : (decide (0 < ntodo) && decide (ntodo ≤ naios)) = true := by
      rw [Bool.and_eq_true, decide_eq_true_iff, decide_eq_true_iff]
      omega
    have hlen : decide (ntodo ≤ free.listLen k) = true := by
      rw [decide_eq_true_iff]
      omega
    unfold processBunchLoop iocbsMap
    rw [if_neg hnil]
    simp only [hn, htake, hntodo, hlen, assertThat_true, ok_bind, hrest, mapM_iocbMap]
    conv_rhs => rw [← List.take_append_drop ntodo pkts, List.map_append, submitted_append]
    cases submitted ndebug writeEnabled ((pkts.take ntodo).map IoPkt.content) with
    | error e => rfl
    | ok done => cases submitted ndebug writeEnabled ((pkts.drop ntodo).map IoPkt.content) <;> rfl

theorem processBunch_eq {b : IoBunch} (hb : b.WF) (k : ℕ) :
    ∃ k', processBunch ndebug writeEnabled free k b =
      submitted ndebug writeEnabled (b.pkts.map IoPkt.content) >>= fun done => .ok (k', done) := by
  obtain ⟨k', hloop⟩ := @processBunchLoop_eq ndebug writeEnabled free _ b.pkts (le_refl _) k
  refine ⟨k', ?_⟩
  have hnpkts : (decide (0 < b.hdr.npkts) && decide (b.hdr.npkts ≤ UInt64.ofNat btMaxPkts)) =
      true := by
    rw [Bool.and_eq_true, decide_eq_true_iff, decide_eq_true_iff, UInt64.lt_iff_toNat_lt,
      UInt64.le_iff_toNat_le, hb.npkts]
    exact ⟨hb.pos, hb.le⟩
  unfold processBunch
  rw [hnpkts, assertThat_true]
  exact hloop

/-- `next_bunch` reads back what `bunch_output_hdr` and `bunch_output_pkts` wrote. -/
theorem nextBunch_image {b : IoBunch} (hb : b.WF) (rest : List UInt8) :
    nextBunch ndebug (b.image ++ rest) = .ok (some (b, rest)) := by
  have hlen : (b.image ++ rest).length = 16 + b.pkts.length * 24 + rest.length := by
    rw [List.length_append, b.length_image]
  have hne : b.image ++ rest ≠ [] := by
    intro h
    rw [h, List.length_nil] at hlen
    omega
  have hload : ioBunchHdrLayout.load (b.image ++ rest) = b.hdr := by
    rw [IoBunch.image, List.append_assoc, Layout.load_store]
  have hdrop : (b.image ++ rest).drop ioBunchHdrLayout.size =
      ioPktLayout.storeAll b.pkts ++ rest := by
    rw [IoBunch.image, List.append_assoc, Layout.drop_store]
  have hpkts : decide (b.hdr.npkts ≤ UInt64.ofNat btMaxPkts) = true := by
    rw [decide_eq_true_iff, UInt64.le_iff_toNat_le, hb.npkts]
    exact hb.le
  have hbody : (ioPktLayout.storeAll b.pkts ++ rest).length =
      b.pkts.length * ioPktLayout.size + rest.length := by
    rw [List.length_append, Layout.length_storeAll]
  unfold nextBunch
  rw [if_neg hne, if_neg (by rw [hlen, ioBunchHdrLayout_size]; omega)]
  dsimp only
  rw [hload, hdrop, hpkts, assertThat_true, hb.npkts, Layout.loadAll_storeAll]
  show (if _ then _ else _) = _
  rw [if_neg (by rw [hbody]; omega), ← Layout.length_storeAll, List.drop_left]

@[simp] theorem nextBunch_nil : nextBunch ndebug [] = .ok none := rfl

/-! ## A whole file -/

theorem length_body (bunches : List IoBunch) :
    16 * bunches.length ≤ (bunches.flatMap IoBunch.image).length := by
  induction bunches with
  | nil => exact le_refl _
  | cons b bunches ih =>
    rw [List.flatMap_cons, List.length_append, b.length_image, List.length_cons]
    omega

theorem replayBunches_eq {bunches : List IoBunch} (hwf : ∀ b ∈ bunches, b.WF) {fuel : ℕ}
    (h : bunches.length < fuel) (k : ℕ) :
    ∃ k', replayBunches ndebug writeEnabled free fuel k (bunches.flatMap IoBunch.image) =
      submitted ndebug writeEnabled (contents bunches) >>= fun done => .ok (k', done) := by
  induction bunches generalizing fuel k with
  | nil =>
    obtain ⟨fuel, rfl⟩ := Nat.exists_eq_add_one_of_ne_zero (Nat.ne_of_gt (Nat.zero_lt_of_lt h))
    exact ⟨k, by rw [show contents [] = [] from rfl, submitted_nil]; rfl⟩
  | cons b bunches ih =>
    obtain ⟨fuel, rfl⟩ := Nat.exists_eq_add_one_of_ne_zero (Nat.ne_of_gt (Nat.zero_lt_of_lt h))
    obtain ⟨k₁, hb⟩ := @processBunch_eq ndebug writeEnabled free b (hwf b List.mem_cons_self) k
    obtain ⟨k', hrest⟩ := ih (fun b hb => hwf b (List.mem_cons_of_mem _ hb))
      (Nat.lt_of_succ_lt_succ h) k₁
    refine ⟨k', ?_⟩
    have hcons : contents (b :: bunches) = b.pkts.map IoPkt.content ++ contents bunches := rfl
    rw [replayBunches, List.flatMap_cons, nextBunch_image (hwf b List.mem_cons_self), hcons,
      submitted_append]
    simp only [ok_bind, hb]
    cases submitted ndebug writeEnabled (b.pkts.map IoPkt.content) with
    | error e => rfl
    | ok done =>
      simp only [ok_bind, hrest]
      cases submitted ndebug writeEnabled (contents bunches) <;> rfl

/-- The iterations all submit the same. -/
theorem replaySub_eq {hdr : IoFileHdr} {bunches : List IoBunch} (hwf : ∀ b ∈ bunches, b.WF)
    (iterations k : ℕ) :
    replaySub ndebug writeEnabled free
        (ioFileHdrLayout.store hdr ++ bunches.flatMap IoBunch.image) iterations k
        (bunches.flatMap IoBunch.image) =
      submitted ndebug writeEnabled (List.replicate iterations (contents bunches)).flatten := by
  induction iterations generalizing k with
  | zero => simp [replaySub]
  | succ iterations ih =>
    have hbody := length_body bunches
    have hreset : resetInputFile (ioFileHdrLayout.store hdr ++ bunches.flatMap IoBunch.image) =
        .ok (bunches.flatMap IoBunch.image) := by
      unfold resetInputFile
      rw [if_neg (by rw [List.length_append, Layout.length_store]; omega), Layout.drop_store]
    have hfuel : bunches.length <
        (ioFileHdrLayout.store hdr ++ bunches.flatMap IoBunch.image).length + 1 := by
      rw [List.length_append]
      omega
    obtain ⟨k', hone⟩ := @replayBunches_eq ndebug writeEnabled free bunches hwf _ hfuel k
    rw [replaySub, List.replicate_succ, List.flatten_cons, submitted_append, hone]
    cases submitted ndebug writeEnabled (contents bunches) with
    | error e => rfl
    | ok done =>
      simp only [ok_bind, hreset, ih]

/-- **`btreplay` on what `btrecord` left**: a file of one bunch is taken for empty, any other one
is submitted whole in every iteration. -/
theorem replay_eq {lim : Limits} {specs : List IoSpec} {hdr : IoFileHdr} {bunches : List IoBunch}
    (h : Recorded lim specs hdr bunches) (hfit : bunches.length < 2 ^ 64) (o : ReplayOpts) :
    replay ndebug o free (ioFileHdrLayout.store hdr ++ bunches.flatMap IoBunch.image) =
      if bunches.length ≤ 1 then .ok []
      else submitted ndebug o.writeEnabled
        (List.replicate o.iterations (specs.map IoSpec.content)).flatten := by
  have hzero : hdr.nbunches = 0 ↔ bunches.length ≤ 1 := by
    rw [h.nbunches, ← UInt64.toNat_inj, UInt64.toNat_ofNat_of_lt' (lt_of_le_of_lt (Nat.sub_le _ _) hfit)]
    show bunches.length - 1 = 0 ↔ _
    omega
  unfold replay addInputFile
  rw [if_neg (by rw [List.length_append, Layout.length_store]; omega), Layout.load_store,
    Layout.drop_store]
  dsimp only
  rw [if_neg (not_not.mpr h.version)]
  by_cases hone : bunches.length ≤ 1
  · rw [if_pos (hzero.mpr hone), if_pos hone]
    rfl
  · rw [if_neg (fun hc => hone (hzero.mp hc)), if_neg hone, ← h.content]
    exact replaySub_eq h.wf o.iterations 0

end Blktrace.Btreplay
