import Blktrace.Server.Tolerance

/-!
# What the server gets through

A message that fits may still make `blktrace` exit: over a window that cannot be moved, or over more
bytes than an `int` counts. `Serves` says of one message that it does not, and a run comes to its end
if and only if all its messages are served.
-/

namespace Blktrace.Server

open Tracer

variable {ν : Type*} [DecidableEq ν] (S : Settings) (ndevs : ℕ)

/-- A message that the server takes without leaving by `exit`. -/
structure Served (h : Host ν) (ncpus : ℤ) (m : Msg ν) : Prop where
  fits : Fits S ndevs h ncpus m
  moves : m.hdr.len ≠ 0 → m.hdr.len ≠ 1 →
    ((h.target ncpus m).ios m.hdr.cpu.toNat).full m.hdr.len.toNat →
      Moves S ((h.target ncpus m).ios m.hdr.cpu.toNat) m.env.calls
  taken : m.hdr.len ≠ 0 → m.hdr.len ≠ 1 → (m.data.take m.hdr.len.toNat).length < 2 ^ 31

/-- The message of a step is served, where there is a server to take it. -/
def Serves (h : Host ν) : Act ν → Prop
  | .connect _ => True
  | .message m =>
    h.halted = false → ∀ ncpus, h.conns m.conn = some ncpus →
      Served S ndevs h (Host.ncpusOf ncpus m.hdr).toInt m

variable {S ndevs}

omit [DecidableEq ν] in
/-- `access` goes on if everything is in range. -/
theorem access_halted {h : Host ν} {as : List Access} {rest : Host ν → Host ν} :
    (h.access as rest).halted = false ↔
      (∀ a ∈ as, a.inRange) ∧ (rest { h with log := h.log ++ as }).halted = false := by
  unfold Host.access
  dsimp only
  split_ifs with hall
  · have hin : ∀ a ∈ as, a.inRange = true := List.all_eq_true.mp hall
    exact (and_iff_right hin).symm
  · have hnot : ¬ ∀ a ∈ as, a.inRange = true := fun h => hall (List.all_eq_true.mpr h)
    simp [hnot, Host.exit]

/-- `net_client_read_data`. -/
theorem readData_halted {h : Host ν} (hh : h.halted = false) {dpp : Devpath ν}
    (hslid : ∀ cpu, Slid S (dpp.ios cpu)) {m : Msg ν} (hlen : m.hdr.len ≠ 0) :
    (h.readData S dpp m).halted = false ↔
      m.hdr.cpu.toNat < dpp.ncpus ∧
      ((dpp.ios m.hdr.cpu.toNat).full m.hdr.len.toNat →
        Moves S (dpp.ios m.hdr.cpu.toNat) m.env.calls ∧
        2 * ((dpp.ios m.hdr.cpu.toNat).fsSize % S.pagesize) + m.hdr.len.toNat ≤ S.span) ∧
      (m.data.take m.hdr.len.toNat).length < 2 ^ 31 := by
  have hpos : 0 < m.hdr.len.toNat := by
    rw [Nat.pos_iff_ne_zero]
    exact fun h => hlen (UInt32.toNat_inj.mp h)
  have hle : m.hdr.len.toNat ≤ 2 ^ 32 := m.hdr.len.toNat_lt.le
  have hmip := hslid m.hdr.cpu.toNat
  unfold Host.readData
  dsimp only
  rw [access_halted]
  simp only [List.forall_mem_singleton, inRange_ios, Nat.succ_le_iff]
  refine and_congr_right fun hcpu => ?_
  have hmoves := setup_ret hmip m.hdr.len.toNat m.env.calls
  have hin := setup_inRange hmip hpos hle m.env.calls
  generalize (dpp.ios m.hdr.cpu.toNat).setup S m.hdr.len.toNat m.env.calls = result at *
  obtain ⟨mip, ret⟩ := result
  dsimp only at hmoves hin ⊢
  by_cases hret : ret = 0
  · have hmove := hmoves.mp hret
    rw [if_neg (not_not.mpr hret), access_halted]
    simp only [List.forall_mem_singleton]
    rw [hin hret]
    refine and_congr ⟨fun hroom hfull => ⟨hmove hfull, hroom hfull⟩, fun h hfull => (h hfull).2⟩ ?_
    split_ifs with hlong hnil
    · simp only [Host.exit, Bool.true_eq_false, false_iff, not_lt]
      exact hlong
    · have hlt := not_le.mp hlong
      exact ⟨fun _ => hlt, fun _ => hh⟩
    · rw [access_halted]
      have hlt := not_le.mp hlong
      refine ⟨fun _ => hlt, fun _ => ⟨?_, hh⟩⟩
      exact List.forall_mem_singleton.mpr ((inRange_stats _ _).mpr (Nat.succ_le_of_lt hcpu))
  · rw [if_pos hret]
    simp only [Host.exit, Bool.true_eq_false, false_iff]
    rintro ⟨hall, -⟩
    exact hret (hmoves.mpr fun hfull => (hall hfull).1)

/-- `nc_find_dpp`. -/
theorem findDpp_halted {h : Host ν} (hs : Kept S h) {ncpus : ℤ} (hlo : -2 ^ 31 ≤ ncpus)
    (hhi : ncpus < 2 ^ 31) {m : Msg ν} {rest : Host ν → Option (Devpath ν) → Host ν} (ok : Prop)
    (hsome : ∀ h' dpp, Found S h ncpus m h' dpp → h'.halted = h.halted →
      ((rest h' (some dpp)).halted = false ↔ ok))
    (hnone : ∀ h', (rest h' none).halted = true) :
    (h.findDpp ndevs ncpus m rest).halted = false ↔
      ((∀ dpp ∈ h.devpaths, dpp.butsName ≠ m.hdr.butsName) →
        0 ≤ ncpus ∧ (ndevs : ℤ) ≤ ncpus ∧ (0 < ncpus → m.env.stats ∧ m.env.ios) ∧
          ∀ cpu < ncpus.toNat, m.env.opens cpu) ∧ ok := by
  unfold Host.findDpp
  cases hfind : h.devpaths.find? fun dpp => dpp.butsName = m.hdr.butsName with
  | some dpp =>
    obtain ⟨hfound, hname⟩ := Found.of_find hs ncpus hfind
    refine (hsome h dpp hfound rfl).trans ?_
    exact (and_iff_right fun hnew => absurd hname (hnew dpp hfound.mem)).symm
  | none =>
    have hnew : ∀ dpp ∈ h.devpaths, dpp.butsName ≠ m.hdr.butsName := by
      intro dpp hdpp
      simpa using List.find?_eq_none.mp hfind dpp hdpp
    dsimp only
    unfold Host.addDpp
    dsimp only
    have halloc := alloc_iff ndevs hlo hhi m.env.stats m.env.ios
    generalize (if m.env.stats = true ∧ 0 ≤ ncpus then ncpus.toNat else 0) = stats at *
    generalize (if m.env.ios = true ∧ 0 ≤ ncpus then ncpus.toNat else 0) = ios at *
    cases hopens : (List.range ncpus.toNat).find? fun cpu => !m.env.opens cpu with
    | some cpu =>
      simp only [access_halted, hnone, Bool.true_eq_false, and_false, false_iff, not_and]
      intro hadd
      exact absurd (hadd hnew).2.2.2 (not_opens_of_find hopens)
    | none =>
      have hall := opens_of_find hopens
      simp only [access_halted]
      rw [hsome]
      · simp only [List.forall_mem_cons, List.not_mem_nil, false_implies, implies_true, and_true,
          inRange_ios, inRange_stats]
        rw [← and_assoc, halloc]
        constructor
        · rintro ⟨⟨hneg, hndevs, halloc'⟩, hok⟩
          exact ⟨fun _ => ⟨hneg, hndevs, halloc', hall⟩, hok⟩
        · rintro ⟨hadd, hok⟩
          obtain ⟨hneg, hndevs, halloc', -⟩ := hadd hnew
          exact ⟨⟨hneg, hndevs, halloc'⟩, hok⟩
      · refine ⟨?_, rfl, ?_, by simp, ?_, ?_⟩
        · exact hs.addDpp hnew (fun _ => slid_init) rfl
        · rw [Host.target, hfind, Option.getD_none]
        · intro d hd
          rw [List.mem_append, List.mem_singleton] at hd
          exact hd.imp_right fun h => by rw [h]
        · intro d hd
          exact List.mem_append_left _ hd
      · rfl

/-- **One message.** -/
theorem netClientData_halted {h : Host ν} (hs : Kept S h) (hh : h.halted = false) (ncpus : Int32)
    (m : Msg ν) :
    (h.netClientData S ndevs ncpus m).halted = false ↔
      Served S ndevs h (Host.ncpusOf ncpus m.hdr).toInt m := by
  unfold Host.netClientData
  dsimp only
  generalize Host.ncpusOf ncpus m.hdr = n
  generalize hh₀ : { h with conns := Function.update h.conns m.conn (some n) } = h₀
  have hs₀ : Kept S h₀ := hh₀ ▸ hs.congr rfl
  have hdevpaths : h₀.devpaths = h.devpaths := by rw [← hh₀]
  have hclOpens : h₀.clOpens = h.clOpens := by rw [← hh₀]
  have hhalted : h₀.halted = false := by rw [← hh₀]; exact hh
  have htarget : h₀.target n.toInt m = h.target n.toInt m := by rw [← hh₀]; rfl
  rw [findDpp_halted hs₀ n.le_toInt n.toInt_lt
    ((m.hdr.len = 1 → h.clOpens = 1 → ∀ dpp ∈ h.devpaths, n.toInt ≤ dpp.ncpus) ∧
    (m.hdr.len ≠ 0 → m.hdr.len ≠ 1 → m.hdr.cpu.toNat < (h.target n.toInt m).ncpus ∧
      (((h.target n.toInt m).ios m.hdr.cpu.toNat).full m.hdr.len.toNat →
        Moves S ((h.target n.toInt m).ios m.hdr.cpu.toNat) m.env.calls ∧
        2 * (((h.target n.toInt m).ios m.hdr.cpu.toNat).fsSize % S.pagesize) + m.hdr.len.toNat ≤
          S.span) ∧ (m.data.take m.hdr.len.toNat).length < 2 ^ 31)) ?_ (fun h' => rfl)]
  · rw [hdevpaths]
    constructor
    · rintro ⟨hadd, hclose, hdata⟩
      exact ⟨⟨hadd, hclose, fun hzero hone =>
        ⟨(hdata hzero hone).1, fun hfull _ => ((hdata hzero hone).2.1 hfull).2⟩⟩,
        fun hzero hone hfull => ((hdata hzero hone).2.1 hfull).1,
        fun hzero hone => (hdata hzero hone).2.2⟩
    · rintro ⟨⟨hadd, hclose, hdata⟩, hmoves, htaken⟩
      refine ⟨hadd, hclose, fun hzero hone => ⟨(hdata hzero hone).1, fun hfull => ?_, htaken hzero hone⟩⟩
      have hmove := hmoves hzero hone hfull
      exact ⟨hmove, (hdata hzero hone).2 hfull hmove⟩
  · intro h' dpp hfound hh'
    rw [access_halted]
    refine (and_iff_right (by simp)).trans ?_
    generalize hh'' : { h' with log := h'.log ++ [Access.devpath (some dpp).isSome] } = h''
    have hs'' : Kept S h'' := hh'' ▸ hfound.kept.congr rfl
    have hmem'' : dpp ∈ h''.devpaths := hh'' ▸ hfound.mem
    have hhalted'' : h''.halted = false := by
      rw [← hh'']
      exact hh'.trans hhalted
    dsimp only
    by_cases hzero : m.hdr.len = 0
    · rw [if_pos hzero]
      refine (iff_true_right ?_).mpr hhalted''
      simp [hzero]
    rw [if_neg hzero]
    by_cases hone : m.hdr.len = 1
    · rw [if_pos hone]
      have hsub : h''.clOpens - 1 = 0 ↔ h.clOpens = 1 := by
        rw [← hh'', ← hclOpens, ← hfound.clOpens]
        exact Int.sub_eq_zero
      have hdevs : h''.devpaths = h'.devpaths := by rw [← hh'']
      split_ifs with hlast
      · unfold Host.chRemove
        rw [access_halted, List.forall_mem_flatMap]
        change (∀ d ∈ (h''.setDpp { dpp with drops := m.hdr.cpu }).devpaths, _) ∧ _ ↔ _
        have hall := (forall_setDpp hs'' hmem'' m.hdr.cpu n.toInt).trans
          (hdevs ▸ hdevpaths ▸ hfound.forall_le)
        simp only [List.forall_mem_cons, List.not_mem_nil, false_implies, implies_true, and_true,
          inRange_stats, inRange_ios, le_refl, true_and, Int.toNat_le]
        have hset : (h''.setDpp { dpp with drops := m.hdr.cpu }).halted = false := hhalted''
        rw [hall, hset]
        simp [hone, hsub.mp hlast]
      · have hnot : h.clOpens ≠ 1 := fun h => hlast (hsub.mpr h)
        refine (iff_true_right ?_).mpr hhalted''
        simp [hone, hnot]
    · rw [if_neg hone]
      have hslid : ∀ cpu, Slid S (dpp.ios cpu) := hs''.slid dpp hmem''
      have hiff := readData_halted hhalted'' hslid hzero
      rw [hfound.target, htarget] at hiff ⊢
      rw [hiff]
      simp [hzero, hone]

/-! ## Runs -/

/-- **One step.** -/
theorem step_serves {h : Host ν} (hs : Kept S h) (hh : h.halted = false) (a : Act ν) :
    ((h.step S ndevs a).getD h).halted = false ↔ Serves S ndevs h a := by
  cases a with
  | connect conn =>
    simp only [Host.step, Serves, iff_true]
    split_ifs
    · exact hh
    · exact hh
  | message m =>
    simp only [Host.step, Serves, hh, Bool.false_eq_true, if_false, true_implies]
    cases hconn : h.conns m.conn with
    | none => simp [hh]
    | some ncpus => simp [netClientData_halted hs hh]

/-- **A run comes to its end** if and only if all of its messages are served. -/
theorem run_halted_iff (acts : List (Act ν)) :
    (Runs.run (Host.step S ndevs) ({} : Host ν) acts).halted = false ↔
      Runs.Along (Host.step S ndevs) (Serves S ndevs) {} acts := by
  have hgeneral : ∀ h : Host ν, Kept S h → h.halted = false →
      ((Runs.run (Host.step S ndevs) h acts).halted = false ↔
        Runs.Along (Host.step S ndevs) (Serves S ndevs) h acts) := by
    induction acts with
    | nil => exact fun h _ hh => ⟨fun _ => .nil h, fun _ => hh⟩
    | cons a acts ih =>
      intro h hs hh
      have hkept : Kept S ((h.step S ndevs a).getD h) := (step_records hs a).kept
      rw [Runs.run_cons, Runs.along_cons, ← step_serves hs hh]
      cases hnext : ((h.step S ndevs a).getD h).halted with
      | false => simpa using ih _ hkept hnext
      | true =>
        have hstays : ∀ acts, (Runs.run (Host.step S ndevs) ((h.step S ndevs a).getD h) acts).halted = true := by
          intro acts
          refine Runs.run_invariant (P := fun h : Host ν => h.halted = true) ?_ hnext acts
          intro s b s' hs hs'
          rw [step_halted hs] at hs'
          cases hs'
        simp [hstays]
  exact hgeneral {} ⟨List.nodup_nil, nofun⟩ rfl

end Blktrace.Server
