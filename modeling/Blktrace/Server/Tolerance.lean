import Blktrace.Server.Host

/-!
# What the server tolerates

Nothing of a header is checked against what was allocated. Which messages lead to accesses in range
only can be said all the same: `Fits` says it of one message, and a run is in range if and only if
all its messages fit.
-/

namespace Blktrace.Server

open Tracer

variable {ν : Type*} [DecidableEq ν] (S : Settings) (ndevs : ℕ)

namespace Host

/-- The devpath that a message is for. -/
def target (h : Host ν) (ncpus : ℤ) (m : Msg ν) : Devpath ν :=
  (h.devpaths.find? fun dpp => dpp.butsName = m.hdr.butsName).getD
    { butsName := m.hdr.butsName, ncpus := ncpus.toNat }

end Host

/-- `setup_mmap` succeeds in moving the window. -/
structure Moves (mip : MmapInfo) (calls : Calls) : Prop where
  ftruncate : calls.ftruncate
  mmap : calls.mmap
  mlock : calls.mlock
  span : mip.fsSize % S.pagesize < S.span
  fileLen_lt : mip.fsMaxSize + (S.span - mip.fsSize % S.pagesize) < 2 ^ 63

/-- A message on a connection of so many CPUs that the server can handle:

* a new device comes with a number of CPUs that is not negative, not less than the server's own
  `ndevs`, and the allocations and the opening of its files succeed;
* the last close comes on a connection that has no more CPUs than any device;
* data comes for a CPU of the device, and fits into a window that is moved for it. -/
structure Fits (h : Host ν) (ncpus : ℤ) (m : Msg ν) : Prop where
  add : (∀ dpp ∈ h.devpaths, dpp.butsName ≠ m.hdr.butsName) →
    0 ≤ ncpus ∧ (ndevs : ℤ) ≤ ncpus ∧ (0 < ncpus → m.env.stats ∧ m.env.ios) ∧
      ∀ cpu < ncpus.toNat, m.env.opens cpu
  close : m.hdr.len = 1 → h.clOpens = 1 → ∀ dpp ∈ h.devpaths, ncpus ≤ dpp.ncpus
  data : m.hdr.len ≠ 0 → m.hdr.len ≠ 1 →
    m.hdr.cpu.toNat < (h.target ncpus m).ncpus ∧
      (((h.target ncpus m).ios m.hdr.cpu.toNat).full m.hdr.len.toNat →
        Moves S ((h.target ncpus m).ios m.hdr.cpu.toNat) m.env.calls →
        2 * (((h.target ncpus m).ios m.hdr.cpu.toNat).fsSize % S.pagesize) + m.hdr.len.toNat ≤ S.span)

/-- The message of a step fits, where there is a server to take it. -/
def Tolerable (h : Host ν) : Act ν → Prop
  | .connect _ => True
  | .message m =>
    h.halted = false → ∀ ncpus, h.conns m.conn = some ncpus →
      Fits S ndevs h (Host.ncpusOf ncpus m.hdr).toInt m

/-! ## What a step records -/

@[simp] theorem inRange_ios (count entries : ℕ) :
    (Access.ios count entries).inRange = true ↔ count ≤ entries := decide_eq_true_iff

@[simp] theorem inRange_stats (count entries : ℕ) :
    (Access.stats count entries).inRange = true ↔ count ≤ entries := decide_eq_true_iff

@[simp] theorem inRange_devpath (found : Bool) :
    (Access.devpath found).inRange = true ↔ found = true := Iff.rfl

/-- The devpaths have different names, and their windows slide. -/
structure Kept (h : Host ν) : Prop where
  names : (h.devpaths.map Devpath.butsName).Nodup
  slid : ∀ dpp ∈ h.devpaths, ∀ cpu, Slid S (dpp.ios cpu)

/-- On from `h`, all that is recorded is in range if and only if `ok`. -/
structure Records (h r : Host ν) (ok : Prop) : Prop where
  log : h.log <+: r.log
  inRange : (∀ a ∈ r.log, a.inRange) ↔ (∀ a ∈ h.log, a.inRange) ∧ ok
  kept : Kept S r

variable {S ndevs}

omit [DecidableEq ν] in
theorem Records.same {h r : Host ν} (hlog : r.log = h.log) (hr : Kept S r) : Records S h r True where
  log := by rw [hlog]
  inRange := by rw [hlog, and_true]
  kept := hr

omit [DecidableEq ν] in
theorem Records.congr {h r : Host ν} {ok ok' : Prop} (hr : Records S h r ok) (hok : ok ↔ ok') :
    Records S h r ok' :=
  ⟨hr.log, hr.inRange.trans (and_congr_right' hok), hr.kept⟩

omit [DecidableEq ν] in
theorem Records.of_log_eq {h h' r : Host ν} {ok : Prop} (hr : Records S h' r ok)
    (hlog : h'.log = h.log) : Records S h r ok :=
  ⟨hlog ▸ hr.log, hlog ▸ hr.inRange, hr.kept⟩

omit [DecidableEq ν] in
theorem Kept.congr {h r : Host ν} (hs : Kept S h) (hdevpaths : r.devpaths = h.devpaths) : Kept S r where
  names := by
    rw [hdevpaths]
    exact hs.names
  slid := by
    rw [hdevpaths]
    exact hs.slid

omit [DecidableEq ν] in
/-- The rule of `access`. -/
theorem Records.access {h : Host ν} (hs : Kept S h) (ok : Prop) {as : List Access}
    {rest : Host ν → Host ν}
    (hrest : (∀ a ∈ as, a.inRange) → ∀ h' : Host ν, h' = { h with log := h.log ++ as } →
      Records S h' (rest h') ok) :
    Records S h (h.access as rest) ((∀ a ∈ as, a.inRange) ∧ ok) := by
  have happend : ∀ {l : List Access}, (∀ a ∈ h.log ++ l, a.inRange = true) ↔
      (∀ a ∈ h.log, a.inRange = true) ∧ ∀ a ∈ l, a.inRange = true := List.forall_mem_append
  unfold Host.access
  dsimp only
  split_ifs with hall
  · have hin : ∀ a ∈ as, a.inRange = true := List.all_eq_true.mp hall
    obtain ⟨hlog, hrange, hkept⟩ := hrest hin _ rfl
    refine ⟨(List.prefix_append _ _).trans hlog, ?_, hkept⟩
    rw [hrange, happend, and_assoc]
  · refine ⟨List.prefix_append _ _, ?_, hs.congr rfl⟩
    have hnot : ¬ ∀ a ∈ as, a.inRange = true := fun h => hall (List.all_eq_true.mpr h)
    show (∀ a ∈ h.log ++ as, a.inRange = true) ↔ _
    rw [happend]
    tauto

/-! ## The window -/

section

variable {mip : MmapInfo} {maxlen : ℕ} {calls : Calls}

/-- The next window, where `setup_mmap` succeeds. -/
theorem Moves.next (hm : Moves S mip calls) :
    (mip.next S).fsBufLen = S.span - mip.fsSize % S.pagesize ∧
      (mip.next S).fsMaxSize = mip.fsMaxSize + (S.span - mip.fsSize % S.pagesize) :=
  ⟨next_fsBufLen hm.span.le, next_fsMaxSize hm.span.le (lt_trans hm.fileLen_lt (by decide))⟩

theorem setup_full (hm : Moves S mip calls) (hfull : mip.full maxlen) :
    mip.setup S maxlen calls = ({ mip.next S with
      fileLen := (mip.next S).fsMaxSize
      fsBuf := .mapped (mip.fsSize - (mip.next S).fsOff) (mip.next S).fsBufLen }, 0) := by
  obtain ⟨hlen, hmax⟩ := hm.next
  have hspan := hm.span
  have hfile := hm.fileLen_lt
  unfold MmapInfo.setup
  dsimp only
  rw [if_pos hfull, if_pos ⟨hm.ftruncate, by omega⟩, if_pos ⟨hm.mmap, by omega, by omega⟩,
    if_pos hm.mlock]
  rfl

/-- What `setup_mmap` returns. -/
theorem setup_ret (hs : Slid S mip) (maxlen : ℕ) (calls : Calls) :
    (mip.setup S maxlen calls).2 = 0 ↔ (mip.full maxlen → Moves S mip calls) := by
  constructor
  · intro hret hfull
    unfold MmapInfo.setup at hret
    dsimp only at hret
    rw [if_pos hfull] at hret
    split_ifs at hret with hftruncate hmmap hmlock <;> try simp at hret
    have hwrap : (mip.next S).fsBufLen = (S.span + 2 ^ 64 - mip.fsSize % S.pagesize) % 2 ^ 64 := by
      rw [← next_fsOff]
      rfl
    have hspan := S.span_lt
    have hmod := S.mod_pagesize_lt mip.fsSize
    have hmax := hs.fsMaxSize_lt
    have hlen := hmmap.2
    have hlt : mip.fsSize % S.pagesize < S.span := by omega
    have hbufLen := next_fsBufLen hlt.le
    have hmaxSize := next_fsMaxSize hlt.le (by omega)
    exact ⟨hftruncate.1, hmmap.1, hmlock, hlt, hmaxSize ▸ hftruncate.2⟩
  · intro hmoves
    by_cases hfull : mip.full maxlen
    · rw [setup_full (hmoves hfull) hfull]
    · unfold MmapInfo.setup
      rw [if_neg hfull]

/-- Where it succeeds, the bytes of the message fit if there is room for them. -/
theorem setup_inRange (hs : Slid S mip) (hpos : 0 < maxlen) (hle : maxlen ≤ 2 ^ 32) (calls : Calls)
    (hret : (mip.setup S maxlen calls).2 = 0) :
    (Access.window (mip.setup S maxlen calls).1 maxlen).inRange ↔
      (mip.full maxlen → 2 * (mip.fsSize % S.pagesize) + maxlen ≤ S.span) := by
  by_cases hfull : mip.full maxlen
  · have hm := (setup_ret hs maxlen calls).mp hret hfull
    have hspan := hm.span
    rw [setup_full hm hfull]
    simp only [Access.inRange, decide_eq_true_eq, hm.next.1, next_fsOff, hfull, true_implies]
    omega
  · have hroom := hs.room hle hfull
    obtain ⟨offset, hbuf, -⟩ := hs.mapped (by omega)
    unfold MmapInfo.setup
    rw [if_neg hfull]
    simp only [Access.inRange, hbuf, hfull, false_implies, decide_eq_true_eq, iff_true]
    exact hroom

/-- And the window that comes of it slides on. -/
theorem setup_slid (hs : Slid S mip) (hpos : 0 < maxlen) (hle : maxlen ≤ 2 ^ 32) (calls : Calls)
    (hret : (mip.setup S maxlen calls).2 = 0)
    (hroom : mip.full maxlen → 2 * (mip.fsSize % S.pagesize) + maxlen ≤ S.span) :
    Slid S (mip.setup S maxlen calls).1 ∧
      (mip.setup S maxlen calls).1.fsOff + maxlen ≤ (mip.setup S maxlen calls).1.fsBufLen := by
  refine hs.setup hpos hle fun hfull => ?_
  have hm := (setup_ret hs maxlen calls).mp hret hfull
  exact ⟨hm.ftruncate, hm.mmap, hroom hfull, hm.fileLen_lt⟩

end

/-! ## A message -/

theorem Kept.setDpp {h : Host ν} (hs : Kept S h) (dpp : Devpath ν)
    (hslid : ∀ cpu, Slid S (dpp.ios cpu)) : Kept S (h.setDpp dpp) where
  names := by
    have hnames : (h.setDpp dpp).devpaths.map Devpath.butsName = h.devpaths.map Devpath.butsName := by
      simp only [Host.setDpp, List.map_map]
      apply List.map_congr_left
      intro d _
      by_cases hd : d.butsName = dpp.butsName <;> simp [hd]
    rw [hnames]
    exact hs.names
  slid := by
    intro d hd
    obtain ⟨d', hd', rfl⟩ := List.mem_map.mp hd
    split_ifs
    · exact hslid
    · exact hs.slid d' hd'

/-- `net_client_read_data`. -/
theorem readData_records {h : Host ν} (hs : Kept S h) {dpp : Devpath ν}
    (hslid : ∀ cpu, Slid S (dpp.ios cpu)) {m : Msg ν} (hlen : m.hdr.len ≠ 0) :
    Records S h (h.readData S dpp m)
      (m.hdr.cpu.toNat < dpp.ncpus ∧ ((dpp.ios m.hdr.cpu.toNat).full m.hdr.len.toNat →
        Moves S (dpp.ios m.hdr.cpu.toNat) m.env.calls →
        2 * ((dpp.ios m.hdr.cpu.toNat).fsSize % S.pagesize) + m.hdr.len.toNat ≤ S.span)) := by
  have hpos : 0 < m.hdr.len.toNat := by
    rw [Nat.pos_iff_ne_zero]
    exact fun h => hlen (UInt32.toNat_inj.mp h)
  have hle : m.hdr.len.toNat ≤ 2 ^ 32 := m.hdr.len.toNat_lt.le
  have hmip := hslid m.hdr.cpu.toNat
  unfold Host.readData
  refine Records.congr (Records.access hs _ fun hcpu h' hh' => ?_) (and_congr_left' ?_)
  · have hs' : Kept S h' := hh' ▸ hs.congr rfl
    have hlt : m.hdr.cpu.toNat + 1 ≤ dpp.ncpus := by
      simpa using hcpu
    have hmoves := setup_ret hmip m.hdr.len.toNat m.env.calls
    have hin := setup_inRange hmip hpos hle m.env.calls
    have hnext := setup_slid hmip hpos hle m.env.calls
    generalize (dpp.ios m.hdr.cpu.toNat).setup S m.hdr.len.toNat m.env.calls = result at *
    obtain ⟨mip, ret⟩ := result
    dsimp only at hmoves hin hnext ⊢
    by_cases hret : ret = 0
    · rw [if_neg (not_not.mpr hret)]
      refine Records.congr (Records.access hs' True fun hwindow h'' hh'' => ?_) ?_
      · have hs'' : Kept S h'' := hh'' ▸ hs'.congr rfl
        have hroom := (hin hret).mp (hwindow _ (List.mem_singleton_self _))
        obtain ⟨hslid', hfits⟩ := hnext hret hroom
        have hios : ∀ mip', Slid S mip' →
            ∀ cpu, Slid S (Function.update dpp.ios m.hdr.cpu.toNat mip' cpu) := by
          intro mip' hmip' cpu
          by_cases hcpu' : cpu = m.hdr.cpu.toNat
          · rw [hcpu', Function.update_self]
            exact hmip'
          · rw [Function.update_of_ne hcpu']
            exact hslid cpu
        split_ifs
        · exact .same rfl (hs''.congr rfl)
        · exact .same rfl (hs''.setDpp _ (hios mip hslid'))
        · refine Records.congr (Records.access hs'' True fun _ h₃ hh₃ => ?_) ?_
          · have hs₃ : Kept S h₃ := hh₃ ▸ hs''.congr rfl
            have hread := hslid'.read hpos hfits
              (show (m.data.take m.hdr.len.toNat).length ≤ m.hdr.len.toNat from
                List.length_take_le _ _)
            exact .same rfl ((hs₃.setDpp _ (hios _ hread)).congr rfl)
          · simpa using hlt
      · rw [and_true, List.forall_mem_singleton, hin hret]
        have hmove := hmoves.mp hret
        exact ⟨fun h hfull _ => h hfull, fun h hfull => h hfull (hmove hfull)⟩
    · rw [if_pos hret]
      refine Records.congr (.same rfl (hs'.congr rfl)) ?_
      rw [true_iff]
      intro hfull hm
      exact absurd (hmoves.mpr fun _ => hm) hret
  · rw [List.forall_mem_singleton, inRange_ios, Nat.succ_le_iff]

/-- What `nc_find_dpp` has found, or added. -/
structure Found (S : Settings) (h : Host ν) (ncpus : ℤ) (m : Msg ν) (h' : Host ν)
    (dpp : Devpath ν) : Prop where
  kept : Kept S h'
  clOpens : h'.clOpens = h.clOpens
  target : dpp = h.target ncpus m
  mem : dpp ∈ h'.devpaths
  of_mem : ∀ d ∈ h'.devpaths, d ∈ h.devpaths ∨ d.ncpus = ncpus.toNat
  mono : ∀ d ∈ h.devpaths, d ∈ h'.devpaths

theorem Found.of_find {h : Host ν} (hs : Kept S h) (ncpus : ℤ) {m : Msg ν} {dpp : Devpath ν}
    (hfind : h.devpaths.find? (fun dpp => dpp.butsName = m.hdr.butsName) = some dpp) :
    Found S h ncpus m h dpp ∧ dpp.butsName = m.hdr.butsName := by
  refine ⟨⟨hs, rfl, ?_, List.mem_of_find?_eq_some hfind, fun d hd => .inl hd, fun d hd => hd⟩, ?_⟩
  · rw [Host.target, hfind, Option.getD_some]
  · simpa using List.find?_some hfind

/-- The files are opened up to the first that cannot be. -/
theorem not_opens_of_find {opens : ℕ → Bool} {n cpu : ℕ}
    (h : (List.range n).find? (fun cpu => !opens cpu) = some cpu) : ¬ ∀ cpu < n, opens cpu = true := by
  intro hall
  have hopen := hall cpu (List.mem_range.mp (List.mem_of_find?_eq_some h))
  have hfails : opens cpu = false := by simpa using List.find?_some h
  exact Bool.false_ne_true (hfails.symm.trans hopen)

theorem opens_of_find {opens : ℕ → Bool} {n : ℕ}
    (h : (List.range n).find? (fun cpu => !opens cpu) = none) : ∀ cpu < n, opens cpu = true := by
  intro cpu hcpu
  simpa using List.find?_eq_none.mp h cpu (List.mem_range.mpr hcpu)

omit [DecidableEq ν] in
theorem Kept.addDpp {h : Host ν} (hs : Kept S h) {dpp : Devpath ν}
    (hnew : ∀ d ∈ h.devpaths, d.butsName ≠ dpp.butsName) (hslid : ∀ cpu, Slid S (dpp.ios cpu))
    {h' : Host ν} (hdevpaths : h'.devpaths = h.devpaths ++ [dpp]) : Kept S h' where
  names := by
    rw [hdevpaths, List.map_append, List.nodup_append]
    refine ⟨hs.names, List.nodup_singleton _, fun a ha b hb => ?_⟩
    obtain ⟨d, hd, rfl⟩ := List.mem_map.mp ha
    rw [List.map_singleton, List.mem_singleton] at hb
    exact hb ▸ hnew d hd
  slid d hd := by
    rw [hdevpaths, List.mem_append, List.mem_singleton] at hd
    rcases hd with hd | rfl
    · exact hs.slid d hd
    · exact hslid

/-- The allocations are as large as what is done with them, for a count that is an `int`. -/
theorem alloc_iff (ndevs : ℕ) {ncpus : ℤ} (hlo : -2 ^ 31 ≤ ncpus) (hhi : ncpus < 2 ^ 31) (stats ios : Bool) :
    ((ncpus % 2 ^ 64).toNat ≤ (if stats ∧ 0 ≤ ncpus then ncpus.toNat else 0) ∧
        ndevs ≤ (if ios ∧ 0 ≤ ncpus then ncpus.toNat else 0)) ∧
        ncpus.toNat ≤ (if ios ∧ 0 ≤ ncpus then ncpus.toNat else 0) ↔
      0 ≤ ncpus ∧ (ndevs : ℤ) ≤ ncpus ∧ (0 < ncpus → stats ∧ ios) := by
  by_cases hneg : 0 ≤ ncpus
  · cases stats <;> cases ios <;> simp [hneg] <;> omega
  · simp only [hneg, and_false, if_false, false_and, iff_false]
    omega

/-- `nc_find_dpp`. -/
theorem findDpp_records {h : Host ν} (hs : Kept S h) {ncpus : ℤ} (hlo : -2 ^ 31 ≤ ncpus)
    (hhi : ncpus < 2 ^ 31) {m : Msg ν} {rest : Host ν → Option (Devpath ν) → Host ν} (ok : Prop)
    (hsome : ∀ h' dpp, Found S h ncpus m h' dpp → Records S h' (rest h' (some dpp)) ok)
    (hnone : ∀ h', Kept S h' → Records S h' (rest h' none) False) :
    Records S h (h.findDpp ndevs ncpus m rest)
      (((∀ dpp ∈ h.devpaths, dpp.butsName ≠ m.hdr.butsName) →
        0 ≤ ncpus ∧ (ndevs : ℤ) ≤ ncpus ∧ (0 < ncpus → m.env.stats ∧ m.env.ios) ∧
          ∀ cpu < ncpus.toNat, m.env.opens cpu) ∧ ok) := by
  unfold Host.findDpp
  cases hfind : h.devpaths.find? fun dpp => dpp.butsName = m.hdr.butsName with
  | some dpp =>
    obtain ⟨hfound, hname⟩ := Found.of_find hs ncpus hfind
    refine Records.congr (hsome h dpp hfound) ?_
    exact (and_iff_right fun hnew => absurd hname (hnew dpp hfound.mem)).symm
  | none =>
    have hnew : ∀ dpp ∈ h.devpaths, dpp.butsName ≠ m.hdr.butsName := by
      intro dpp hdpp
      simpa using List.find?_eq_none.mp hfind dpp hdpp
    dsimp only
    unfold Host.addDpp
    dsimp only
    have halloc := alloc_iff ndevs hlo hhi m.env.stats m.env.ios
    generalize (if m.env.stats = true ∧ 0 ≤ ncpus then ncpus.toNat else 0) = stats at *
    generalize (if m.env.ios = true ∧ 0 ≤ ncpus then ncpus.toNat else 0) = ios at *
    cases hopens : (List.range ncpus.toNat).find? fun cpu => !m.env.opens cpu with
    | some cpu =>
      refine Records.congr (Records.access hs _ fun _ h' hh' =>
        Records.access (hh' ▸ hs.congr rfl) False fun _ h'' hh'' =>
          hnone h'' (hh'' ▸ hh' ▸ hs.congr rfl)) ?_
      simp only [and_false, false_iff, not_and]
      intro hadd
      exact absurd (hadd hnew).2.2.2 (not_opens_of_find hopens)
    | none =>
      have hall := opens_of_find hopens
      refine Records.congr (Records.access hs _ fun _ h' hh' =>
        Records.access (hh' ▸ hs.congr rfl) ok fun _ h'' hh'' => ?_) ?_
      · have hdevpaths : h''.devpaths = h.devpaths := by rw [hh'', hh']
        have hkept : Kept S h'' := hs.congr hdevpaths
        refine (hsome _ _ ?_).of_log_eq rfl
        refine ⟨?_, by rw [hh'', hh'], ?_, by simp, ?_, ?_⟩
        · exact hkept.addDpp (hdevpaths.symm ▸ hnew) (fun _ => slid_init) rfl
        · rw [Host.target, hfind, Option.getD_none]
        · intro d hd
          rw [hdevpaths, List.mem_append, List.mem_singleton] at hd
          exact hd.imp_right fun h => by rw [h]
        · intro d hd
          exact List.mem_append_left _ (hdevpaths.symm ▸ hd)
      · simp only [List.forall_mem_cons, List.not_mem_nil, false_implies, implies_true, and_true,
          inRange_ios, inRange_stats]
        rw [← and_assoc, halloc]
        constructor
        · rintro ⟨⟨hneg, hndevs, halloc'⟩, hok⟩
          exact ⟨fun _ => ⟨hneg, hndevs, halloc', hall⟩, hok⟩
        · rintro ⟨hadd, hok⟩
          obtain ⟨hneg, hndevs, halloc', -⟩ := hadd hnew
          exact ⟨⟨hneg, hndevs, halloc'⟩, hok⟩

omit [DecidableEq ν] in
/-- `show_stats` and `net_ch_remove`. -/
theorem chRemove_records {h : Host ν} (hs : Kept S h) (ncpus : ℤ) :
    Records S h (h.chRemove ncpus) (∀ dpp ∈ h.devpaths, ncpus ≤ dpp.ncpus) := by
  unfold Host.chRemove
  refine Records.congr (Records.access hs True fun _ h' _ => .same rfl ⟨List.nodup_nil, ?_⟩) ?_
  · intro dpp hdpp
    cases hdpp
  · rw [and_true, List.forall_mem_flatMap]
    simp

/-- A close changes no device but for its drops. -/
theorem forall_setDpp {h : Host ν} (hs : Kept S h) {dpp : Devpath ν} (hmem : dpp ∈ h.devpaths)
    (drops : UInt32) (n : ℤ) :
    (∀ d ∈ (h.setDpp { dpp with drops := drops }).devpaths, n ≤ d.ncpus) ↔
      ∀ d ∈ h.devpaths, n ≤ d.ncpus := by
  rw [Host.setDpp, List.forall_mem_map]
  refine forall₂_congr fun d hd => ?_
  split_ifs with hname
  · rw [List.inj_on_of_nodup_map hs.names hd hmem hname]
  · rfl

/-- What is in range for the last close. -/
theorem Found.forall_le {h h' : Host ν} {n : ℤ} {m : Msg ν} {dpp : Devpath ν}
    (hfound : Found S h n m h' dpp) :
    (∀ d ∈ h'.devpaths, n ≤ d.ncpus) ↔ ∀ d ∈ h.devpaths, n ≤ d.ncpus := by
  constructor
  · exact fun hall d hd => hall d (hfound.mono d hd)
  · intro hall d hd
    rcases hfound.of_mem d hd with hold | hnew
    · exact hall d hold
    · rw [hnew]
      exact Int.self_le_toNat n

/-- **One message.** -/
theorem netClientData_records {h : Host ν} (hs : Kept S h) (ncpus : Int32) (m : Msg ν) :
    Records S h (h.netClientData S ndevs ncpus m)
      (Fits S ndevs h (Host.ncpusOf ncpus m.hdr).toInt m) := by
  unfold Host.netClientData
  dsimp only
  generalize Host.ncpusOf ncpus m.hdr = n
  generalize hh : { h with conns := Function.update h.conns m.conn (some n) } = h₀
  have hs₀ : Kept S h₀ := hh ▸ hs.congr rfl
  have hdevpaths : h₀.devpaths = h.devpaths := by rw [← hh]
  have hclOpens : h₀.clOpens = h.clOpens := by rw [← hh]
  have htarget : h₀.target n.toInt m = h.target n.toInt m := by rw [← hh]; rfl
  refine Records.of_log_eq (Records.congr (findDpp_records hs₀ n.le_toInt n.toInt_lt
    ((m.hdr.len = 1 → h.clOpens = 1 → ∀ dpp ∈ h.devpaths, n.toInt ≤ dpp.ncpus) ∧
    (m.hdr.len ≠ 0 → m.hdr.len ≠ 1 → m.hdr.cpu.toNat < (h.target n.toInt m).ncpus ∧
      (((h.target n.toInt m).ios m.hdr.cpu.toNat).full m.hdr.len.toNat →
        Moves S ((h.target n.toInt m).ios m.hdr.cpu.toNat) m.env.calls →
        2 * (((h.target n.toInt m).ios m.hdr.cpu.toNat).fsSize % S.pagesize) + m.hdr.len.toNat ≤
          S.span))) ?_ ?_) ?_) (by rw [← hh])
  · intro h' dpp hfound
    refine Records.congr (Records.access hfound.kept _ fun _ h'' hh'' => ?_) (and_iff_right ?_)
    · have hs'' : Kept S h'' := hh'' ▸ hfound.kept.congr rfl
      have hmem'' : dpp ∈ h''.devpaths := hh'' ▸ hfound.mem
      dsimp only
      by_cases hzero : m.hdr.len = 0
      · rw [if_pos hzero]
        refine Records.congr (.same rfl (hs''.congr rfl)) ?_
        simp [hzero]
      rw [if_neg hzero]
      by_cases hone : m.hdr.len = 1
      · rw [if_pos hone]
        have hset : Kept S { h''.setDpp { dpp with drops := m.hdr.cpu } with
            clOpens := h''.clOpens - 1 } :=
          (hs''.setDpp { dpp with drops := m.hdr.cpu } (hs''.slid dpp hmem'')).congr rfl
        have hsub : h''.clOpens - 1 = 0 ↔ h.clOpens = 1 := by
          rw [hh'', ← hclOpens, ← hfound.clOpens]
          exact Int.sub_eq_zero
        have hdevs : h''.devpaths = h'.devpaths := by rw [hh'']
        split_ifs with hlast
        · refine Records.congr ((chRemove_records hset n.toInt).of_log_eq rfl) ?_
          change (∀ d ∈ (h''.setDpp { dpp with drops := m.hdr.cpu }).devpaths, n.toInt ≤ d.ncpus) ↔ _
          rw [forall_setDpp hs'' hmem'', hdevs, hfound.forall_le, hdevpaths]
          simp [hone, hsub.mp hlast]
        · refine Records.congr (.same rfl hset) ?_
          have hnot : h.clOpens ≠ 1 := fun h => hlast (hsub.mpr h)
          simp [hone, hnot]
      · rw [if_neg hone]
        have hslid : ∀ cpu, Slid S (dpp.ios cpu) := hs''.slid dpp hmem''
        have hrecords := readData_records hs'' hslid hzero
        rw [hfound.target, htarget] at hrecords ⊢
        refine Records.congr hrecords ?_
        simp [hzero, hone]
    · simp
  · intro h' hh'
    refine Records.congr (Records.access hh' True fun _ h'' hh'' => .same rfl (hh'' ▸ hh'.congr rfl)) ?_
    simp
  · rw [hdevpaths]
    exact ⟨fun ⟨hadd, hclose, hdata⟩ => ⟨hadd, hclose, hdata⟩, fun ⟨hadd, hclose, hdata⟩ =>
      ⟨hadd, hclose, hdata⟩⟩

/-! ## Runs -/

/-- A step that has no server to take it changes nothing. -/
theorem step_halted {h : Host ν} (hhalted : h.halted = true) (a : Act ν) :
    h.step S ndevs a = none := by
  cases a <;> simp [Host.step, hhalted]

/-- **One step.** -/
theorem step_records {h : Host ν} (hs : Kept S h) (a : Act ν) :
    Records S h ((h.step S ndevs a).getD h) (Tolerable S ndevs h a) := by
  have hstays : ∀ {ok : Prop}, ok → Records S h h ok := by
    intro ok hok
    exact Records.congr (.same rfl hs) ⟨fun _ => hok, fun _ => trivial⟩
  cases hhalted : h.halted with
  | true =>
    rw [step_halted hhalted, Option.getD_none]
    cases a <;> exact hstays (by simp [Tolerable, hhalted])
  | false =>
    cases a with
    | connect conn =>
      simp only [Host.step, Tolerable]
      split_ifs
      · exact hstays trivial
      · exact .same rfl (hs.congr rfl)
    | message m =>
      simp only [Host.step, Tolerable, hhalted, Bool.false_eq_true, if_false, true_implies]
      cases hconn : h.conns m.conn with
      | none => exact hstays (by simp)
      | some ncpus =>
        refine Records.congr (netClientData_records hs ncpus m) ?_
        simp

/-- **A run is in range** if and only if all of its messages fit. -/
theorem log_inRange_iff (S : Settings) (ndevs : ℕ) (acts : List (Act ν)) :
    (∀ a ∈ (Runs.run (Host.step S ndevs) ({} : Host ν) acts).log, a.inRange) ↔
      Runs.Along (Host.step S ndevs) (Tolerable S ndevs) {} acts := by
  have hgeneral : ∀ h : Host ν, Kept S h → ((∀ a ∈ (Runs.run (Host.step S ndevs) h acts).log, a.inRange) ↔
      (∀ a ∈ h.log, a.inRange) ∧ Runs.Along (Host.step S ndevs) (Tolerable S ndevs) h acts) := by
    induction acts with
    | nil => exact fun h _ => ⟨fun hall => ⟨hall, .nil h⟩, And.left⟩
    | cons a acts ih =>
      intro h hs
      have hstep := @step_records ν _ S ndevs h hs a
      rw [Runs.run_cons, Runs.along_cons, ih _ hstep.kept, hstep.inRange, and_assoc]
  rw [hgeneral {} ⟨List.nodup_nil, nofun⟩]
  simp

/-! ## Hostile clients -/

/-- The defaults: `BUF_SIZE` and `BUF_NR`, on pages of 4 KiB. -/
def defaults : Settings where
  kb := 512
  bufNr := 4
  pageShift := 12
  kb_pos := by decide
  kb_le := by decide
  bufNr_pos := Nat.succ_pos 3
  bufNr_lt := Nat.le_of_ble_eq_true rfl
  pageShift_lt := Nat.le_of_ble_eq_true rfl

/-- An open from a client of so many CPUs. -/
def hello (conn : ℕ) (maxCpus : UInt32) (env : Env) : List (Act String) :=
  [.connect conn, .message { conn, hdr := { butsName := "sda", cpu := 0, maxCpus, len := 0 }, env }]

/-- A message of a client that has opened its device. -/
def send (conn : ℕ) (cpu len : UInt32) : Act String :=
  .message { conn, hdr := { butsName := "sda", cpu, maxCpus := 1, len } }

/-- A CPU that the client does not have; a block longer than any window of the server; more CPUs than
an `int` counts; a device whose file cannot be opened; a close by a client of more CPUs than the
device was opened with. -/
def hostile : List (List (Act String)) :=
  [hello 0 4 {} ++ [send 0 4 2], hello 0 1 {} ++ [send 0 0 16777216], hello 0 4294967294 {},
    hello 0 1 { opens := fun _ => false },
    hello 0 1 {} ++ hello 1 2 {} ++ [send 1 0 1, send 1 0 1]]

theorem not_inRange_hostile : hostile.Forall fun acts =>
    ¬ ∀ a ∈ (Runs.run (Host.step defaults 0) {} acts).log, a.inRange := by
  have hany : hostile.all (fun acts =>
      (Runs.run (Host.step defaults 0) {} acts).log.any fun a => !a.inRange) := by decide
  rw [List.forall_iff_forall_mem]
  intro acts hacts hall
  obtain ⟨a, ha, hnot⟩ := List.any_eq_true.mp (List.all_eq_true.mp hany acts hacts)
  rw [hall a ha] at hnot
  cases hnot

end Blktrace.Server
