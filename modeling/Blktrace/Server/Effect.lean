import Blktrace.Server.Host

/-!
# What a message does

Where the server gets to the end of `net_client_data`, without leaving by `exit` and with all its
accesses in range, the message has opened the files of a device that is new, stored its data, and
counted itself in `cl_opens`; the close that brings `cl_opens` to zero has removed the host.
-/

namespace Blktrace.Server

open Tracer

variable {ν : Type*} [DecidableEq ν]

namespace Msg

def isOpen (m : Msg ν) : Bool := m.hdr.len = 0

def isClose (m : Msg ν) : Bool := m.hdr.len = 1

def isData (m : Msg ν) : Bool := !m.isOpen && !m.isClose

/-- What the message adds to `cl_opens`. -/
def opens (m : Msg ν) : ℤ := if m.isOpen then 1 else if m.isClose then -1 else 0

/-- What it adds to a file. -/
def blockOf (m : Msg ν) (k : ν × ℕ) : List UInt8 :=
  if m.isData ∧ (m.hdr.butsName, m.hdr.cpu.toNat) = k then m.data.take m.hdr.len.toNat else []

end Msg

namespace Host

def IsNew (h : Host ν) (m : Msg ν) : Prop := ∀ dpp ∈ h.devpaths, dpp.butsName ≠ m.hdr.butsName

instance (h : Host ν) (m : Msg ν) : Decidable (h.IsNew m) := inferInstanceAs (Decidable (∀ _ ∈ _, _))

/-- The devices of a host, with their CPUs. -/
def devs (h : Host ν) : List (ν × ℕ) := h.devpaths.map fun dpp => (dpp.butsName, dpp.ncpus)

/-- The device that a message adds. -/
def newDevs (h : Host ν) (ncpus : ℤ) (m : Msg ν) : List (ν × ℕ) :=
  if h.IsNew m then [(m.hdr.butsName, ncpus.toNat)] else []

/-- And the files that are opened for it. -/
def newKeys (h : Host ν) (ncpus : ℤ) (m : Msg ν) : List (ν × ℕ) :=
  if h.IsNew m then (List.range ncpus.toNat).map fun cpu => (m.hdr.butsName, cpu) else []

/-- `cl_opens` comes to zero. -/
def IsLast (h : Host ν) (m : Msg ν) : Prop := m.isClose ∧ h.clOpens = 1

/-- `r` is the host after a message. -/
structure Handled (h : Host ν) (ncpus : Int32) (m : Msg ν) (r : Host ν) : Prop where
  opened : r.opened = h.opened ++ h.newKeys ncpus.toInt m
  files : ∀ k, r.files k = (if k ∈ h.newKeys ncpus.toInt m then [] else h.files k) ++ m.blockOf k
  last : h.IsLast m →
    r.devs = [] ∧ r.conns = (fun _ => none) ∧ r.clOpens = 0 ∧ r.removed = h.removed + 1
  other : ¬ h.IsLast m →
    r.devs = h.devs ++ h.newDevs ncpus.toInt m ∧
      r.conns = Function.update h.conns m.conn (some ncpus) ∧
      r.clOpens = h.clOpens + m.opens ∧ r.removed = h.removed
  cpu : m.isData → ∃ n, (m.hdr.butsName, n) ∈ h.devs ++ h.newDevs ncpus.toInt m ∧ m.hdr.cpu.toNat < n

/-! ## No exit -/

omit [DecidableEq ν] in
/-- Behind an access that did not stop it the server is where the rest leads to. -/
theorem access_eq {h : Host ν} {as : List Access} {rest : Host ν → Host ν}
    (hh : (h.access as rest).halted = false) :
    (∀ a ∈ as, a.inRange) ∧ h.access as rest = rest { h with log := h.log ++ as } := by
  unfold access at hh ⊢
  dsimp only at hh ⊢
  split_ifs at hh ⊢ with hall
  · exact ⟨List.all_eq_true.mp hall, rfl⟩
  · cases hh

/-- What the server has behind `nc_find_dpp`. -/
structure Admitted (h : Host ν) (ncpus : ℤ) (m : Msg ν) (h' : Host ν) (dpp : Devpath ν) : Prop where
  devs : h'.devs = h.devs ++ h.newDevs ncpus m
  mem : dpp ∈ h'.devpaths
  name : dpp.butsName = m.hdr.butsName
  opened : h'.opened = h.opened ++ h.newKeys ncpus m
  files : h'.files = fun k => if k ∈ h.newKeys ncpus m then [] else h.files k
  conns : h'.conns = h.conns
  clOpens : h'.clOpens = h.clOpens
  removed : h'.removed = h.removed

theorem findDpp_eq {ndevs : ℕ} {h : Host ν} {ncpus : ℤ} {m : Msg ν}
    {rest : Host ν → Option (Devpath ν) → Host ν}
    (hnone : ∀ h', (rest h' none).halted = true)
    (hh : (h.findDpp ndevs ncpus m rest).halted = false) :
    ∃ h' dpp, Admitted h ncpus m h' dpp ∧ h.findDpp ndevs ncpus m rest = rest h' (some dpp) := by
  unfold findDpp at hh ⊢
  cases hfind : h.devpaths.find? fun dpp => dpp.butsName = m.hdr.butsName with
  | some dpp =>
    have hmem := List.mem_of_find?_eq_some hfind
    have hname : dpp.butsName = m.hdr.butsName := by simpa using List.find?_some hfind
    have hnew : ¬ h.IsNew m := fun hnew => hnew dpp hmem hname
    refine ⟨h, dpp, ⟨?_, hmem, hname, ?_, ?_, rfl, rfl, rfl⟩, rfl⟩
    · rw [newDevs, if_neg hnew, List.append_nil]
    · rw [newKeys, if_neg hnew, List.append_nil]
    · simp [newKeys, if_neg hnew]
  | none =>
    have hnew : h.IsNew m := by
      intro dpp hdpp
      simpa using List.find?_eq_none.mp hfind dpp hdpp
    rw [hfind] at hh
    dsimp only at hh ⊢
    unfold addDpp at hh ⊢
    dsimp only at hh ⊢
    obtain ⟨-, heq⟩ := access_eq hh
    rw [heq] at hh ⊢
    cases hopens : (List.range ncpus.toNat).find? fun cpu => !m.env.opens cpu with
    | some cpu =>
      rw [hopens] at hh
      dsimp only at hh
      obtain ⟨-, heq'⟩ := access_eq hh
      rw [heq', hnone] at hh
      cases hh
    | none =>
      rw [hopens] at hh
      obtain ⟨-, heq'⟩ := access_eq hh
      dsimp only at heq' ⊢
      rw [heq']
      refine ⟨_, _, ⟨?_, ?_, ?_, ?_, ?_, ?_, ?_, ?_⟩, rfl⟩
      · simp [devs, newDevs, if_pos hnew]
      · exact List.mem_append_right _ (List.mem_singleton_self _)
      · rfl
      · simp only [newKeys, if_pos hnew]
      · simp only [newKeys, if_pos hnew]
      all_goals rfl

theorem devs_setDpp {h : Host ν} {dpp dpp' : Devpath ν} (hdpp : dpp ∈ h.devpaths)
    (hnames : (h.devpaths.map Devpath.butsName).Nodup) (hname : dpp'.butsName = dpp.butsName)
    (hncpus : dpp'.ncpus = dpp.ncpus) : (h.setDpp dpp').devs = h.devs := by
  simp only [devs, setDpp, List.map_map]
  apply List.map_congr_left
  intro d hd
  by_cases hsame : d.butsName = dpp'.butsName
  · have heq := List.inj_on_of_nodup_map hnames hd hdpp (hsame.trans hname)
    simp [heq, hname, hncpus]
  · simp [hsame]

/-- `net_client_read_data`. -/
theorem readData_eq {S : Settings} {h : Host ν} {dpp : Devpath ν} {m : Msg ν}
    (hdpp : dpp ∈ h.devpaths) (hnames : (h.devpaths.map Devpath.butsName).Nodup)
    (hh : (h.readData S dpp m).halted = false) :
    m.hdr.cpu.toNat < dpp.ncpus ∧ (h.readData S dpp m).devs = h.devs ∧
      (h.readData S dpp m).files = Function.update h.files (dpp.butsName, m.hdr.cpu.toNat)
        (h.files (dpp.butsName, m.hdr.cpu.toNat) ++ m.data.take m.hdr.len.toNat) ∧
      (h.readData S dpp m).opened = h.opened ∧ (h.readData S dpp m).conns = h.conns ∧
      (h.readData S dpp m).clOpens = h.clOpens ∧ (h.readData S dpp m).removed = h.removed := by
  unfold readData at hh ⊢
  dsimp only at hh ⊢
  obtain ⟨hcpu, heq⟩ := access_eq hh
  rw [heq] at hh ⊢
  have hlt : m.hdr.cpu.toNat < dpp.ncpus := by
    have hin := hcpu _ (List.mem_singleton_self _)
    simpa [Access.inRange, Nat.succ_le_iff] using hin
  refine ⟨hlt, ?_⟩
  generalize (dpp.ios m.hdr.cpu.toNat).setup S m.hdr.len.toNat m.env.calls = result at *
  obtain ⟨mip, ret⟩ := result
  dsimp only at hh ⊢
  by_cases hret : ret = 0
  · rw [if_neg (not_not.mpr hret)] at hh ⊢
    obtain ⟨-, heq'⟩ := access_eq hh
    rw [heq'] at hh ⊢
    by_cases hlong : 2 ^ 31 ≤ (m.data.take m.hdr.len.toNat).length
    · rw [if_pos hlong] at hh
      cases hh
    rw [if_neg hlong] at hh ⊢
    by_cases hnil : m.data.take m.hdr.len.toNat = []
    · rw [if_pos hnil, hnil]
      refine ⟨devs_setDpp hdpp hnames rfl rfl, ?_, rfl, rfl, rfl, rfl⟩
      rw [List.append_nil, Function.update_eq_self]
      rfl
    · rw [if_neg hnil] at hh ⊢
      obtain ⟨-, heq''⟩ := access_eq hh
      rw [heq'']
      exact ⟨devs_setDpp hdpp hnames rfl rfl, rfl, rfl, rfl, rfl, rfl⟩
  · rw [if_pos hret] at hh
    cases hh

omit [DecidableEq ν] in
theorem map_fst_devs (h : Host ν) : h.devs.map Prod.fst = h.devpaths.map Devpath.butsName := by
  simp only [devs, List.map_map]
  rfl

/-- The devices have different names. -/
def Named (h : Host ν) : Prop := (h.devs.map Prod.fst).Nodup

theorem Named.add {h : Host ν} (hs : h.Named) (ncpus : ℤ) (m : Msg ν) :
    ((h.devs ++ h.newDevs ncpus m).map Prod.fst).Nodup := by
  unfold newDevs
  split_ifs with hnew
  · rw [List.map_append, List.nodup_append]
    refine ⟨hs, List.nodup_singleton _, fun a ha b hb => ?_⟩
    rw [map_fst_devs] at ha
    obtain ⟨dpp, hdpp, rfl⟩ := List.mem_map.mp ha
    rw [List.map_singleton, List.mem_singleton] at hb
    exact hb ▸ hnew dpp hdpp
  · rw [List.append_nil]
    exact hs

omit [DecidableEq ν] in
/-- `show_stats` and `net_ch_remove`. -/
theorem chRemove_eq {h : Host ν} {ncpus : ℤ} (hh : (h.chRemove ncpus).halted = false) :
    (h.chRemove ncpus).devs = [] ∧ (h.chRemove ncpus).conns = (fun _ => none) ∧
      (h.chRemove ncpus).clOpens = 0 ∧ (h.chRemove ncpus).removed = h.removed + 1 ∧
      (h.chRemove ncpus).opened = h.opened ∧ (h.chRemove ncpus).files = h.files := by
  unfold chRemove at hh ⊢
  obtain ⟨-, heq⟩ := access_eq hh
  rw [heq]
  exact ⟨rfl, rfl, rfl, rfl, rfl, rfl⟩

/-- What is done for a device that was found. -/
theorem handled_of_admitted (S : Settings) {h h' : Host ν} (hs : h.Named) {n : Int32} {m : Msg ν}
    {dpp : Devpath ν}
    (hfound : Admitted { h with conns := Function.update h.conns m.conn (some n) } n.toInt m h' dpp)
    {r : Host ν}
    (hr : r = if m.hdr.len = 0 then { h' with clOpens := h'.clOpens + 1 }
      else if m.hdr.len = 1 then
        let h := h'.setDpp { dpp with drops := m.hdr.cpu }
        let h := { h with clOpens := h.clOpens - 1 }
        if h.clOpens = 0 then h.chRemove n.toInt else h
      else h'.readData S dpp m)
    (hh : r.halted = false) : Handled h n m r := by
  obtain ⟨hdevs, hmem, hname, hopened, hfiles, hconns, hclOpens, hremoved⟩ := hfound
  change h'.devs = h.devs ++ h.newDevs n.toInt m at hdevs
  change h'.opened = h.opened ++ h.newKeys n.toInt m at hopened
  change h'.files = fun k => if k ∈ h.newKeys n.toInt m then [] else h.files k at hfiles
  change h'.clOpens = h.clOpens at hclOpens
  change h'.removed = h.removed at hremoved
  have hnames : (h'.devpaths.map Devpath.butsName).Nodup := by
    rw [← map_fst_devs, hdevs]
    exact hs.add _ m
  have hset : ∀ drops, (h'.setDpp { dpp with drops := drops }).devs = h'.devs := fun _ =>
    devs_setDpp hmem hnames rfl rfl
  by_cases hzero : m.hdr.len = 0
  · rw [if_pos hzero] at hr
    have hopen : m.isOpen = true := by simp [Msg.isOpen, hzero]
    have hclose : m.isClose = false := by simp [Msg.isClose, hzero]
    have hdata : m.isData = false := by simp [Msg.isData, hopen]
    have hlast : ¬ h.IsLast m := by simp [IsLast, hclose]
    subst hr
    refine ⟨hopened, fun k => ?_, fun h => absurd h hlast, fun _ => ⟨hdevs, hconns, ?_, hremoved⟩, ?_⟩
    · show h'.files k = _
      rw [hfiles]
      simp [Msg.blockOf, hdata]
    · show h'.clOpens + 1 = _
      rw [hclOpens, Msg.opens, if_pos hopen]
    · simp [hdata]
  rw [if_neg hzero] at hr
  have hopen : m.isOpen = false := by simp [Msg.isOpen, hzero]
  by_cases hone : m.hdr.len = 1
  · rw [if_pos hone] at hr
    have hclose : m.isClose = true := by simp [Msg.isClose, hone]
    have hdata : m.isData = false := by simp [Msg.isData, hclose]
    have hblock : ∀ k, h'.files k =
        (if k ∈ h.newKeys n.toInt m then [] else h.files k) ++ m.blockOf k := by
      intro k
      rw [hfiles]
      simp [Msg.blockOf, hdata]
    have hlastIff : h.IsLast m ↔ h'.clOpens - 1 = 0 := by
      rw [IsLast, hclOpens, hclose, Int.sub_eq_zero]
      simp
    dsimp only at hr
    by_cases hlast : h'.clOpens - 1 = 0
    · rw [if_pos (show (h'.setDpp _).clOpens - 1 = 0 from hlast)] at hr
      subst hr
      obtain ⟨hdevs', hconns', hclOpens', hremoved', hopened', hfiles'⟩ := chRemove_eq hh
      refine ⟨hopened'.trans hopened, fun k => ?_, fun _ => ⟨hdevs', hconns', hclOpens', ?_⟩,
        fun h => absurd (hlastIff.mpr hlast) h, by simp [hdata]⟩
      · rw [hfiles']
        exact hblock k
      · rw [hremoved']
        exact congrArg (· + 1) hremoved
    · rw [if_neg (show ¬ (h'.setDpp _).clOpens - 1 = 0 from hlast)] at hr
      subst hr
      refine ⟨hopened, hblock, fun h => absurd (hlastIff.mp h) hlast,
        fun _ => ⟨(hset _).trans hdevs, hconns, ?_, hremoved⟩, by simp [hdata]⟩
      show h'.clOpens - 1 = _
      rw [hclOpens, Msg.opens, hopen, hclose]
      rfl
  · rw [if_neg hone] at hr
    have hclose : m.isClose = false := by simp [Msg.isClose, hone]
    have hdata : m.isData = true := by simp [Msg.isData, hopen, hclose]
    have hlast : ¬ h.IsLast m := by simp [IsLast, hclose]
    subst hr
    obtain ⟨hcpu, hdevs', hfiles', hopened', hconns', hclOpens', hremoved'⟩ :=
      readData_eq hmem hnames hh
    refine ⟨hopened'.trans hopened, fun k => ?_, fun h => absurd h hlast,
      fun _ => ⟨hdevs'.trans hdevs, hconns'.trans hconns, ?_, hremoved'.trans hremoved⟩, fun _ => ?_⟩
    · rw [hfiles', hname]
      by_cases hk : (m.hdr.butsName, m.hdr.cpu.toNat) = k
      · subst hk
        rw [Function.update_self, hfiles]
        simp [Msg.blockOf, hdata]
      · rw [Function.update_of_ne (Ne.symm hk), hfiles]
        simp [Msg.blockOf, hk]
    · rw [hclOpens', hclOpens, Msg.opens, hopen, hclose]
      simp
    · refine ⟨dpp.ncpus, ?_, hcpu⟩
      rw [← hdevs, ← hname]
      exact List.mem_map_of_mem hmem

/-- **A message that the server gets to the end of.** -/
theorem netClientData_handled {S : Settings} {ndevs : ℕ} {h : Host ν} (hs : h.Named)
    {ncpus : Int32} {m : Msg ν} (hh : (h.netClientData S ndevs ncpus m).halted = false) :
    Handled h (ncpusOf ncpus m.hdr) m (h.netClientData S ndevs ncpus m) := by
  unfold netClientData at hh ⊢
  dsimp only at hh ⊢
  obtain ⟨h', dpp, hfound, heq⟩ := findDpp_eq (fun h' => rfl) hh
  rw [heq] at hh ⊢
  obtain ⟨-, heq'⟩ := access_eq hh
  rw [heq'] at hh ⊢
  dsimp only at hh ⊢
  have hfound' : Admitted
      { h with conns := Function.update h.conns m.conn (some (ncpusOf ncpus m.hdr)) }
      (ncpusOf ncpus m.hdr).toInt m { h' with log := h'.log ++ [.devpath (some dpp).isSome] } dpp :=
    ⟨hfound.devs, hfound.mem, hfound.name, hfound.opened, hfound.files, hfound.conns, hfound.clOpens,
      hfound.removed⟩
  exact handled_of_admitted S hs hfound' rfl hh

end Host

end Blktrace.Server
