import Blktrace.Lib.SearchTree
import Mathlib.Data.List.Lex
import Mathlib.Data.List.Induction

/-!
# `btt`: the table of processes

`proc.c`, and the PROCESS notifies of `add_trace`. One tree leads from pids to processes and one from names. A
process comes up with the first record of its pid, and has its name from then on: a notify that comes later
does not rename it.
-/

namespace Blktrace.Btt

open SearchTree

/-- `struct p_info`, less what is gathered about a process. -/
structure PInfo where
  pid : UInt32
  name : List UInt8
deriving DecidableEq

/-- The processes that were allocated, `root_pid` and `root_name`. A process is known by its place in the
list. -/
structure Processes where
  pips : List PInfo := []
  rootPid : RbTree (UInt32 × ℕ) := .nil
  rootName : RbTree (List UInt8 × ℕ) := .nil

/-- What the tree of pids is in order of. -/
def pidKey (n : UInt32 × ℕ) : ℕ := n.1.toNat

/-- `strcmp` compares bytes as numbers without a sign. -/
def nameKey (n : List UInt8 × ℕ) : List ℕ := n.1.map UInt8.toNat

/-- The pid that stands for none. -/
def noPid : UInt32 := 0xffffffff

/-- `sprintf(name, "pid%09u", pid)`. -/
def pidName (pid : UInt32) : List UInt8 :=
  let digits := (Nat.toDigits 10 pid.toNat).map fun c => UInt8.ofNat c.toNat
  [0x70, 0x69, 0x64] ++ List.replicate (9 - digits.length) 0x30 ++ digits

/-- The name that `add_trace` hands over: "kernel", or what comes before a slash. -/
def notifiedName (pid : UInt32) (pdu : List UInt8) : List UInt8 :=
  if pid = 0 then [0x6b, 0x65, 0x72, 0x6e, 0x65, 0x6c]
  else (pdu.takeWhile (· ≠ 0)).takeWhile (· ≠ 0x2f)

namespace Processes

variable (bal : Balancer (UInt32 × ℕ)) (bal' : Balancer (List UInt8 × ℕ)) (s : Processes)

/-- `__find_process_pid`. -/
def findPid (pid : UInt32) : Option ℕ := (s.rootPid.lookup pidKey pid.toNat).map Prod.snd

/-- `__find_process_name`. -/
def findName (name : List UInt8) : Option ℕ :=
  (s.rootName.lookup nameKey (name.map UInt8.toNat)).map Prod.snd

/-- `insert_pid`. -/
def insertPid (pip : ℕ) (pid : UInt32) : Processes := { s with rootPid := bal.add pidKey (pid, pip) s.rootPid }

/-- `insert_name`. -/
def insertName (pip : ℕ) (name : List UInt8) : Processes :=
  { s with rootName := bal'.add nameKey (name, pip) s.rootName }

/-- `insert`. -/
def insert (pip : ℕ) (that : PInfo) : Processes := (s.insertPid bal pip that.pid).insertName bal' pip that.name

/-- `find_process`, for a name. -/
def findNamed (pid : UInt32) (name : List UInt8) : Processes × Option ℕ :=
  if pid ≠ noPid then
    match s.findPid pid with
    | some pip => (s, some pip)
    | none =>
      match s.findName name with
      | some pip => (if (s.pips[pip]?).map PInfo.pid ≠ some pid then s.insertPid bal pip pid else s, some pip)
      | none => (s, none)
  else (s, s.findName name)

/-- What `process_alloc` does with a new process. -/
def alloc (that : PInfo) : Processes :=
  Processes.insert bal bal' { s with pips := s.pips ++ [that] } s.pips.length that

/-- `process_alloc`. -/
def processAlloc (pid : UInt32) (name : List UInt8) : Processes :=
  match s.findNamed bal pid name with
  | (s, some _) => s
  | (s, none) => s.alloc bal bal' ⟨pid, name⟩

/-- `find_process`, with `NULL` for a name. The result is `none` where `strcmp` takes the `NULL`. -/
def findProcess (pid : UInt32) : Option (Processes × Option ℕ) :=
  if pid ≠ noPid then
    match s.findPid pid with
    | some pip => some (s, some pip)
    | none =>
      let s := s.processAlloc bal bal' pid (pidName pid)
      some (s, s.findPid pid)
  else if s.rootName.toList = [] then some (s, none) else none

end Processes

/-- The records that lead to the table: a PROCESS notify with its bytes, or one that `io_setup` looks up the
process of. -/
inductive ProcEvent
  | notify (pid : UInt32) (pdu : List UInt8)
  | io (pid : UInt32)
deriving DecidableEq

namespace ProcEvent

def pid : ProcEvent → UInt32
  | notify pid _ => pid
  | io pid => pid

/-- The name that a process gets when this is the first record of its pid. -/
def name : ProcEvent → List UInt8
  | notify pid pdu => notifiedName pid pdu
  | io pid => pidName pid

end ProcEvent

section

variable (bal : Balancer (UInt32 × ℕ)) (bal' : Balancer (List UInt8 × ℕ))

/-- One record. -/
def Processes.step (s : Processes) : ProcEvent → Option Processes
  | .notify pid pdu => some (s.processAlloc bal bal' pid (notifiedName pid pdu))
  | .io pid => (s.findProcess bal bal' pid).map Prod.fst

/-- One record after the other. -/
def processesOf (es : List ProcEvent) : Option Processes := es.foldlM (Processes.step bal bal') {}

/-- A process is found by its name, and no other is; in the tree of names each is once. -/
structure Processes.EachOnce (s : Processes) : Prop where
  found : ∀ name pip, s.findName name = some pip ↔ (s.pips[pip]?).map PInfo.name = some name
  once : (s.rootName.toList.map Prod.snd).Perm (List.range s.pips.length)

/-- `find_process(pid, NULL)` returns a process such as `P` says. -/
def Processes.Finds (s : Processes) (pid : UInt32) (P : PInfo → Prop) : Prop :=
  ∃ s' pip p, s.findProcess bal bal' pid = some (s', some pip) ∧ s'.EachOnce ∧ s'.pips[pip]? = some p ∧ P p

/-- A process is found for the record, and the processes are told apart by their names. After a notify the
process has the notified name. -/
def ProcEvent.Right (s : Processes) : ProcEvent → Prop
  | .notify pid pdu =>
    (s.processAlloc bal bal' pid (notifiedName pid pdu)).EachOnce ∧
      (s.processAlloc bal bal' pid (notifiedName pid pdu)).Finds bal bal' pid
        fun p => p.name = notifiedName pid pdu
  | .io pid => s.Finds bal bal' pid fun _ => True

/-- All records of a run are right. -/
def ProcsRight (es : List ProcEvent) : Prop :=
  ∀ before e after, es = before ++ e :: after →
    ∃ s, processesOf bal bal' before = some s ∧ e.Right bal bal' s

end

/-- What the process of a pid is called: as in the first record of the pid. -/
def firstName (es : List ProcEvent) (pid : UInt32) : Option (List UInt8) :=
  (es.find? fun e => e.pid = pid).map ProcEvent.name

/-- The pid is not the one that stands for none, and a notify has the name that the first record of its pid
has led to. -/
def ProcEvent.Suits (before : List ProcEvent) : ProcEvent → Prop
  | .notify pid pdu => pid ≠ noPid ∧ ∀ name ∈ firstName before pid, name = notifiedName pid pdu
  | .io pid => pid ≠ noPid

/-! ## The trees -/

namespace Processes

/-- What holds of the table between records. -/
structure Indexed (s : Processes) : Prop where
  pidSorted : s.rootPid.toList.Pairwise fun a b => pidKey a < pidKey b
  nameSorted : s.rootName.toList.Pairwise fun a b => nameKey a < nameKey b
  own : ∀ n ∈ s.rootName.toList, (s.pips[n.2]?).map PInfo.name = some n.1
  once : (s.rootName.toList.map Prod.snd).Perm (List.range s.pips.length)
  pids : ∀ pid pip, s.findPid pid = some pip → pip < s.pips.length
  ownPid : ∀ p ∈ s.pips, (s.findPid p.pid).isSome

variable {s : Processes}

theorem Indexed.empty : Indexed {} where
  pidSorted := .nil
  nameSorted := .nil
  own := nofun
  once := .nil
  pids := nofun
  ownPid := nofun

theorem nameKey_eq_iff {n : List UInt8 × ℕ} {name : List UInt8} :
    nameKey n = name.map UInt8.toNat ↔ n.1 = name :=
  (List.map_injective_iff.mpr fun _ _ => UInt8.toNat_inj.mp).eq_iff

namespace Indexed

/-- A process is found by its name, and no other is. -/
theorem findName_eq_some (h : Indexed s) (name : List UInt8) (pip : ℕ) :
    s.findName name = some pip ↔ (s.pips[pip]?).map PInfo.name = some name := by
  rw [findName, Option.map_eq_some_iff]
  constructor
  · rintro ⟨n, hn, rfl⟩
    obtain ⟨hmem, hkey⟩ := (RbTree.lookup_eq_some h.nameSorted).mp hn
    rw [h.own n hmem, nameKey_eq_iff.mp hkey]
  · intro hname
    obtain ⟨p, hp, rfl⟩ := Option.map_eq_some_iff.mp hname
    have hrange : pip ∈ List.range s.pips.length :=
      List.mem_range.mpr (List.getElem?_eq_some_iff.mp hp).1
    obtain ⟨n, hmem, rfl⟩ := List.mem_map.mp (h.once.mem_iff.mpr hrange)
    have hown : n.1 = p.name := Option.some.inj ((h.own n hmem).symm.trans hname)
    exact ⟨n, (RbTree.lookup_eq_some h.nameSorted).mpr ⟨hmem, nameKey_eq_iff.mpr hown⟩, rfl⟩

theorem eachOnce (h : Indexed s) : s.EachOnce := ⟨h.findName_eq_some, h.once⟩

end Indexed

variable (bal : Balancer (UInt32 × ℕ)) (bal' : Balancer (List UInt8 × ℕ))

/-- A pid that is there keeps its process. -/
theorem findPid_insertPid (hsorted : s.rootPid.toList.Pairwise fun a b => pidKey a < pidKey b) (pip : ℕ)
    (pid q : UInt32) : (s.insertPid bal pip pid).findPid q =
      if q = pid then some ((s.findPid pid).getD pip) else s.findPid q := by
  have hlookup := (bal.add_spec (b := (pid, pip)) hsorted).2 q.toNat
  rw [findPid, insertPid, hlookup, pidKey]
  by_cases hq : q = pid
  · rw [if_pos hq, if_pos (congrArg UInt32.toNat hq), hq, findPid]
    cases s.rootPid.lookup pidKey pid.toNat <;> rfl
  · rw [if_neg hq, if_neg fun heq => hq (UInt32.toNat_inj.mp heq)]
    rfl

/-- A pid that is there keeps its process, also when that is one of another name. -/
theorem findPid_alloc (h : Indexed s) (that : PInfo) (q : UInt32) : (s.alloc bal bal' that).findPid q =
    if q = that.pid then some ((s.findPid that.pid).getD s.pips.length) else s.findPid q :=
  findPid_insertPid bal h.pidSorted s.pips.length that.pid q

theorem length_alloc (that : PInfo) : (s.alloc bal bal' that).pips.length = s.pips.length + 1 :=
  List.length_append

theorem alloc_perm (h : Indexed s) {that : PInfo} (hfresh : s.findName that.name = none) :
    (s.alloc bal bal' that).rootName.toList.Perm ((that.name, s.pips.length) :: s.rootName.toList) :=
  bal'.add_perm h.nameSorted (Option.map_eq_none_iff.mp hfresh)

namespace Indexed

theorem insertPid (h : Indexed s) {pip : ℕ} (hpip : pip < s.pips.length) (pid : UInt32) :
    Indexed (s.insertPid bal pip pid) where
  pidSorted := (bal.add_spec h.pidSorted).1
  nameSorted := h.nameSorted
  own := h.own
  once := h.once
  pids q pip' hq := by
    rw [findPid_insertPid bal h.pidSorted] at hq
    split_ifs at hq
    · obtain rfl := Option.some.inj hq
      cases hpid : s.findPid pid with
      | none => exact hpip
      | some pip' => exact h.pids pid pip' hpid
    · exact h.pids q pip' hq
  ownPid p hp := by
    rw [findPid_insertPid bal h.pidSorted]
    split_ifs
    · rfl
    · exact h.ownPid p hp

/-- A new process, with a name that is not there. -/
theorem alloc (h : Indexed s) (that : PInfo) (hfresh : s.findName that.name = none) :
    Indexed (s.alloc bal bal' that) where
  pidSorted := (bal.add_spec h.pidSorted).1
  nameSorted := (bal'.add_spec h.nameSorted).1
  own n hn := by
    rw [(alloc_perm bal bal' h hfresh).mem_iff, List.mem_cons] at hn
    rcases hn with rfl | hn
    · exact congrArg (Option.map PInfo.name) List.getElem?_concat_length
    · have hown := h.own n hn
      obtain ⟨p, hp, -⟩ := Option.map_eq_some_iff.mp hown
      rw [← hown]
      exact congrArg (Option.map PInfo.name)
        (List.getElem?_append_left (List.getElem?_eq_some_iff.mp hp).1)
  once := by
    refine ((alloc_perm bal bal' h hfresh).map Prod.snd).trans ?_
    rw [List.map_cons, length_alloc, List.range_succ]
    exact (h.once.cons _).trans (List.perm_append_singleton _ _).symm
  pids q pip hq := by
    rw [findPid_alloc bal bal' h] at hq
    rw [length_alloc]
    split_ifs at hq
    · obtain rfl := Option.some.inj hq
      cases hpid : s.findPid that.pid with
      | none => exact Nat.lt_succ_self _
      | some pip => exact Nat.lt_succ_of_lt (h.pids _ pip hpid)
    · exact Nat.lt_succ_of_lt (h.pids q pip hq)
  ownPid p hp := by
    rw [findPid_alloc bal bal' h]
    split_ifs with hpid
    · rfl
    · rcases List.mem_append.mp hp with hp | hp
      · exact h.ownPid p hp
      · exact absurd (congrArg PInfo.pid (List.mem_singleton.mp hp)) hpid

end Indexed

/-- What the process that a pid leads to is called. -/
def nameOf (s : Processes) (pid : UInt32) : Option (List UInt8) :=
  (s.findPid pid).bind fun pip => (s.pips[pip]?).map PInfo.name

/-- A pid that has a process keeps its name. -/
theorem nameOf_found (h : Indexed s) {pid : UInt32} {pip : ℕ} (hfind : s.findPid pid = some pip)
    (name : List UInt8) (q : UInt32) :
    s.nameOf q = if q = pid then some ((s.nameOf pid).getD name) else s.nameOf q := by
  split_ifs with hq
  · obtain ⟨p, hp⟩ : ∃ p, s.pips[pip]? = some p := ⟨_, List.getElem?_eq_getElem (h.pids pid pip hfind)⟩
    rw [hq, nameOf, hfind, Option.bind_some, hp]
    rfl
  · rfl

/-- A pid that has none gets the one of that name. -/
theorem nameOf_insertPid (h : Indexed s) {pid : UInt32} (hnone : s.findPid pid = none) {pip : ℕ} {p : PInfo}
    (hp : s.pips[pip]? = some p) (q : UInt32) : (s.insertPid bal pip pid).nameOf q =
      if q = pid then some ((s.nameOf pid).getD p.name) else s.nameOf q := by
  rw [nameOf, findPid_insertPid bal h.pidSorted, hnone]
  split_ifs with hq
  · rw [nameOf, hnone]
    exact congrArg (Option.map PInfo.name) hp
  · rfl

/-- Or a new one. -/
theorem nameOf_alloc (h : Indexed s) {that : PInfo} (hnone : that.pid ≠ noPid → s.findPid that.pid = none)
    {q : UInt32} (hq : q ≠ noPid) : (s.alloc bal bal' that).nameOf q =
      if q = that.pid then some ((s.nameOf that.pid).getD that.name) else s.nameOf q := by
  rw [nameOf, findPid_alloc bal bal' h]
  split_ifs with heq
  · have hnone := hnone fun hno => hq (heq.trans hno)
    rw [hnone, nameOf, hnone]
    exact congrArg (Option.map PInfo.name) List.getElem?_concat_length
  · rw [nameOf]
    cases hfind : s.findPid q with
    | none => rfl
    | some pip => exact congrArg (Option.map PInfo.name) (List.getElem?_append_left (h.pids q pip hfind))

/-- What a notify or a new pid does. -/
theorem processAlloc_spec (h : Indexed s) (pid : UInt32) (name : List UInt8) :
    Indexed (s.processAlloc bal bal' pid name) ∧ ∀ q ≠ noPid, (s.processAlloc bal bal' pid name).nameOf q =
      if q = pid then some ((s.nameOf pid).getD name) else s.nameOf q := by
  unfold processAlloc findNamed
  by_cases hno : pid ≠ noPid
  · rw [if_pos hno]
    cases hpid : s.findPid pid with
    | some pip => exact ⟨h, fun q _ => nameOf_found h hpid name q⟩
    | none =>
      cases hname : s.findName name with
      | none =>
        exact ⟨h.alloc bal bal' ⟨pid, name⟩ hname, fun q hq => nameOf_alloc bal bal' h (fun _ => hpid) hq⟩
      | some pip =>
        obtain ⟨p, hp, rfl⟩ := Option.map_eq_some_iff.mp ((h.findName_eq_some name pip).mp hname)
        -- the process is there for another pid, or this one would lead to it
        have hother : (s.pips[pip]?).map PInfo.pid ≠ some pid := by
          rw [hp]
          intro heq
          have hown := h.ownPid p (List.mem_of_getElem? hp)
          rw [Option.some.inj heq, hpid] at hown
          exact absurd hown nofun
        dsimp only
        rw [if_pos hother]
        exact ⟨h.insertPid bal (List.getElem?_eq_some_iff.mp hp).1 pid,
          fun q _ => nameOf_insertPid bal h hpid hp q⟩
  · rw [if_neg hno]
    cases hname : s.findName name with
    | none =>
      have hpid : pid ≠ noPid → s.findPid pid = none := fun h => absurd h hno
      exact ⟨h.alloc bal bal' ⟨pid, name⟩ hname, fun q hq => nameOf_alloc bal bal' h hpid hq⟩
    | some pip => exact ⟨h, fun q hq => (if_neg fun heq : q = pid => hno (heq ▸ hq)).symm⟩

/-- A process is found for each pid that is not the one for none. -/
theorem findProcess_spec (h : Indexed s) {pid : UInt32} (hpid : pid ≠ noPid) :
    ∃ s', s.findProcess bal bal' pid = some (s', s'.findPid pid) ∧ Indexed s' ∧ ∀ q ≠ noPid, s'.nameOf q =
      if q = pid then some ((s.nameOf pid).getD (pidName pid)) else s.nameOf q := by
  obtain ⟨hindexed, hname⟩ := processAlloc_spec bal bal' h pid (pidName pid)
  rw [findProcess, if_pos hpid]
  cases hfind : s.findPid pid with
  | none => exact ⟨_, rfl, hindexed, hname⟩
  | some pip =>
    refine ⟨s, by rw [hfind], h, ?_⟩
    have hsame : s.processAlloc bal bal' pid (pidName pid) = s := by
      rw [processAlloc, findNamed, if_pos hpid, hfind]
    rw [hsame] at hname
    exact hname

/-- None is found for that one. -/
theorem findProcess_noPid (s s' : Processes) (pip : ℕ) : s.findProcess bal bal' noPid ≠ some (s', some pip) := by
  rw [findProcess, if_neg fun h => h rfl]
  split_ifs
  · exact fun h => absurd (congrArg Prod.snd (Option.some.inj h)) nofun
  · exact nofun

/-- What is found has the name of the pid. -/
theorem findProcess_iff (h : Indexed s) {pid : UInt32} {P : PInfo → Prop}
    (hP : ∀ p p', p.name = p'.name → (P p ↔ P p')) :
    s.Finds bal bal' pid P ↔
      pid ≠ noPid ∧ ∀ p, p.name = (s.nameOf pid).getD (pidName pid) → P p := by
  constructor
  · rintro ⟨s', pip, p, hfind, -, hp, hPp⟩
    have hpid : pid ≠ noPid := by
      rintro rfl
      exact findProcess_noPid bal bal' s s' pip hfind
    refine ⟨hpid, fun p' hp' => (hP p p' ?_).mp hPp⟩
    obtain ⟨s'', hfind', -, hname⟩ := findProcess_spec bal bal' h hpid
    obtain ⟨rfl, hpip⟩ := Prod.mk.inj (Option.some.inj (hfind'.symm.trans hfind))
    have hcalled := hname pid hpid
    rw [if_pos rfl, nameOf, hpip, Option.bind_some, hp] at hcalled
    exact (Option.some.inj hcalled).trans hp'.symm
  · rintro ⟨hpid, hall⟩
    obtain ⟨s', hfind, hindexed, hname⟩ := findProcess_spec bal bal' h hpid
    have hcalled := hname pid hpid
    rw [if_pos rfl, nameOf] at hcalled
    obtain ⟨pip, hpip, hp⟩ := Option.bind_eq_some_iff.mp hcalled
    obtain ⟨p, hp, hpname⟩ := Option.map_eq_some_iff.mp hp
    exact ⟨s', pip, p, by rw [hfind, hpip], hindexed.eachOnce, hp, hall p hpname⟩

end Processes

/-! ## Runs -/

section

open Processes

variable (bal : Balancer (UInt32 × ℕ)) (bal' : Balancer (List UInt8 × ℕ))

theorem firstName_append (es : List ProcEvent) (e : ProcEvent) (q : UInt32) : firstName (es ++ [e]) q =
    if q = e.pid then some ((firstName es e.pid).getD e.name) else firstName es q := by
  rw [firstName, List.find?_append]
  split_ifs with hq
  · rw [hq, firstName]
    cases es.find? (fun a => a.pid = e.pid) <;> simp
  · rw [firstName]
    cases es.find? (fun a => a.pid = q) <;> simp [Ne.symm hq]

/-- The table after a run: the first record of a pid says what its process is called. -/
theorem processesOf_spec {es : List ProcEvent} {s : Processes} (hrun : processesOf bal bal' es = some s) :
    Indexed s ∧ ∀ q ≠ noPid, s.nameOf q = firstName es q := by
  induction es using List.reverseRecOn generalizing s with
  | nil =>
    obtain rfl := Option.some.inj hrun
    exact ⟨.empty, fun q _ => rfl⟩
  | append_singleton es e ih =>
    rw [processesOf, List.foldlM_append] at hrun
    obtain ⟨s₁, hs₁, hstep⟩ := Option.bind_eq_some_iff.mp hrun
    obtain ⟨s', hs', hlast⟩ := Option.bind_eq_some_iff.mp hstep
    obtain rfl := Option.some.inj hlast
    obtain ⟨hindexed, hnames⟩ := ih hs₁
    have hgoal : Indexed s' ∧ ∀ q ≠ noPid, s'.nameOf q =
        if q = e.pid then some ((s₁.nameOf e.pid).getD e.name) else s₁.nameOf q := by
      cases e with
      | notify pid pdu =>
        obtain rfl := Option.some.inj hs'
        exact processAlloc_spec bal bal' hindexed pid _
      | io pid =>
        obtain ⟨⟨s', found⟩, hfind, rfl⟩ := Option.map_eq_some_iff.mp hs'
        by_cases hpid : pid = noPid
        · rw [findProcess, if_neg fun h => h hpid] at hfind
          obtain ⟨-, heq⟩ := Option.ite_none_right_eq_some.mp hfind
          obtain ⟨rfl, -⟩ := Prod.mk.inj (Option.some.inj heq)
          exact ⟨hindexed, fun q hq => (if_neg fun heq => hq (heq.trans hpid)).symm⟩
        · obtain ⟨s'', hfind', hindexed', hname⟩ := findProcess_spec bal bal' hindexed hpid
          obtain ⟨rfl, -⟩ := Prod.mk.inj (Option.some.inj (hfind'.symm.trans hfind))
          exact ⟨hindexed', hname⟩
    refine ⟨hgoal.1, fun q hq => ?_⟩
    rw [hgoal.2 q hq, firstName_append]
    split_ifs with heq
    · rw [hnames e.pid (heq ▸ hq)]
    · exact hnames q hq

/-- A run goes on as long as `strcmp` is not given a `NULL`. -/
theorem processesOf_isSome {es : List ProcEvent} (h : ∀ e ∈ es, e.pid ≠ noPid) :
    ∃ s, processesOf bal bal' es = some s := by
  induction es using List.reverseRecOn with
  | nil => exact ⟨{}, rfl⟩
  | append_singleton es e ih =>
    obtain ⟨s, hs⟩ := ih fun a ha => h a (List.mem_append_left _ ha)
    have hpid := h e (List.mem_append_right _ List.mem_cons_self)
    obtain ⟨s', hs'⟩ : ∃ s', s.step bal bal' e = some s' := by
      cases e with
      | notify pid pdu => exact ⟨_, rfl⟩
      | io pid =>
        obtain ⟨s', hfind, -⟩ := findProcess_spec bal bal' (processesOf_spec bal bal' hs).1 hpid
        exact ⟨s', congrArg (Option.map Prod.fst) hfind⟩
    refine ⟨s', ?_⟩
    rw [processesOf, List.foldlM_append]
    refine Option.bind_eq_some_iff.mpr ⟨s, hs, ?_⟩
    rw [List.foldlM_cons, hs']
    rfl

/-- One record. -/
theorem right_iff {before : List ProcEvent} {s : Processes} (hrun : processesOf bal bal' before = some s)
    (e : ProcEvent) : e.Right bal bal' s ↔ e.Suits before := by
  obtain ⟨hindexed, hnames⟩ := processesOf_spec bal bal' hrun
  cases e with
  | io pid =>
    refine (findProcess_iff bal bal' hindexed fun _ _ _ => Iff.rfl).trans ?_
    exact and_iff_left fun _ _ => trivial
  | notify pid pdu =>
    obtain ⟨hindexed', hname⟩ := processAlloc_spec bal bal' hindexed pid (notifiedName pid pdu)
    refine (and_iff_right hindexed'.eachOnce).trans ((findProcess_iff bal bal' hindexed' ?_).trans ?_)
    · intro p p' hp
      rw [hp]
    · refine and_congr_right fun hpid => ?_
      rw [hname pid hpid, if_pos rfl, hnames pid hpid, Option.getD_some]
      cases firstName before pid with
      | none => exact iff_of_true (fun p hp => hp) nofun
      | some name =>
        constructor
        · intro hall n hn
          obtain rfl := Option.some.inj hn
          exact hall ⟨pid, name⟩ rfl
        · intro hall p hp
          exact hp.trans (hall name rfl)

/-- **The table of processes** serves a run just if no record has the pid that stands for none, and no notify
comes with another name than the first record of its pid has led to. -/
theorem procsRight_iff (es : List ProcEvent) : ProcsRight bal bal' es ↔
    ∀ before e after, es = before ++ e :: after → e.Suits before := by
  constructor
  · intro h before e after hes
    obtain ⟨s, hrun, hright⟩ := h before e after hes
    exact (right_iff bal bal' hrun e).mp hright
  · intro h before e after hes
    have hpids : ∀ a ∈ before, a.pid ≠ noPid := by
      intro a ha
      obtain ⟨as, bs, rfl⟩ := List.append_of_mem ha
      have hsuits := h as a (bs ++ e :: after) (by rw [hes, List.append_assoc, List.cons_append])
      cases a with
      | notify pid pdu => exact hsuits.1
      | io pid => exact hsuits
    obtain ⟨s, hrun⟩ := processesOf_isSome bal bal' hpids
    exact ⟨s, hrun, (right_iff bal bal' hrun e).mpr (h before e after hes)⟩

end

/-- An IO of pid 5 comes before the notify that calls it "a". -/
theorem not_procsRight :
    ¬ ∀ es, ProcsRight (.plain (UInt32 × ℕ)) (.plain (List UInt8 × ℕ)) es := by
  intro h
  obtain ⟨s, hrun, -, s', pip, p, hfind, -, hp, hname⟩ :=
    h [.io 5, .notify 5 [0x61, 0]] [.io 5] (.notify 5 [0x61, 0]) [] rfl
  obtain rfl := Option.some.inj hrun
  obtain ⟨rfl, hpip⟩ := Prod.mk.inj (Option.some.inj hfind)
  obtain rfl := Option.some.inj hpip
  obtain rfl := Option.some.inj hp
  exact absurd hname (by decide)

end Blktrace.Btt
