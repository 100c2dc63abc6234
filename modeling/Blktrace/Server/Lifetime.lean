import Mathlib.Tactic.IntervalCases
import Blktrace.Lib.Runs
import Blktrace.Server.Effect
import Blktrace.Server.Tolerance

/-!
# How long a host lives

The connections of a client send their opens, then their data, then as many closes, and no close is
sent before all opens have been processed. Whatever the order in which the server takes the messages,
`cl_opens` comes to zero with the last of them only.
-/

namespace Blktrace.Server

open Tracer

variable {ν : Type*}

/-- The messages among the steps of the server. -/
def msgs (acts : List (Act ν)) : List (Msg ν) :=
  acts.filterMap fun a => match a with
    | .message m => some m
    | .connect _ => none

theorem msgs_append (as bs : List (Act ν)) : msgs (as ++ bs) = msgs as ++ msgs bs :=
  List.filterMap_append

@[simp] theorem msgs_connect (conn : ℕ) : msgs [(.connect conn : Act ν)] = [] := rfl

@[simp] theorem msgs_message (m : Msg ν) : msgs [.message m] = [m] := rfl

/-- The steps of the server with the connections of one client. -/
structure Client (acts : List (Act ν)) : Prop where
  connected : ∀ as m bs, acts = as ++ .message m :: bs → .connect m.conn ∈ as
  orderly : ∀ conn, ∃ opens blocks closes,
    (msgs acts).filter (fun m => m.conn = conn) = opens ++ blocks ++ closes ∧
      (∀ m ∈ opens, m.isOpen) ∧ (∀ m ∈ blocks, m.isData) ∧ (∀ m ∈ closes, m.isClose) ∧
      closes.length = opens.length ∧ (blocks ≠ [] → opens ≠ [])
  barrier : ∀ as m bs, msgs acts = as ++ m :: bs → m.isClose → ∀ m' ∈ bs, m'.isOpen = false
  opens : ∃ m ∈ msgs acts, m.isOpen

theorem isOpen_iff {m : Msg ν} : m.isOpen = true ↔ m.hdr.len = 0 := decide_eq_true_iff

theorem isClose_iff {m : Msg ν} : m.isClose = true ↔ m.hdr.len = 1 := decide_eq_true_iff

theorem isData_iff {m : Msg ν} : m.isData = true ↔ m.hdr.len ≠ 0 ∧ m.hdr.len ≠ 1 := by
  simp [Msg.isData, Msg.isOpen, Msg.isClose]

theorem not_isClose_of_isOpen {m : Msg ν} (h : m.isOpen = true) : m.isClose = false := by
  simp [Msg.isClose, isOpen_iff.mp h]

/-- Two counts that agree for every value of a key agree. -/
theorem countP_eq_of_filter {α κ : Type*} [DecidableEq κ] (f : α → κ) {p q : α → Bool} (as : List α)
    (h : ∀ k, (as.filter fun a => f a = k).countP p = (as.filter fun a => f a = k).countP q) :
    as.countP p = as.countP q := by
  induction hn : as.length using Nat.strong_induction_on generalizing as with
  | _ n ih =>
    cases as with
    | nil => rfl
    | cons a as =>
      rw [List.countP_eq_countP_filter_add (a :: as) p (fun b => f b = f a),
        List.countP_eq_countP_filter_add (a :: as) q (fun b => f b = f a), h (f a)]
      congr 1
      refine ih _ ?_ _ (fun k => ?_) rfl
      · rw [List.filter_cons_of_neg (by simp), ← hn]
        exact Nat.lt_succ_of_le (List.length_filter_le _ _)
      · rw [List.filter_filter]
        by_cases hk : k = f a
        · have hnone : ∀ l : List α, l.filter (fun b => decide (f b = k) && !decide (f b = f a)) = [] := by
            intro l
            rw [List.filter_eq_nil_iff]
            intro b _
            simp [hk]
          rw [hnone]
          rfl
        · have hall : ∀ l : List α, l.filter (fun b => decide (f b = k) && !decide (f b = f a)) =
              l.filter fun b => f b = k := by
            intro l
            apply List.filter_congr
            intro b _
            by_cases hb : f b = k
            · simp [hb, hk]
            · simp [hb]
          rw [hall]
          exact h k

namespace Client

variable {acts : List (Act ν)}

theorem countP_of_forall {α : Type*} {p : α → Bool} {as : List α} {b : Bool}
    (h : ∀ a ∈ as, p a = b) : as.countP p = if b then as.length else 0 := by
  cases b with
  | true => exact List.countP_eq_length.mpr h
  | false =>
    rw [if_neg (by simp), List.countP_eq_zero]
    intro a ha
    simp [h a ha]

/-- There are as many closes as opens. -/
theorem countP_isClose (hc : Client acts) :
    (msgs acts).countP Msg.isClose = (msgs acts).countP Msg.isOpen := by
  refine countP_eq_of_filter (fun m => m.conn) _ fun conn => ?_
  obtain ⟨opens, blocks, closes, hfilter, hopens, hblocks, hcloses, hlen, -⟩ := hc.orderly conn
  have hopen : ∀ m ∈ opens, m.isClose = false := fun m hm => not_isClose_of_isOpen (hopens m hm)
  have hblock : ∀ m ∈ blocks, m.isClose = false ∧ m.isOpen = false := fun m hm => by
    simpa [Msg.isData, and_comm] using hblocks m hm
  have hclose : ∀ m ∈ closes, m.isOpen = false := fun m hm => by
    by_contra h
    have hclosed := not_isClose_of_isOpen (Bool.eq_true_of_not_eq_false h)
    rw [hcloses m hm] at hclosed
    cases hclosed
  rw [hfilter]
  simp only [List.countP_append]
  rw [countP_of_forall hopen, countP_of_forall fun m hm => (hblock m hm).1, countP_of_forall hcloses,
    countP_of_forall hopens, countP_of_forall fun m hm => (hblock m hm).2, countP_of_forall hclose]
  simp [hlen]

/-- Behind the last close there is nothing. -/
theorem eq_nil_of_closed (hc : Client acts) {as bs : List (Msg ν)} (hacts : msgs acts = as ++ bs)
    (hsome : ∃ m ∈ as, m.isClose) (hnone : ∀ m ∈ bs, m.isClose = false) : bs = [] := by
  by_contra hne
  obtain ⟨m, hm⟩ := List.exists_mem_of_ne_nil bs hne
  obtain ⟨c, hcmem, hcclose⟩ := hsome
  obtain ⟨as₁, as₂, rfl⟩ := List.append_of_mem hcmem
  have hopen : m.isOpen = false := by
    refine hc.barrier as₁ c (as₂ ++ bs) ?_ hcclose m (List.mem_append_right _ hm)
    rw [hacts, List.append_assoc, List.cons_append]
  have hclose := hnone m hm
  obtain ⟨opens, blocks, closes, hfilter, hopens, -, hcloses, hlen, hstart⟩ := hc.orderly m.conn
  have hmem : m ∈ opens ++ blocks ++ closes := by
    rw [← hfilter, hacts]
    simp [hm]
  have hblock : m ∈ blocks := by
    rcases List.mem_append.mp hmem with hmem | hmem
    · rcases List.mem_append.mp hmem with hmem | hmem
      · simp [hopens m hmem] at hopen
      · exact hmem
    · simp [hcloses m hmem] at hclose
  have hne' : closes ≠ [] := by
    have hopens' := hstart (List.ne_nil_of_mem hblock)
    intro hnil
    rw [hnil, List.length_nil] at hlen
    exact hopens' (List.length_eq_zero_iff.mp hlen.symm)
  -- the last message of this connection is a close, and comes behind `as`
  have hlast : (bs.filter fun m' => m'.conn = m.conn).getLast? = closes.getLast? := by
    have hbs : (bs.filter fun m' => m'.conn = m.conn) ≠ [] :=
      List.ne_nil_of_mem (List.mem_filter.mpr ⟨hm, by simp⟩)
    rw [hacts, List.filter_append] at hfilter
    rw [← List.getLast?_append_of_ne_nil _ hbs, hfilter, List.getLast?_append_of_ne_nil _ hne']
  obtain ⟨x, hx⟩ := Option.ne_none_iff_exists'.mp (fun h => hne' (List.getLast?_eq_none_iff.mp h))
  have hxclose := hcloses x (List.mem_of_getLast? hx)
  have hxbs := List.mem_of_mem_filter (List.mem_of_getLast? (hlast.trans hx))
  rw [hnone x hxbs] at hxclose
  cases hxclose

theorem countP_isClose_pos (hc : Client acts) : 0 < (msgs acts).countP Msg.isClose := by
  rw [hc.countP_isClose]
  exact List.countP_pos_iff.mpr hc.opens

/-- Where a close is the last one: all the opens are in front of it. -/
theorem clOpens_iff (hc : Client acts) {ms rest : List (Msg ν)} {m : Msg ν}
    (hacts : msgs acts = ms ++ m :: rest) (hclose : m.isClose) :
    (ms.countP Msg.isOpen : ℤ) - ms.countP Msg.isClose = 1 ↔
      (ms ++ [m]).countP Msg.isClose = (msgs acts).countP Msg.isClose := by
  have hrest : rest.countP Msg.isOpen = 0 := by
    rw [List.countP_eq_zero]
    intro m' hm'
    simp [hc.barrier ms m rest hacts hclose m' hm']
  have hopen : m.isOpen = false := by
    by_contra h
    rw [not_isClose_of_isOpen (Bool.eq_true_of_not_eq_false h)] at hclose
    cases hclose
  have hopens : (msgs acts).countP Msg.isOpen = ms.countP Msg.isOpen := by
    rw [hacts, List.countP_append, List.countP_cons_of_neg (by simp [hopen]), hrest, Nat.add_zero]
  rw [hc.countP_isClose, hopens, List.countP_append, List.countP_cons_of_pos hclose,
    List.countP_nil]
  omega

end Client

namespace Host

variable [DecidableEq ν] {S : Settings} {ndevs : ℕ} {acts pre : List (Act ν)} {ms : List (Msg ν)}
  {h r : Host ν} {m : Msg ν} {n : Int32}

/-- The messages so far are in the files, each opened once. -/
structure Stored (ms : List (Msg ν)) (h : Host ν) : Prop where
  files : ∀ k, h.files k = ms.flatMap (·.blockOf k)
  nodup : h.opened.Nodup
  keys : ∀ m ∈ ms, m.isData → (m.hdr.butsName, m.hdr.cpu.toNat) ∈ h.opened

/-- Before the last close. -/
structure Alive (ms : List (Msg ν)) (h : Host ν) : Prop extends Stored ms h where
  clOpens : h.clOpens = ms.countP Msg.isOpen - ms.countP Msg.isClose
  removed : h.removed = 0
  named : h.Named
  device : ∀ k ∈ h.opened, k.1 ∈ h.devs.map Prod.fst
  opened : ∀ d ∈ h.devs, ∀ cpu < d.2, (d.1, cpu) ∈ h.opened

/-- After it. -/
structure Done (ms : List (Msg ν)) (h : Host ν) : Prop extends Stored ms h where
  clOpens : h.clOpens = 0
  removed : h.removed = 1

/-- A device that is new has no files yet. -/
theorem Alive.not_mem_opened (hi : Alive ms h) {ncpus : ℤ} {k : ν × ℕ}
    (hk : k ∈ h.newKeys ncpus m) : k ∉ h.opened := by
  intro hopened
  unfold newKeys at hk
  split_ifs at hk with hnew
  · obtain ⟨cpu, -, rfl⟩ := List.mem_map.mp hk
    have hdev := hi.device _ hopened
    rw [map_fst_devs] at hdev
    obtain ⟨dpp, hdpp, hname⟩ := List.mem_map.mp hdev
    exact hnew dpp hdpp hname
  · cases hk

theorem nodup_newKeys (h : Host ν) (ncpus : ℤ) (m : Msg ν) : (h.newKeys ncpus m).Nodup := by
  unfold newKeys
  split_ifs
  · exact List.nodup_range.map fun a b hab => (Prod.mk.inj hab).2
  · exact List.nodup_nil

theorem mem_newKeys {ncpus : ℤ} {d : ν × ℕ} (hd : d ∈ h.newDevs ncpus m) {cpu : ℕ}
    (hcpu : cpu < d.2) : (d.1, cpu) ∈ h.newKeys ncpus m := by
  unfold newDevs at hd
  unfold newKeys
  split_ifs at hd ⊢ with hnew
  · rw [List.mem_singleton] at hd
    subst hd
    exact List.mem_map.mpr ⟨cpu, List.mem_range.mpr hcpu, rfl⟩
  · cases hd

theorem map_fst_of_mem_newKeys {ncpus : ℤ} {k : ν × ℕ} (hk : k ∈ h.newKeys ncpus m) :
    k.1 ∈ (h.newDevs ncpus m).map Prod.fst := by
  unfold newKeys at hk
  unfold newDevs
  split_ifs at hk ⊢ with hnew
  · obtain ⟨cpu, -, rfl⟩ := List.mem_map.mp hk
    simp
  · cases hk

theorem Alive.mem_opened (hi : Alive ms h) {ncpus : ℤ} {d : ν × ℕ}
    (hd : d ∈ h.devs ++ h.newDevs ncpus m) {cpu : ℕ} (hcpu : cpu < d.2) :
    (d.1, cpu) ∈ h.opened ++ h.newKeys ncpus m := by
  rcases List.mem_append.mp hd with hd | hd
  · exact List.mem_append_left _ (hi.opened d hd cpu hcpu)
  · exact List.mem_append_right _ (mem_newKeys hd hcpu)

/-- What was stored stays, and the block of the message comes behind it. -/
theorem Alive.stored (hi : Alive ms h) (hr : Handled h n m r) : Stored (ms ++ [m]) r where
  files k := by
    have hkept : (if k ∈ h.newKeys n.toInt m then [] else h.files k) = ms.flatMap (·.blockOf k) := by
      rw [hi.files]
      split_ifs with hk
      · have hnone : ∀ m' ∈ ms, m'.blockOf k = [] := by
          intro m' hm'
          unfold Msg.blockOf
          rw [if_neg]
          rintro ⟨hdata, rfl⟩
          exact hi.not_mem_opened hk (hi.keys m' hm' hdata)
        exact (List.flatMap_eq_nil_iff.mpr hnone).symm
      · rfl
    rw [hr.files, hkept, List.flatMap_append, List.flatMap_singleton]
  nodup := by
    rw [hr.opened, List.nodup_append']
    exact ⟨hi.nodup, h.nodup_newKeys _ _, fun k hk hnew => hi.not_mem_opened hnew hk⟩
  keys m' hm' hdata := by
    rw [hr.opened]
    rcases List.mem_append.mp hm' with hm' | hm'
    · exact List.mem_append_left _ (hi.keys m' hm' hdata)
    · rw [List.mem_singleton] at hm'
      subst hm'
      obtain ⟨ncpus, hdev, hcpu⟩ := hr.cpu hdata
      exact hi.mem_opened hdev hcpu

theorem Alive.message (hi : Alive ms h) (hr : Handled h n m r) (hlast : ¬ h.IsLast m) :
    Alive (ms ++ [m]) r := by
  obtain ⟨hdevs, -, hclOpens, hremoved⟩ := hr.other hlast
  refine { hi.stored hr with
    clOpens := ?_, removed := hremoved.trans hi.removed, named := ?_, device := ?_, opened := ?_ }
  · rw [hclOpens, hi.clOpens, Msg.opens]
    simp only [List.countP_append, List.countP_singleton]
    cases hopen : m.isOpen with
    | true =>
      rw [not_isClose_of_isOpen hopen]
      push_cast
      simp only [if_true]
      omega
    | false =>
      cases hclose : m.isClose with
      | true => simp; omega
      | false => simp
  · unfold Named
    rw [hdevs]
    exact hi.named.add _ m
  · intro k hk
    rw [hr.opened] at hk
    rw [hdevs, List.map_append]
    rcases List.mem_append.mp hk with hk | hk
    · exact List.mem_append_left _ (hi.device k hk)
    · exact List.mem_append_right _ (map_fst_of_mem_newKeys hk)
  · intro d hd cpu hcpu
    rw [hdevs] at hd
    rw [hr.opened]
    exact hi.mem_opened hd hcpu

theorem Alive.last (hi : Alive ms h) (hr : Handled h n m r) (hlast : h.IsLast m) :
    Done (ms ++ [m]) r := by
  obtain ⟨-, -, hclOpens, hremoved⟩ := hr.last hlast
  refine { hi.stored hr with clOpens := hclOpens, removed := ?_ }
  rw [hremoved, hi.removed]

theorem Alive.empty : Alive [] ({} : Host ν) where
  files _ := rfl
  nodup := List.nodup_nil
  keys _ hm := nomatch hm
  clOpens := rfl
  removed := rfl
  named := List.nodup_nil
  device _ hk := nomatch hk
  opened _ hd := nomatch hd

theorem Alive.setConns (hi : Alive ms h) (conns : ℕ → Option Int32) :
    Alive ms { h with conns := conns } :=
  ⟨⟨hi.files, hi.nodup, hi.keys⟩, hi.clOpens, hi.removed, hi.named, hi.device, hi.opened⟩

theorem Done.setConns (hi : Done ms h) (conns : ℕ → Option Int32) :
    Done ms { h with conns := conns } :=
  ⟨⟨hi.files, hi.nodup, hi.keys⟩, hi.clOpens, hi.removed⟩

/-- Nothing happens any more behind an `exit`. -/
theorem halted_run (hh : h.halted) (acts : List (Act ν)) :
    (Runs.run (step S ndevs) h acts).halted := by
  refine Runs.run_invariant (P := fun h : Host ν => h.halted = true) ?_ hh acts
  intro h a h' hh hstep
  cases a <;> simp [step, hh] at hstep

/-- Where the host is in its life. -/
inductive Phase (acts pre : List (Act ν)) (h : Host ν) : Prop
  | alive (hlt : (msgs pre).countP Msg.isClose < (msgs acts).countP Msg.isClose)
      (hi : Alive (msgs pre) h) (hconn : ∀ conn, .connect conn ∈ pre → h.conns conn ≠ none)
  | done (hall : msgs pre = msgs acts) (hi : Done (msgs pre) h)

/-- `net_add_connection` leaves everything but the connections alone. -/
theorem connect_eq (S : Settings) (ndevs conn : ℕ) (hh : h.halted = false) :
    ∃ conns, (step S ndevs h (.connect conn)).getD h = { h with conns := conns } ∧
      conns conn ≠ none ∧ ∀ conn', h.conns conn' ≠ none → conns conn' ≠ none := by
  by_cases hnone : h.conns conn = none
  · refine ⟨Function.update h.conns conn (some (-1)), ?_, by simp, fun conn' hconn' => ?_⟩
    · simp [step, hh, hnone]
    · rw [Function.update_of_ne]
      · exact hconn'
      · rintro rfl
        exact hconn' hnone
  · exact ⟨h.conns, by simp [step, hnone], hnone, fun _ => id⟩

theorem Phase.connect {conn : ℕ} (hp : Phase acts pre h) (hh : h.halted = false) :
    Phase acts (pre ++ [.connect conn]) ((step S ndevs h (.connect conn)).getD h) := by
  have hms : msgs (pre ++ [.connect conn]) = msgs pre := by
    rw [msgs_append, msgs_connect, List.append_nil]
  obtain ⟨conns, heq, hself, hothers⟩ := connect_eq S ndevs conn hh
  rw [heq]
  cases hp with
  | done hall hi =>
    refine .done (hms.trans hall) ?_
    rw [hms]
    exact hi.setConns conns
  | alive hlt hi hconn =>
    refine .alive (by rwa [hms]) ?_ fun conn' hmem => ?_
    · rw [hms]
      exact hi.setConns conns
    · rcases List.mem_append.mp hmem with hmem | hmem
      · exact hothers conn' (hconn conn' hmem)
      · obtain rfl : conn' = conn := by simpa using hmem
        exact hself

theorem Phase.message (hc : Client acts) (hacts : ∃ rest, acts = pre ++ .message m :: rest)
    (hp : Phase acts pre h) (hh : h.halted = false)
    (hh' : ((step S ndevs h (.message m)).getD h).halted = false) :
    Phase acts (pre ++ [.message m]) ((step S ndevs h (.message m)).getD h) := by
  obtain ⟨rest, hacts⟩ := hacts
  have hms : msgs (pre ++ [.message m]) = msgs pre ++ [m] := by rw [msgs_append, msgs_message]
  have hsplit : msgs acts = msgs pre ++ m :: msgs rest := by rw [hacts, msgs_append]; rfl
  have hsplit' : msgs acts = msgs pre ++ [m] ++ msgs rest := by simp [hsplit]
  have hcount : (msgs acts).countP Msg.isClose =
      (msgs pre ++ [m]).countP Msg.isClose + (msgs rest).countP Msg.isClose := by
    rw [hsplit']
    exact List.countP_append
  cases hp with
  | done hall hi =>
    rw [hall] at hsplit
    simp at hsplit
  | alive hlt hi hconn =>
    obtain ⟨ncpus, hncpus⟩ := Option.ne_none_iff_exists'.mp (hconn m.conn (hc.connected pre m rest hacts))
    have hstep : (step S ndevs h (.message m)).getD h = h.netClientData S ndevs ncpus m := by
      simp [step, hh, hncpus]
    rw [hstep] at hh' ⊢
    have hr := netClientData_handled hi.named hh'
    by_cases hlast : h.IsLast m
    · have hclosed := (hc.clOpens_iff hsplit hlast.1).mp (hi.clOpens ▸ hlast.2)
      have hrest : msgs rest = [] := by
        refine hc.eq_nil_of_closed hsplit' ⟨m, by simp, hlast.1⟩ ?_
        intro m' hm'
        have hzero : (msgs rest).countP Msg.isClose = 0 := by
          rw [hcount] at hclosed
          exact Nat.left_eq_add.mp hclosed
        exact Bool.eq_false_of_not_eq_true (List.countP_eq_zero.mp hzero m' hm')
      refine .done ?_ ?_
      · rw [hms, hsplit, hrest]
      · rw [hms]
        exact hi.last hr hlast
    · refine .alive ?_ ?_ fun conn hmem => ?_
      · rw [hms]
        by_cases hclose : m.isClose = true
        · have hne := mt (hc.clOpens_iff hsplit hclose).mpr fun h' => hlast ⟨hclose, hi.clOpens.trans h'⟩
          have hle : (msgs pre ++ [m]).countP Msg.isClose ≤ (msgs acts).countP Msg.isClose := by
            rw [hcount]
            exact Nat.le_add_right _ _
          exact lt_of_le_of_ne hle hne
        · rw [List.countP_append, List.countP_singleton, if_neg hclose, Nat.add_zero]
          exact hlt
      · rw [hms]
        exact hi.message hr hlast
      · obtain ⟨-, hconns, -⟩ := hr.other hlast
        rw [hconns]
        by_cases hsame : conn = m.conn
        · simp [hsame]
        · rw [Function.update_of_ne hsame]
          apply hconn
          simpa using hmem

/-- The host along a run that the server takes to its end. -/
theorem phase (hc : Client acts) (hh : (Runs.run (step S ndevs) {} acts).halted = false) :
    ∀ pre, pre <+: acts → Phase acts pre (Runs.run (step S ndevs) {} pre) := by
  intro pre hpre
  have hnot : ∀ pre, pre <+: acts → (Runs.run (step S ndevs) {} pre).halted = false := by
    rintro pre ⟨rest, rfl⟩
    by_contra h
    rw [Runs.run_append, halted_run (Bool.eq_true_of_not_eq_false h)] at hh
    cases hh
  induction pre using List.reverseRecOn with
  | nil => exact .alive hc.countP_isClose_pos .empty fun conn hmem => nomatch hmem
  | append_singleton pre a ih =>
    have hpre' : pre <+: acts := (List.prefix_append pre [a]).trans hpre
    have hh₀ := hnot pre hpre'
    have hh₁ := hnot _ hpre
    rw [Runs.run_append, Runs.run_cons, Runs.run_nil] at hh₁ ⊢
    cases a with
    | connect conn => exact (ih hpre').connect hh₀
    | message m =>
      obtain ⟨rest, hrest⟩ := hpre
      exact (ih hpre').message hc ⟨rest, by simp [← hrest]⟩ hh₀ hh₁

end Host

/-- A block of two bytes. -/
def block (conn : ℕ) (cpu : UInt32) (a b : UInt8) : Act String :=
  .message { conn, hdr := { butsName := "sda", cpu, maxCpus := 2, len := 2 }, data := [a, b] }

def two : List (Act String) :=
  hello 0 2 {} ++ hello 1 2 {} ++
    [block 1 1 7 8, block 0 0 1 2, send 1 0 1, block 0 0 3 4, send 0 0 1]

/-- A property of the places of a list, by their index. -/
theorem forall_place {α : Type*} {p : List α → α → List α → Prop} {as : List α}
    (h : ∀ i (hi : i < as.length), p (as.take i) as[i] (as.drop (i + 1))) :
    ∀ l a r, as = l ++ a :: r → p l a r := by
  rintro l a r rfl
  have hplace := h l.length (by simp)
  simpa using hplace

theorem two_client : Client two where
  connected as m bs h := by
    have hplace : ∀ l a r, two = l ++ a :: r → ∀ m, a = .message m → .connect m.conn ∈ l := by
      apply forall_place
      intro i hi m hm
      have hlt : i < 9 := hi
      interval_cases i <;> cases hm <;> simp [two, hello]
    exact hplace as (.message m) bs h m rfl
  orderly conn := by
    have hparts : ∀ mine : List (Msg String),
        mine = mine.filter Msg.isOpen ++ mine.filter Msg.isData ++ mine.filter Msg.isClose →
        (mine.filter Msg.isClose).length = (mine.filter Msg.isOpen).length ∧
          (mine.filter Msg.isData ≠ [] → mine.filter Msg.isOpen ≠ []) →
        ∃ opens blocks closes, mine = opens ++ blocks ++ closes ∧
          (∀ m ∈ opens, m.isOpen) ∧ (∀ m ∈ blocks, m.isData) ∧ (∀ m ∈ closes, m.isClose) ∧
          closes.length = opens.length ∧ (blocks ≠ [] → opens ≠ []) := fun mine hmine hlen =>
      ⟨_, _, _, hmine, fun m hm => (List.mem_filter.mp hm).2, fun m hm => (List.mem_filter.mp hm).2,
        fun m hm => (List.mem_filter.mp hm).2, hlen⟩
    match conn with
    | 0 => exact hparts _ rfl (by decide)
    | 1 => exact hparts _ rfl (by decide)
    | conn + 2 => exact hparts _ rfl ⟨rfl, fun h => absurd rfl h⟩
  barrier := by
    have hplace : ∀ l m r, msgs two = l ++ m :: r → m.isClose → ∀ m' ∈ r, m'.isOpen = false := by
      apply forall_place
      decide
    exact hplace
  opens := by decide

end Blktrace.Server
