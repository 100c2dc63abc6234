import Blktrace.Lib.Sides
import Blktrace.Server.Effect
import Blktrace.Server.HostLists
import Blktrace.Server.Service

/-!
# The rounds of the server

A round gives the hosts what the connections have that `poll` found readable: one message each, in
the order of the list, as far as the one that removes its host. To the hosts the server is no more
than that: each of them runs for itself, on the messages that are its own.
-/

namespace Blktrace.Server

open Tracer

variable {α ν : Type*} [DecidableEq α] [DecidableEq ν] (S : Settings) (ndevs : ℕ)

namespace Input

/-- What a host is given. -/
def acts (nc : ClConn α) : Input ν → List (α × Act ν)
  | .eof | .bad => []
  | .message hdr data env => [(nc.ch, .message { conn := nc.fd, hdr := hdr, data := data, env := env })]

/-- The loop is left over it: with an `exit`, or without the host. -/
def ends (hosts : α → Host ν) (nc : ClConn α) (input : Input ν) : Bool :=
  match input with
  | .eof => false
  | .bad => true
  | .message .. =>
    let h := Runs.run (Runs.side (Host.step S ndevs)) hosts (input.acts nc) nc.ch
    h.halted || h.removed != (hosts nc.ch).removed

end Input

/-- What the hosts are given of the connections, with their `revents`. -/
def dispatch (input : ℕ → Input ν) : (α → Host ν) → List (ClConn α × UInt16) → List (α × Act ν)
  | _, [] => []
  | hosts, (nc, revents) :: rest =>
    if pollin revents then
      let acts := (input nc.fd).acts nc
      if (input nc.fd).ends S ndevs hosts nc then acts
      else acts ++ dispatch input (Runs.run (Runs.side (Host.step S ndevs)) hosts acts) rest
    else dispatch input hosts rest

omit [DecidableEq α] [DecidableEq ν] in
theorem Kept.named {h : Host ν} (hs : Kept S h) : h.Named := by
  rw [Host.Named, Host.map_fst_devs]
  exact hs.names

namespace NetServer

/-- What there is to the lists and the hosts between two rounds. -/
structure Consistent (ns : NetServer α ν) : Prop extends ns.Listed where
  used : ∀ a ∈ ns.addrs, fdsOf a ns.connList ≠ []
  stray : ns.stray = false
  kept : ∀ a, Kept S (ns.hosts a)
  /-- As long as the server runs. -/
  running : ns.halted = false → (∀ a, (ns.hosts a).halted = false) ∧
    (∀ a fd, ((ns.hosts a).conns fd).isSome ↔ ⟨fd, a⟩ ∈ ns.connList) ∧
    ∀ a, a ∉ ns.addrs → (ns.hosts a).devpaths = [] ∧ (ns.hosts a).clOpens = 0

/-- What `poll` and `accept` give in a round. -/
structure Polled (ns : NetServer α ν) (r : Round α ν) : Prop where
  events : 0 ≤ r.events →
    r.events = ((List.range (ns.connList.length + 1)).countP fun k => r.revents k ≠ 0 : ℕ)
  /-- A descriptor that is not in use. -/
  fresh : ∀ a fd, r.accepted = some (a, fd) → ∀ nc ∈ ns.connList, nc.fd ≠ fd
  /-- What there is to a connection can be read, at least where another one came in. -/
  readable : r.accepted.isSome → ∀ k ∈ List.range' 1 ns.connList.length, r.revents k ≠ 0 →
    pollin (r.revents k)

omit [DecidableEq α] [DecidableEq ν] in
theorem polled_iff {ns : NetServer α ν} {r : Round α ν} : ns.Polled r ↔
    (0 ≤ r.events →
      r.events = ((List.range (ns.connList.length + 1)).countP fun k => r.revents k ≠ 0 : ℕ)) ∧
    (∀ came ∈ r.accepted, ∀ nc ∈ ns.connList, nc.fd ≠ came.2) ∧
    (r.accepted.isSome → ∀ k ∈ List.range' 1 ns.connList.length, r.revents k ≠ 0 → pollin (r.revents k)) :=
  ⟨fun h => ⟨h.events, fun came hcame => h.fresh came.1 came.2 hcame, h.readable⟩,
    fun ⟨hevents, hfresh, hreadable⟩ => ⟨hevents, fun _ _ hcame => hfresh _ hcame, hreadable⟩⟩

instance (ns : NetServer α ν) (r : Round α ν) : Decidable (ns.Polled r) :=
  decidable_of_iff _ polled_iff.symm

/-- The connections, with `revents` of their entries. -/
def polled (ns : NetServer α ν) (r : Round α ν) : List (ClConn α × UInt16) :=
  ns.connList.zip ((List.range' 1 ns.connList.length).map r.revents)

/-- What the hosts are given in a round. -/
def takes (ns : NetServer α ν) (r : Round α ν) : List (α × Act ν) :=
  if ns.halted ∨ r.events ≤ 0 then []
  else
    let came := if pollin (r.revents 0) then
      (r.accepted.map fun (a, fd) => (a, .connect fd)).toList else []
    came ++ dispatch S ndevs r.input (Runs.run (Runs.side (Host.step S ndevs)) ns.hosts came)
      (ns.polled r)

/-- And in many. -/
def served (ns : NetServer α ν) : List (Round α ν) → List (α × Act ν)
  | [] => []
  | r :: rounds => ns.takes S ndevs r ++ served ((ns.round S ndevs r).getD ns) rounds

variable {S ndevs} {ns : NetServer α ν}

omit [DecidableEq ν] in
theorem Listed.setHosts (hs : ns.Listed) (hosts : α → Host ν) : Listed { ns with hosts := hosts } :=
  ⟨hs.nchs, hs.addrs, hs.connects, hs.pfds, hs.fds, hs.chs, hs.connList, hs.chConnects⟩

omit [DecidableEq ν] in
theorem Listed.exit (hs : ns.Listed) : ns.exit.Listed :=
  ⟨hs.nchs, hs.addrs, hs.connects, hs.pfds, hs.fds, hs.chs, hs.connList, hs.chConnects⟩

omit [DecidableEq ν] in
/-- Behind an `exit` the hosts are as they are. -/
theorem Consistent.exit (hs : ns.Consistent S) : ns.exit.Consistent S :=
  { hs.toListed.exit with
    used := hs.used
    stray := hs.stray
    kept := hs.kept
    running := fun h => by cases h }

omit [DecidableEq ν] in
theorem fdsOf_filter_ne {a b : α} (hne : b ≠ a) (l : List (ClConn α)) :
    fdsOf b (l.filter fun nc => nc.ch ≠ a) = fdsOf b l := by
  unfold fdsOf
  rw [List.filter_filter]
  congr 1
  apply List.filter_congr
  intro nc _
  by_cases hnc : nc.ch = b
  · simp [hnc, hne]
  · simp [hnc]

variable (S ndevs) in
omit [DecidableEq α] in
/-- A message of a connection that the host has. -/
theorem step_message {h : Host ν} (hh : h.halted = false) {m : Msg ν} {ncpus : Int32}
    (hconn : h.conns m.conn = some ncpus) :
    h.step S ndevs (.message m) = some (h.netClientData S ndevs ncpus m) := by
  simp only [Host.step, hh, Bool.false_eq_true, if_false, hconn, Option.map_some]

/-- What `net_client_data` leaves behind, in a loop over the connections. -/
structure Received (S : Settings) (ndevs : ℕ) (ns : NetServer α ν) (nc : ClConn α) (input : Input ν)
    (s : NetServer α ν × Bool) : Prop where
  closed : s.2 = input.ends S ndevs ns.hosts nc
  consistent : s.1.Consistent S
  hosts : s.1.hosts = Runs.run (Runs.side (Host.step S ndevs)) ns.hosts (input.acts nc)
  stays : s.2 = false → s.1.halted = false ∧ s.1.connList = ns.connList ∧ s.1.pfds = ns.pfds

omit [DecidableEq ν] in
/-- The host stays: nothing but its own state has changed. -/
theorem Consistent.setHost (hs : ns.Consistent S) {nc : ClConn α} (hnc : nc ∈ ns.connList)
    {h : Host ν} (hkept : Kept S h) (hhalted : ns.halted = false → h.halted = false)
    (hconns : ns.halted = false → ∀ fd, (h.conns fd).isSome ↔ ((ns.hosts nc.ch).conns fd).isSome) :
    Consistent S { ns with hosts := Function.update ns.hosts nc.ch h } :=
  { hs.toListed.setHosts _ with
    used := hs.used
    stray := hs.stray
    kept := by
      intro a
      show Kept S (Function.update ns.hosts nc.ch h a)
      by_cases ha : a = nc.ch
      · rw [ha, Function.update_self]
        exact hkept
      · rw [Function.update_of_ne ha]
        exact hs.kept a
    running := by
      intro hrun
      obtain ⟨hhosts, hfds, hgone⟩ := hs.running hrun
      refine ⟨fun a => ?_, fun a fd => ?_, fun a hgone' => ?_⟩
      · show (Function.update ns.hosts nc.ch h a).halted = false
        by_cases ha : a = nc.ch
        · rw [ha, Function.update_self]
          exact hhalted hrun
        · rw [Function.update_of_ne ha]
          exact hhosts a
      · show ((Function.update ns.hosts nc.ch h a).conns fd).isSome ↔ _
        by_cases ha : a = nc.ch
        · rw [ha, Function.update_self, hconns hrun]
          exact hfds nc.ch fd
        · rw [Function.update_of_ne ha]
          exact hfds a fd
      · have ha : a ≠ nc.ch := by
          rintro rfl
          exact hgone' (hs.chs nc hnc)
        show (Function.update ns.hosts nc.ch h a).devpaths = [] ∧
          (Function.update ns.hosts nc.ch h a).clOpens = 0
        rw [Function.update_of_ne ha]
        exact hgone a hgone' }

omit [DecidableEq ν] in
/-- The host goes, with nothing left of it but what it has done. -/
theorem Consistent.remove (hs : ns.Consistent S) (hh : ns.halted = false) {a : α} (ha : a ∈ ns.addrs)
    {h : Host ν} (hkept : Kept S h) (hhalted : h.halted = false) (hconns : h.conns = fun _ => none)
    (hdevpaths : h.devpaths = []) (hclOpens : h.clOpens = 0) :
    (NetServer.netChRemove { ns with hosts := Function.update ns.hosts a h } a).Consistent S ∧
      (NetServer.netChRemove { ns with hosts := Function.update ns.hosts a h } a).hosts =
        Function.update ns.hosts a h := by
  obtain ⟨hlisted, hconnList, haddrs, hhosts, hstray, hhalted'⟩ :=
    (hs.toListed.setHosts (Function.update ns.hosts a h)).netChRemove (a := a) ha
  generalize NetServer.netChRemove _ a = r at *
  obtain ⟨hrunning, hfds, hgone⟩ := hs.running hh
  change r.connList = ns.connList.filter fun nc => nc.ch ≠ a at hconnList
  change r.addrs = ns.addrs.erase a at haddrs
  change r.hosts = Function.update ns.hosts a h at hhosts
  have hother : ∀ b ∈ r.addrs, b ≠ a := by
    rintro b hb rfl
    rw [haddrs] at hb
    exact hs.addrs.not_mem_erase hb
  refine ⟨{ hlisted with used := ?_, stray := hstray.trans hs.stray, kept := ?_, running := ?_ }, hhosts⟩
  · intro b hb
    rw [hconnList, fdsOf_filter_ne (hother b hb)]
    exact hs.used b (List.mem_of_mem_erase (haddrs ▸ hb))
  · intro b
    rw [hhosts]
    by_cases hb : b = a
    · rw [hb, Function.update_self]
      exact hkept
    · rw [Function.update_of_ne hb]
      exact hs.kept b
  · intro _
    rw [hhosts]
    refine ⟨fun b => ?_, fun b fd => ?_, fun b hb' => ?_⟩
    · by_cases hb : b = a
      · rw [hb, Function.update_self]
        exact hhalted
      · rw [Function.update_of_ne hb]
        exact hrunning b
    · rw [hconnList, List.mem_filter]
      by_cases hb : b = a
      · simp [hb, hconns]
      · rw [Function.update_of_ne hb, hfds b fd]
        simp [hb]
    · by_cases hb : b = a
      · rw [hb, Function.update_self]
        exact ⟨hdevpaths, hclOpens⟩
      · rw [Function.update_of_ne hb]
        exact hgone b fun hmem => hb' (haddrs ▸ (List.mem_erase_of_ne hb).mpr hmem)

variable (ndevs) in
/-- **`net_client_data`.** -/
theorem netClientData_received (hs : ns.Consistent S) (hh : ns.halted = false) {nc : ClConn α}
    (hnc : nc ∈ ns.connList) (input : Input ν) :
    Received S ndevs ns nc input (ns.netClientData S ndevs nc input) := by
  cases input with
  | eof => exact ⟨rfl, hs, rfl, fun _ => ⟨hh, rfl, rfl⟩⟩
  | bad => exact ⟨rfl, hs.exit, rfl, fun h => by cases h⟩
  | message hdr data env =>
    obtain ⟨hrunning, hfds, -⟩ := hs.running hh
    obtain ⟨ncpus, hncpus⟩ := Option.isSome_iff_exists.mp ((hfds nc.ch nc.fd).mpr hnc)
    generalize hm : ({ conn := nc.fd, hdr := hdr, data := data, env := env } : Msg ν) = m
    have hconn : (ns.hosts nc.ch).conns m.conn = some ncpus := by rw [← hm]; exact hncpus
    have hstep := step_message S ndevs (hrunning nc.ch) hconn
    generalize hh' : (ns.hosts nc.ch).netClientData S ndevs ncpus m = h' at hstep
    have hkept : Kept S h' := by
      have h := (@step_records ν _ S ndevs _ (hs.kept nc.ch) (.message m)).kept
      rw [hstep] at h
      exact h
    have hrun : Runs.run (Runs.side (Host.step S ndevs)) ns.hosts
        ((Input.message hdr data env).acts nc) = Function.update ns.hosts nc.ch h' := by
      show (Runs.side (Host.step S ndevs) ns.hosts (nc.ch, Act.message _)).getD ns.hosts = _
      rw [Runs.side_getD, hm, hstep]
      rfl
    have hends : (Input.message hdr data env).ends S ndevs ns.hosts nc =
        (h'.halted || h'.removed != (ns.hosts nc.ch).removed) := by
      show (_ || _) = _
      rw [hrun, Function.update_self]
    have heq : ns.netClientData S ndevs nc (.message hdr data env) =
        if h'.halted then ({ ns with hosts := Function.update ns.hosts nc.ch h' }.exit, true)
        else if h'.removed ≠ (ns.hosts nc.ch).removed then
          (NetServer.netChRemove { ns with hosts := Function.update ns.hosts nc.ch h' } nc.ch, true)
        else ({ ns with hosts := Function.update ns.hosts nc.ch h' }, false) := by
      rw [← hh', ← hm]
      rw [NetServer.netClientData]
      dsimp only
      rw [hncpus]
    rw [heq]
    cases hhalted : h'.halted with
    | true =>
      have hexit : (NetServer.exit { ns with hosts := Function.update ns.hosts nc.ch h' }).Consistent S :=
        hs.exit.setHost hnc hkept (fun h => by cases h) (fun h => by cases h)
      exact ⟨by rw [hends, hhalted]; rfl, hexit, hrun.symm, fun h => by cases h⟩
    | false =>
      have hhandled := @Host.netClientData_handled ν _ S ndevs _ (Kept.named S (hs.kept nc.ch))
        ncpus m (by rw [hh', hhalted])
      rw [hh'] at hhandled
      rw [if_neg Bool.false_ne_true]
      by_cases hlast : (ns.hosts nc.ch).IsLast m
      · obtain ⟨hdevs, hconns, hclOpens, hremoved⟩ := hhandled.last hlast
        have hne : h'.removed ≠ (ns.hosts nc.ch).removed := by omega
        obtain ⟨hcons, hhosts⟩ := hs.remove hh (hs.chs nc hnc) hkept hhalted hconns
          (List.map_eq_nil_iff.mp hdevs) hclOpens
        rw [if_pos hne]
        refine ⟨?_, hcons, hhosts.trans hrun.symm, fun h => by cases h⟩
        rw [hends, hhalted]
        simpa using hne
      · obtain ⟨-, hconns, -, hremoved⟩ := hhandled.other hlast
        have hsame : ∀ fd, (h'.conns fd).isSome ↔ ((ns.hosts nc.ch).conns fd).isSome := by
          intro fd
          rw [hconns]
          by_cases hfd : fd = m.conn
          · rw [hfd, Function.update_self, hconn]
            simp
          · rw [Function.update_of_ne hfd]
        rw [if_neg (not_not.mpr hremoved)]
        refine ⟨?_, hs.setHost hnc hkept (fun _ => hhalted) (fun _ => hsame), hrun.symm,
          fun _ => ⟨hh, rfl, rfl⟩⟩
        rw [hends, hhalted, hremoved]
        simp

/-! ## The loop over the connections -/

/-- How many of the entries can be read. -/
def ready (l : List (ClConn α × UInt16)) : ℕ := l.countP fun x => pollin x.2

theorem dispatch_of_ready_eq_zero {input : ℕ → Input ν} {hosts : α → Host ν}
    {l : List (ClConn α × UInt16)} (h : ready l = 0) : dispatch S ndevs input hosts l = [] := by
  induction l with
  | nil => rfl
  | cons x l ih =>
    have hx := List.countP_eq_zero.mp h
    rw [dispatch, if_neg (hx x List.mem_cons_self)]
    exact ih (List.countP_eq_zero.mpr fun y hy => hx y (List.mem_cons_of_mem x hy))

/-- A pass over a connection with the entry that was set for it. -/
theorem handleConn_eq (r : Round α ν) {k : ℕ} (events : ℤ) {nc : ClConn α}
    (hpfd : ns.pfds[k]? = some (some nc.fd)) :
    handleConn S ndevs r (ns, k, events) nc =
      if pollin (r.revents k) then
        if (ns.netClientData S ndevs nc (r.input nc.fd)).2 then
          (((ns.netClientData S ndevs nc (r.input nc.fd)).1, k, events), true)
        else (((ns.netClientData S ndevs nc (r.input nc.fd)).1, k + 1, events - 1), events - 1 = 0)
      else ((ns, k + 1, events), false) := by
  simp only [handleConn, hpfd, ne_eq, not_true_eq_false, if_false]

/-- The loop on from a place, with the connections of `ps` polled and those of `tail` not. -/
theorem each_handleConn {r : Round α ν} {ps tail : List (ClConn α)} {k : ℕ} {events : ℤ}
    {rest : List (Option ℕ)} (hs : ns.Consistent S) (hh : ns.halted = false)
    (hmem : ∀ nc ∈ ps, nc ∈ ns.connList)
    (hpfds : ns.pfds.drop k = (ps.map fun nc => some nc.fd) ++ rest) (hpos : 0 < events)
    (hready : (ready (ps.zip ((List.range' k ps.length).map r.revents)) : ℤ) ≤ events)
    (htail : tail ≠ [] → (ready (ps.zip ((List.range' k ps.length).map r.revents)) : ℤ) = events) :
    (EachSafe.each (handleConn S ndevs r) (ns, k, events) (ps ++ tail)).1.Consistent S ∧
      (EachSafe.each (handleConn S ndevs r) (ns, k, events) (ps ++ tail)).1.hosts =
        Runs.run (Runs.side (Host.step S ndevs)) ns.hosts
          (dispatch S ndevs r.input ns.hosts (ps.zip ((List.range' k ps.length).map r.revents))) := by
  induction ps generalizing ns k events with
  | nil =>
    have hnil : tail = [] := by
      by_contra hne
      have h := htail hne
      simp only [List.zip_nil_left, ready, List.countP_nil] at h
      omega
    rw [hnil]
    exact ⟨hs, rfl⟩
  | cons nc ps ih =>
    have hpfd : ns.pfds[k]? = some (some nc.fd) := by
      have h := congrArg List.head? hpfds
      rw [List.head?_drop] at h
      exact h
    have hdrop : ns.pfds.drop (k + 1) = (ps.map fun nc => some nc.fd) ++ rest := by
      have h := congrArg List.tail hpfds
      rw [List.tail_drop] at h
      exact h
    have hzip : (nc :: ps).zip ((List.range' k (nc :: ps).length).map r.revents) =
        (nc, r.revents k) :: ps.zip ((List.range' (k + 1) ps.length).map r.revents) := rfl
    have hmem' : ∀ p ∈ ps, p ∈ ns.connList := fun p hp => hmem p (List.mem_cons_of_mem nc hp)
    rw [hzip] at hready htail ⊢
    rw [List.cons_append, EachSafe.each_cons, handleConn_eq r events hpfd, dispatch]
    by_cases hin : pollin (r.revents k) = true
    · rw [if_pos hin, if_pos hin]
      have hcount : ready ((nc, r.revents k) :: ps.zip ((List.range' (k + 1) ps.length).map r.revents)) =
          ready (ps.zip ((List.range' (k + 1) ps.length).map r.revents)) + 1 :=
        List.countP_cons_of_pos hin
      rw [hcount] at hready htail
      have hreceived := netClientData_received ndevs hs hh (hmem nc List.mem_cons_self)
        (r.input nc.fd)
      generalize ns.netClientData S ndevs nc (r.input nc.fd) = result at hreceived ⊢
      obtain ⟨ns', closed⟩ := result
      obtain ⟨hclosed, hcons, hhosts, hstays⟩ := hreceived
      dsimp only at hclosed hcons hhosts hstays ⊢
      cases closed with
      | true =>
        rw [← hclosed, if_pos rfl, if_pos rfl]
        exact ⟨hcons, hhosts⟩
      | false =>
        obtain ⟨hhalted, hconnList, hpfds'⟩ := hstays rfl
        rw [← hclosed, if_neg Bool.false_ne_true, if_neg Bool.false_ne_true, Runs.run_append, ← hhosts]
        by_cases hzero : events - 1 = 0
        · -- the last one that can be read
          rw [if_pos (decide_eq_true hzero), dispatch_of_ready_eq_zero (by omega)]
          exact ⟨hcons, rfl⟩
        · rw [if_neg (by simpa using hzero)]
          refine ih hcons hhalted (by rw [hconnList]; exact hmem') (by rw [hpfds']; exact hdrop)
            (by omega) (by omega) fun hne => ?_
          have h := htail hne
          push_cast at h
          omega
    · rw [if_neg hin, if_neg hin]
      have hcount : ready ((nc, r.revents k) :: ps.zip ((List.range' (k + 1) ps.length).map r.revents)) =
          ready (ps.zip ((List.range' (k + 1) ps.length).map r.revents)) :=
        List.countP_cons_of_neg hin
      rw [hcount] at hready htail
      exact ih hs hh hmem' hdrop hpos hready htail

/-- `handle_client_data`: the pointer to the next connection is still good where it is followed. -/
theorem handleClientData_eq (hs : ns.Consistent S) (hh : ns.halted = false) (r : Round α ν) (events : ℤ) :
    ns.handleClientData S ndevs r events =
      (EachSafe.each (handleConn S ndevs r) (ns, 1, events) ns.connList).1 := by
  unfold handleClientData
  rw [EachSafe.forEachSafe_eq
    (P := fun s l => s.1.Consistent S ∧ s.1.halted = false ∧ ∀ nc ∈ l, nc ∈ s.1.connList)]
  · rintro ⟨ns, k, events⟩ nc ps qs ⟨hs, hh, hmem⟩ hnodes hstays
    have hnodup : ns.connList.Nodup := hs.fds.of_map _
    have hmid : (qs ++ [nc]) ++ ps = ns.connList := by
      rw [List.append_assoc, List.singleton_append]
      exact hnodes.symm
    have hmem' : ∀ p ∈ ps, p ∈ ns.connList := fun p hp => hmem p (List.mem_cons_of_mem nc hp)
    by_cases hpfd : ns.pfds[k]? = some (some nc.fd)
    · rw [handleConn_eq r events hpfd] at hstays ⊢
      by_cases hin : pollin (r.revents k) = true
      · rw [if_pos hin] at hstays ⊢
        have hreceived := netClientData_received ndevs hs hh (hmem nc List.mem_cons_self)
          (r.input nc.fd)
        generalize ns.netClientData S ndevs nc (r.input nc.fd) = result at hreceived hstays ⊢
        obtain ⟨ns', closed⟩ := result
        cases closed with
        | true => cases hstays
        | false =>
          obtain ⟨hhalted, hconnList, -⟩ := hreceived.stays rfl
          refine ⟨⟨hreceived.consistent, hhalted, ?_⟩, qs ++ [nc], ?_⟩
          · show ∀ p ∈ ps, p ∈ ns'.connList
            rw [hconnList]
            exact hmem'
          · show ns'.connList = _ ∧ _
            rw [hconnList, hmid]
            exact ⟨rfl, hnodup⟩
      · rw [if_neg hin]
        exact ⟨⟨hs, hh, hmem'⟩, qs ++ [nc], by rw [hmid]; exact ⟨rfl, hnodup⟩⟩
    · simp only [handleConn, ne_eq, hpfd, not_false_eq_true, if_true] at hstays
      cases hstays
  · exact ⟨hs, hh, fun nc hnc => hnc⟩
  · exact hs.fds.of_map _

variable (ndevs) in
/-- **`handle_client_data`**, with connections behind the polled ones only where each event is of a
connection that can be read. -/
theorem handleClientData_dispatch (hs : ns.Consistent S) (hh : ns.halted = false) (r : Round α ν)
    {ps : List (ClConn α)} (tail : List (ClConn α)) (hl : ns.connList = ps ++ tail) {rest : List (Option ℕ)}
    (hpfds : ns.pfds.drop 1 = (ps.map fun nc => some nc.fd) ++ rest) {events : ℤ} (hpos : 0 ≤ events)
    (hready : (ready (ps.zip ((List.range' 1 ps.length).map r.revents)) : ℤ) ≤ events)
    (htail : tail ≠ [] → (ready (ps.zip ((List.range' 1 ps.length).map r.revents)) : ℤ) = events) :
    (if events ≠ 0 then ns.handleClientData S ndevs r events else ns).Consistent S ∧
      (if events ≠ 0 then ns.handleClientData S ndevs r events else ns).hosts =
        Runs.run (Runs.side (Host.step S ndevs)) ns.hosts
          (dispatch S ndevs r.input ns.hosts (ps.zip ((List.range' 1 ps.length).map r.revents))) := by
  by_cases hzero : events = 0
  · rw [if_neg (not_not.mpr hzero), dispatch_of_ready_eq_zero (by omega)]
    exact ⟨hs, rfl⟩
  · rw [if_pos hzero, handleClientData_eq hs hh, hl]
    exact each_handleConn hs hh (fun nc hnc => hl ▸ List.mem_append_left _ hnc) hpfds (by omega) hready
      htail

/-! ## A round -/

omit [DecidableEq ν] in
theorem Consistent.setPfds (hs : ns.Consistent S) {pfds : List (Option ℕ)}
    (hlen : pfds.length = ns.connList.length + 1) : Consistent S { ns with pfds := pfds } :=
  { nchs := hs.nchs, addrs := hs.addrs, connects := hs.connects, pfds := hlen, fds := hs.fds
    chs := hs.chs, connList := hs.connList, chConnects := hs.chConnects
    used := hs.used, stray := hs.stray, kept := hs.kept, running := hs.running }

omit [DecidableEq ν] in
/-- `net_setup_pfds`. -/
theorem netSetupPfds_eq (hs : ns.Listed) : ns.netSetupPfds =
    { ns with pfds := some ns.listenFd :: ns.connList.map fun nc => some nc.fd } := by
  have hlen : (some ns.listenFd :: ns.connList.map fun nc => some nc.fd).length = ns.pfds.length := by
    rw [List.length_cons, List.length_map, hs.pfds]
  unfold netSetupPfds
  dsimp only
  rw [if_pos hlen.le, hlen, List.drop_length, List.append_nil]

/-- What comes of a connection that is accepted. -/
structure Connected (S : Settings) (ndevs : ℕ) (ns : NetServer α ν) (a : α) (fd : ℕ)
    (r : NetServer α ν) : Prop where
  consistent : r.Consistent S
  hosts : r.hosts = Runs.run (Runs.side (Host.step S ndevs)) ns.hosts [(a, .connect fd)]
  connList : r.connList = ns.connList ++ [⟨fd, a⟩]
  pfds : r.pfds = ns.pfds ++ [none]
  halted : r.halted = ns.halted

omit [DecidableEq ν] in
/-- A host that is new, or one that comes back, begins with nothing. -/
theorem netAddClientHost_hosts (hs : ns.Consistent S) (hh : ns.halted = false) {a : α}
    (ha : a ∉ ns.addrs) : (ns.netAddClientHost a).hosts = ns.hosts := by
  obtain ⟨-, hfds, hgone⟩ := hs.running hh
  obtain ⟨hdevpaths, hclOpens⟩ := hgone a ha
  have hconns : (ns.hosts a).conns = fun _ => none := by
    funext fd
    rw [← Option.not_isSome_iff_eq_none, hfds]
    exact fun hmem => ha (hs.chs _ hmem)
  have hsame : { ns.hosts a with conns := fun _ => none, devpaths := [], clOpens := 0 } = ns.hosts a := by
    rw [← hconns, ← hdevpaths, ← hclOpens]
  show Function.update ns.hosts a { ns.hosts a with conns := fun _ => none, devpaths := [], clOpens := 0 } = _
  rw [hsame, Function.update_eq_self]

omit [DecidableEq α] [DecidableEq ν] in
/-- One entry more, which is not set. -/
theorem reallocPfds_pfds (h : ns.connects = ns.pfds.length) :
    ns.reallocPfds.pfds = ns.pfds ++ [none] := by
  have hn : (ns.connects + 1).toNat = ns.pfds.length + 1 := by omega
  show (ns.pfds ++ List.replicate _ none).take _ = _
  rw [hn, List.take_append, List.take_of_length_le (Nat.le_succ _), Nat.add_sub_cancel_left]
  rfl

variable (ndevs) in
/-- `ch_add_connection`, to a host that is there. -/
theorem chAddConnection_connected (hs : ns.Listed) {a : α} (ha : a ∈ ns.addrs) {fd : ℕ} (hfd : ∀ nc ∈ ns.connList, nc.fd ≠ fd)
    (hused : ∀ b ∈ ns.addrs, b ≠ a → fdsOf b ns.connList ≠ []) (hstray : ns.stray = false)
    (hkept : ∀ b, Kept S (ns.hosts b)) (hrunning : ∀ b, (ns.hosts b).halted = false)
    (hfds : ∀ b fd, ((ns.hosts b).conns fd).isSome ↔ ⟨fd, b⟩ ∈ ns.connList)
    (hgone : ∀ b, b ∉ ns.addrs → (ns.hosts b).devpaths = [] ∧ (ns.hosts b).clOpens = 0) :
    Connected S ndevs ns a fd (ns.chAddConnection a fd) := by
  have haddrs : (ns.chAddConnection a fd).addrs = ns.addrs := by
    show (ns.modifyHost a _).addrs = _
    rw [addrs_modifyHost]
    exact fun _ => rfl
  have hnone : (ns.hosts a).conns fd = none := by
    rw [← Option.not_isSome_iff_eq_none, hfds]
    exact fun hmem => hfd _ hmem rfl
  have hhosts : (ns.chAddConnection a fd).hosts = Function.update ns.hosts a
      { ns.hosts a with conns := Function.update (ns.hosts a).conns fd (some (-1)) } := rfl
  have hstep : (ns.hosts a).step S ndevs (.connect fd) =
      some { ns.hosts a with conns := Function.update (ns.hosts a).conns fd (some (-1)) } := by
    simp only [Host.step, hrunning a, hnone, Bool.false_eq_true, ne_eq, not_true_eq_false, or_self,
      if_false]
  refine ⟨{ hs.chAddConnection ha hfd with used := ?_, stray := hstray, kept := ?_, running := ?_ },
    ?_, rfl, ?_, rfl⟩
  · intro b hb
    show fdsOf b (ns.connList ++ [⟨fd, a⟩]) ≠ []
    rw [fdsOf_append, fdsOf_singleton]
    by_cases hba : b = a
    · rw [if_pos hba.symm]
      simp
    · rw [if_neg (Ne.symm hba), List.append_nil]
      exact hused b (haddrs ▸ hb) hba
  · intro b
    rw [hhosts]
    by_cases hba : b = a
    · rw [hba, Function.update_self]
      exact (hkept a).congr rfl
    · rw [Function.update_of_ne hba]
      exact hkept b
  · intro _
    rw [hhosts, haddrs]
    refine ⟨fun b => ?_, fun b fd' => ?_, fun b hb => ?_⟩
    · by_cases hba : b = a
      · rw [hba, Function.update_self]
        exact hrunning a
      · rw [Function.update_of_ne hba]
        exact hrunning b
    · show _ ↔ _ ∈ ns.connList ++ [⟨fd, a⟩]
      rw [List.mem_append, List.mem_singleton, ClConn.mk.injEq, ← hfds]
      by_cases hba : b = a
      · subst hba
        rw [Function.update_self]
        by_cases hfd' : fd' = fd
        · simp [hfd']
        · simp [hfd']
      · simp [hba]
    · have hba : b ≠ a := by
        rintro rfl
        exact hb ha
      rw [Function.update_of_ne hba]
      exact hgone b hb
  · show _ = (Runs.side (Host.step S ndevs) ns.hosts (a, Act.connect fd)).getD ns.hosts
    rw [hhosts, Runs.side_getD, hstep]
    rfl
  · refine reallocPfds_pfds ?_
    show ns.connects + 1 = ns.pfds.length
    rw [hs.connects, hs.pfds]
    push_cast
    rfl

variable (ndevs) in
/-- **`net_add_connection`.** -/
theorem netAddConnection_connected (hs : ns.Consistent S) (hh : ns.halted = false) {a : α} {fd : ℕ}
    (hfd : ∀ nc ∈ ns.connList, nc.fd ≠ fd) :
    Connected S ndevs ns a fd (ns.netAddConnection (some (a, fd))) := by
  obtain ⟨hrunning, hfds, hgone⟩ := hs.running hh
  by_cases ha : a ∈ ns.addrs
  · have heq : ns.netAddConnection (some (a, fd)) = ns.chAddConnection a fd := by
      unfold netAddConnection
      dsimp only
      rw [if_pos (netFindClientHost_isSome.mpr ha)]
    rw [heq]
    exact chAddConnection_connected ndevs hs.toListed ha hfd (fun b hb _ => hs.used b hb) hs.stray hs.kept
      hrunning hfds hgone
  · have heq : ns.netAddConnection (some (a, fd)) = (ns.netAddClientHost a).chAddConnection a fd := by
      unfold netAddConnection
      dsimp only
      rw [if_neg fun h => ha (netFindClientHost_isSome.mp h)]
    have haddrs : (ns.netAddClientHost a).addrs = ns.addrs ++ [a] := by
      simp [NetServer.addrs, netAddClientHost]
    have hhosts := netAddClientHost_hosts hs hh ha
    rw [heq]
    have hadd := chAddConnection_connected ndevs (hs.toListed.netAddClientHost ha)
      (haddrs ▸ List.mem_append_right _ (List.mem_singleton_self a)) hfd ?_
      hs.stray (hhosts ▸ hs.kept) (hhosts ▸ hrunning) (hhosts ▸ hfds) ?_
    · exact ⟨hadd.consistent, hhosts ▸ hadd.hosts, hadd.connList, hadd.pfds, hadd.halted⟩
    · intro b hb hba
      rw [haddrs, List.mem_append, List.mem_singleton] at hb
      exact hs.used b (hb.resolve_right hba)
    · intro b hb
      rw [haddrs, List.mem_append, not_or] at hb
      rw [hhosts]
      exact hgone b hb.1

omit [DecidableEq α] [DecidableEq ν] in
/-- What can be read is among what there is. -/
theorem ready_polled (ns : NetServer α ν) (r : Round α ν) :
    ready (ns.polled r) = (List.range' 1 ns.connList.length).countP fun k => pollin (r.revents k) := by
  have hlen : ((List.range' 1 ns.connList.length).map r.revents).length ≤ ns.connList.length := by
    rw [List.length_map, List.length_range']
  have hmap : (ns.polled r).map Prod.snd = (List.range' 1 ns.connList.length).map r.revents :=
    List.map_snd_zip hlen
  have hcount : ready (ns.polled r) = ((ns.polled r).map Prod.snd).countP pollin := by
    rw [List.countP_map]
    rfl
  rw [hcount, hmap, List.countP_map]
  rfl

/-- The round leaves the lists as they should be, and has given the hosts what it took. -/
structure Rounded (S : Settings) (ndevs : ℕ) (ns : NetServer α ν) (r : Round α ν)
    (ns' : NetServer α ν) : Prop where
  consistent : ns'.Consistent S
  hosts : ns'.hosts = Runs.run (Runs.side (Host.step S ndevs)) ns.hosts (ns.takes S ndevs r)

theorem pollin_ne_zero {revents : UInt16} (h : pollin revents = true) : revents ≠ 0 := by
  rintro rfl
  exact absurd h (by decide)

variable (ndevs) in
/-- **A round.** -/
theorem round_rounded (hs : ns.Consistent S) {r : Round α ν} (hr : ns.Polled r) :
    Rounded S ndevs ns r ((ns.round S ndevs r).getD ns) := by
  cases hh : ns.halted with
  | true =>
    rw [round, if_pos hh, Option.getD_none]
    exact ⟨hs, by rw [takes, if_pos (.inl hh)]; rfl⟩
  | false =>
    generalize hns₁ : ({ ns with
      pfds := some ns.listenFd :: ns.connList.map fun nc => some nc.fd } : NetServer α ν) = ns₁
    have hs₁ : ns₁.Consistent S := by
      rw [← hns₁]
      exact hs.setPfds (by simp)
    have hh₁ : ns₁.halted = false := by rw [← hns₁]; exact hh
    have hhosts₁ : ns₁.hosts = ns.hosts := by rw [← hns₁]
    have hconnList₁ : ns₁.connList = ns.connList := by rw [← hns₁]
    have hdrop : ns₁.pfds.drop 1 = (ns.connList.map fun nc => some nc.fd) ++ [] := by
      rw [← hns₁, List.append_nil]
      rfl
    have hroom : ¬ (ns₁.pfds.length : ℤ) < ns₁.connects + 1 := by
      rw [hs₁.connects, hs₁.pfds]
      push_cast
      omega
    unfold round
    dsimp only
    rw [if_neg (by rw [hh]; exact Bool.false_ne_true), netSetupPfds_eq hs.toListed, hns₁, if_neg hroom]
    have hidle : r.events ≤ 0 → ns.takes S ndevs r = [] := fun h => by rw [takes, if_pos (.inr h)]
    by_cases hneg : r.events < 0
    · rw [if_pos hneg, Option.getD_some]
      refine ⟨?_, ?_⟩
      · split_ifs
        · exact hs₁
        · exact hs₁.exit
      · rw [hidle hneg.le]
        split_ifs
        · exact hhosts₁
        · exact hhosts₁
    rw [if_neg hneg]
    by_cases hpos : 0 < r.events
    swap
    · rw [if_neg hpos, Option.getD_some]
      exact ⟨hs₁, by rw [hidle (not_lt.mp hpos)]; exact hhosts₁⟩
    rw [if_pos hpos]
    have hevents := hr.events (not_lt.mp hneg)
    rw [List.range_eq_range', List.range'_succ] at hevents
    have hle : ready (ns.polled r) ≤
        (List.range' (0 + 1) ns.connList.length).countP fun k => r.revents k ≠ 0 := by
      rw [ready_polled]
      exact List.countP_mono_left fun k _ hk => by simpa using pollin_ne_zero hk
    have hpolled : ns.polled r = ns₁.connList.zip ((List.range' 1 ns₁.connList.length).map r.revents) := by
      rw [hconnList₁]
      rfl
    have hrunning : ¬ (ns.halted = true ∨ r.events ≤ 0) := by simpa [hh] using hpos
    by_cases hlisten : pollin (r.revents 0) = true
    · rw [if_pos hlisten, Option.getD_some]
      rw [List.countP_cons_of_pos (by simpa using pollin_ne_zero hlisten)] at hevents
      have hone : 1 ≤ r.events := hpos
      cases haccepted : r.accepted with
      | none =>
        have htakes : ns.takes S ndevs r = dispatch S ndevs r.input ns.hosts (ns.polled r) := by
          unfold takes
          rw [if_neg hrunning, if_pos hlisten, haccepted]
          rfl
        obtain ⟨hcons, hhosts⟩ := handleClientData_dispatch ndevs hs₁ hh₁ r []
          (hconnList₁.trans (List.append_nil _).symm) hdrop (Int.sub_nonneg_of_le hone)
          (le_trans (Int.ofNat_le.mpr hle) (by omega)) (fun hne => absurd rfl hne)
        exact ⟨hcons, by rw [htakes, ← hhosts₁]; exact hhosts⟩
      | some came =>
        obtain ⟨a, fd⟩ := came
        have htakes : ns.takes S ndevs r = [(a, Act.connect fd)] ++ dispatch S ndevs r.input
            (Runs.run (Runs.side (Host.step S ndevs)) ns.hosts [(a, Act.connect fd)]) (ns.polled r) := by
          unfold takes
          rw [if_neg hrunning, if_pos hlisten, haccepted]
          rfl
        have hconnected := netAddConnection_connected ndevs hs₁ hh₁ (a := a)
          (hconnList₁ ▸ hr.fresh a fd haccepted)
        generalize ns₁.netAddConnection (some (a, fd)) = ns₂ at hconnected ⊢
        have hdrop₂ : ns₂.pfds.drop 1 = (ns.connList.map fun nc => some nc.fd) ++ [none] := by
          rw [hconnected.pfds, List.drop_append_of_le_length, hdrop, List.append_nil]
          rw [hs₁.pfds]
          exact Nat.le_add_left 1 _
        -- the events that are left are those of the connections, and all of them can be read
        have hall : ready (ns.polled r) =
            (List.range' (0 + 1) ns.connList.length).countP fun k => r.revents k ≠ 0 := by
          rw [ready_polled]
          apply List.countP_congr
          intro k hk
          have hin := hr.readable (by rw [haccepted]; rfl) k hk
          simpa using ⟨pollin_ne_zero, hin⟩
        obtain ⟨hcons, hhosts⟩ := handleClientData_dispatch ndevs hconnected.consistent
          (hconnected.halted.trans hh₁) r _ (hconnList₁ ▸ hconnected.connList) hdrop₂ (Int.sub_nonneg_of_le hone) (le_trans (Int.ofNat_le.mpr hle) (by omega)) fun _ => by
            show (ready (ns.polled r) : ℤ) = _
            omega
        refine ⟨hcons, ?_⟩
        rw [htakes, Runs.run_append, ← hhosts₁, ← hconnected.hosts]
        exact hhosts
    · rw [if_neg hlisten, Option.getD_some]
      have htakes : ns.takes S ndevs r = dispatch S ndevs r.input ns.hosts (ns.polled r) := by
        unfold takes
        rw [if_neg hrunning, if_neg hlisten]
        rfl
      have hcount : (ready (ns.polled r) : ℤ) ≤ r.events := by
        rw [hevents]
        refine Int.ofNat_le.mpr (hle.trans ?_)
        rw [List.countP_cons]
        exact Nat.le_add_right _ _
      obtain ⟨hcons, hhosts⟩ := handleClientData_dispatch ndevs hs₁ hh₁ r []
        (hconnList₁.trans (List.append_nil _).symm) hdrop hpos.le hcount
        (fun hne => absurd rfl hne)
      rw [if_pos hpos.ne'] at hcons hhosts
      exact ⟨hcons, by rw [htakes, ← hhosts₁]; exact hhosts⟩

/-! ## Runs -/

omit [DecidableEq ν] in
theorem consistent_init (fd : ℕ) : Consistent S ({ listenFd := fd } : NetServer α ν) where
  nchs := rfl
  addrs := List.nodup_nil
  connects := rfl
  pfds := rfl
  fds := List.nodup_nil
  chs := fun _ h => absurd h List.not_mem_nil
  connList := fun _ h => absurd h List.not_mem_nil
  chConnects := fun _ h => absurd h List.not_mem_nil
  used := fun _ h => absurd h List.not_mem_nil
  stray := rfl
  kept := fun _ => ⟨List.nodup_nil, fun _ h => absurd h List.not_mem_nil⟩
  running := fun _ => ⟨fun _ => rfl, fun _ _ => by simp, fun _ _ => ⟨rfl, rfl⟩⟩

/-- Round by round. -/
theorem run_rounded (hs : ns.Consistent S) {rounds : List (Round α ν)}
    (hpolled : Runs.Along (round S ndevs) Polled ns rounds) :
    (Runs.run (round S ndevs) ns rounds).Consistent S ∧
      (Runs.run (round S ndevs) ns rounds).hosts =
        Runs.run (Runs.side (Host.step S ndevs)) ns.hosts (ns.served S ndevs rounds) := by
  induction rounds generalizing ns with
  | nil => exact ⟨hs, rfl⟩
  | cons r rounds ih =>
    obtain ⟨hr, hrest⟩ := Runs.along_cons.mp hpolled
    have hround := round_rounded ndevs hs hr
    obtain ⟨hcons, hhosts⟩ := ih hround.consistent hrest
    rw [Runs.run_cons, served, Runs.run_append, ← hround.hosts]
    exact ⟨hcons, hhosts⟩

/-- `revents` of a round, for the entries that `poll` has found. -/
def found (ks : List ℕ) (k : ℕ) : UInt16 := if k ∈ ks then 1 else 0

/-- An open, or a close. -/
def word (len : UInt32) : Input String :=
  .message { butsName := "sda", cpu := 0, maxCpus := 1, len := len } [] {}

/-- Two clients come in; in the last round both are readable, and the first one goes. -/
def twoHosts : List (Round ℕ String) :=
  [{ events := 1, revents := found [0], accepted := some (1, 10) },
    { events := 2, revents := found [0, 1], accepted := some (2, 11), input := fun _ => word 0 },
    { events := 1, revents := found [2], input := fun _ => word 0 },
    { events := 2, revents := found [1, 2], input := fun _ => word 1 }]

theorem twoHosts_polled : Runs.Along (round defaults 0) Polled { listenFd := 3 } twoHosts := by
  decide +kernel

end NetServer

end Blktrace.Server
