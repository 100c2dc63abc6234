import Blktrace.Server.Hosts

/-!
# The lists of the server

A connection is on two lists, that of its host and that of the server, and each is counted. `Listed`
says that they agree, with `pfds` as long as the server needs it. Every operation keeps it, in the
midst of `net_ch_remove` too, where a host has lost some of its connections but not all.
-/

namespace Blktrace.Server

variable {α ν : Type*} [DecidableEq α]

/-- The descriptors of a host, of those of a list of connections. -/
def fdsOf (a : α) (l : List (ClConn α)) : List ℕ := (l.filter fun nc => nc.ch = a).map ClConn.fd

theorem fdsOf_append (a : α) (l l' : List (ClConn α)) : fdsOf a (l ++ l') = fdsOf a l ++ fdsOf a l' := by
  simp only [fdsOf, List.filter_append, List.map_append]

theorem fdsOf_singleton (a b : α) (fd : ℕ) : fdsOf a [⟨fd, b⟩] = if b = a then [fd] else [] := by
  unfold fdsOf
  split_ifs with hb
  · rw [List.filter_cons_of_pos (by simpa using hb)]
    rfl
  · rw [List.filter_cons_of_neg (by simpa using hb)]
    rfl

theorem mem_fdsOf {a : α} {fd : ℕ} {l : List (ClConn α)} : fd ∈ fdsOf a l ↔ ⟨fd, a⟩ ∈ l := by
  simp only [fdsOf, List.mem_map, List.mem_filter, decide_eq_true_iff]
  constructor
  · rintro ⟨⟨fd', a'⟩, ⟨hnc, rfl⟩, rfl⟩
    exact hnc
  · intro h
    exact ⟨⟨fd, a⟩, ⟨h, rfl⟩, rfl⟩

theorem fdsOf_cons (a : α) (nc : ClConn α) (l : List (ClConn α)) :
    fdsOf a (nc :: l) = if nc.ch = a then nc.fd :: fdsOf a l else fdsOf a l := by
  unfold fdsOf
  split_ifs with hch
  · rw [List.filter_cons_of_pos (by simpa using hch), List.map_cons]
  · rw [List.filter_cons_of_neg (by simpa using hch)]

/-- A connection goes. -/
theorem fdsOf_erase (a b : α) (fd : ℕ) (l : List (ClConn α)) :
    fdsOf a (l.erase ⟨fd, b⟩) = if b = a then (fdsOf a l).erase fd else fdsOf a l := by
  induction l with
  | nil => simp [fdsOf]
  | cons nc l ih =>
    by_cases hnc : nc = ⟨fd, b⟩
    · subst hnc
      rw [List.erase_cons_head, fdsOf_cons]
      split_ifs with hb
      · rw [List.erase_cons_head]
      · rfl
    · rw [List.erase_cons_tail (by simpa using hnc), fdsOf_cons, ih, fdsOf_cons]
      split_ifs with hch hb hb
      · have hfd : nc.fd ≠ fd := by
          rintro rfl
          exact hnc (by rw [hb, ← hch])
        rw [List.erase_cons_tail (by simpa using hfd)]
      · rfl
      · rfl
      · rfl

theorem filter_ne_erase (a : α) (fd : ℕ) (l : List (ClConn α)) :
    (l.erase ⟨fd, a⟩).filter (fun nc => nc.ch ≠ a) = l.filter fun nc => nc.ch ≠ a := by
  induction l with
  | nil => rfl
  | cons nc l ih =>
    by_cases hnc : nc = ⟨fd, a⟩
    · subst hnc
      rw [List.erase_cons_head, List.filter_cons_of_neg (by simp)]
    · rw [List.erase_cons_tail (by simpa using hnc), List.filter_cons, List.filter_cons, ih]

namespace NetServer

/-- The addresses of the hosts. -/
def addrs (ns : NetServer α ν) : List α := ns.chList.map ClHost.clInAddr

/-- The lists agree, and so do the counts. -/
structure Listed (ns : NetServer α ν) : Prop where
  nchs : ns.nchs = ns.chList.length
  addrs : ns.addrs.Nodup
  connects : ns.connects = ns.connList.length
  pfds : ns.pfds.length = ns.connList.length + 1
  fds : (ns.connList.map ClConn.fd).Nodup
  chs : ∀ nc ∈ ns.connList, nc.ch ∈ ns.addrs
  connList : ∀ ch ∈ ns.chList, ch.connList = fdsOf ch.clInAddr ns.connList
  chConnects : ∀ ch ∈ ns.chList, ch.connects = ch.connList.length

variable {ns : NetServer α ν} {a : α}

omit [DecidableEq α] in
theorem length_reallocPfds (ns : NetServer α ν) :
    ns.reallocPfds.pfds.length = (ns.connects + 1).toNat := by
  simp [reallocPfds]

theorem addrs_modifyHost {f : ClHost α → ClHost α} (hf : ∀ ch, (f ch).clInAddr = ch.clInAddr) :
    (ns.modifyHost a f).addrs = ns.addrs := by
  simp only [addrs, modifyHost, List.map_map]
  apply List.map_congr_left
  intro ch _
  simp only [Function.comp_apply]
  split_ifs
  · exact hf ch
  · rfl

theorem forall_modifyHost {f : ClHost α → ClHost α} {p : ClHost α → Prop} :
    (∀ ch ∈ (ns.modifyHost a f).chList, p ch) ↔
      ∀ ch ∈ ns.chList, p (if ch.clInAddr = a then f ch else ch) := by
  simp only [modifyHost, List.forall_mem_map]

/-- `ch_add_connection`. -/
theorem Listed.chAddConnection (hs : ns.Listed) (ha : a ∈ ns.addrs) {fd : ℕ}
    (hfd : ∀ nc ∈ ns.connList, nc.fd ≠ fd) : (ns.chAddConnection a fd).Listed where
  nchs := by
    simpa [NetServer.chAddConnection, reallocPfds, modifyHost] using hs.nchs
  addrs := by
    show (ns.modifyHost a _).addrs.Nodup
    rw [addrs_modifyHost]
    · exact hs.addrs
    · exact fun _ => rfl
  connects := by
    show ns.connects + 1 = ((ns.connList ++ [_]).length : ℤ)
    rw [hs.connects, List.length_append]
    rfl
  pfds := by
    rw [NetServer.chAddConnection, length_reallocPfds]
    show (ns.connects + 1 + 1).toNat = (ns.connList ++ [_]).length + 1
    rw [hs.connects, List.length_append, List.length_singleton]
    omega
  fds := by
    show ((ns.connList ++ [_]).map ClConn.fd).Nodup
    rw [List.map_append, List.nodup_append]
    refine ⟨hs.fds, List.nodup_singleton _, fun x hx y hy => ?_⟩
    obtain ⟨nc, hnc, rfl⟩ := List.mem_map.mp hx
    obtain rfl := List.mem_singleton.mp hy
    exact hfd nc hnc
  chs := by
    show ∀ nc ∈ ns.connList ++ [_], nc.ch ∈ (ns.modifyHost a _).addrs
    rw [addrs_modifyHost, List.forall_mem_append, List.forall_mem_singleton]
    · exact ⟨hs.chs, ha⟩
    · exact fun _ => rfl
  connList := by
    show ∀ ch ∈ (ns.modifyHost a _).chList, ch.connList = fdsOf ch.clInAddr (ns.connList ++ [_])
    rw [forall_modifyHost]
    intro ch hch
    have hold := hs.connList ch hch
    split_ifs with haddr
    · subst haddr
      rw [fdsOf_append, fdsOf_singleton, if_pos rfl, hold]
    · rw [fdsOf_append, fdsOf_singleton, if_neg (Ne.symm haddr), List.append_nil, hold]
  chConnects := by
    show ∀ ch ∈ (ns.modifyHost a _).chList, ch.connects = ch.connList.length
    rw [forall_modifyHost]
    intro ch hch
    have hold := hs.chConnects ch hch
    split_ifs
    · show ch.connects + 1 = ((ch.connList ++ [fd]).length : ℤ)
      rw [hold, List.length_append]
      rfl
    · exact hold

/-- `ch_rem_connection`. -/
theorem Listed.chRemConnection (hs : ns.Listed) {fd : ℕ} (hfd : ⟨fd, a⟩ ∈ ns.connList) :
    (ns.chRemConnection a fd).Listed where
  nchs := by
    simpa [NetServer.chRemConnection, reallocPfds, modifyHost] using hs.nchs
  addrs := by
    show (ns.modifyHost a _).addrs.Nodup
    rw [addrs_modifyHost]
    · exact hs.addrs
    · exact fun _ => rfl
  connects := by
    show ns.connects - 1 = ((ns.connList.erase _).length : ℤ)
    have hpos := List.length_pos_of_mem hfd
    rw [hs.connects, List.length_erase_of_mem hfd]
    omega
  pfds := by
    rw [NetServer.chRemConnection, length_reallocPfds]
    show (ns.connects - 1 + 1).toNat = (ns.connList.erase _).length + 1
    have hpos := List.length_pos_of_mem hfd
    rw [hs.connects, List.length_erase_of_mem hfd]
    omega
  fds := hs.fds.sublist (List.erase_sublist.map _)
  chs := by
    show ∀ nc ∈ ns.connList.erase _, nc.ch ∈ (ns.modifyHost a _).addrs
    rw [addrs_modifyHost]
    · exact fun nc hnc => hs.chs nc (List.mem_of_mem_erase hnc)
    · exact fun _ => rfl
  connList := by
    show ∀ ch ∈ (ns.modifyHost a _).chList, ch.connList = fdsOf ch.clInAddr (ns.connList.erase _)
    rw [forall_modifyHost]
    intro ch hch
    have hold := hs.connList ch hch
    rw [fdsOf_erase]
    split_ifs with haddr h h
    · rw [hold]
    · exact absurd haddr.symm h
    · exact absurd h.symm haddr
    · exact hold
  chConnects := by
    show ∀ ch ∈ (ns.modifyHost a _).chList, ch.connects = ch.connList.length
    rw [forall_modifyHost]
    intro ch hch
    have hold := hs.chConnects ch hch
    split_ifs with haddr
    · have hmem : fd ∈ ch.connList := by
        rw [hs.connList ch hch, haddr]
        exact mem_fdsOf.mpr hfd
      have hpos := List.length_pos_of_mem hmem
      show ch.connects - 1 = ((ch.connList.erase fd).length : ℤ)
      rw [hold, List.length_erase_of_mem hmem]
      omega
    · exact hold

/-- `net_add_client_host`. -/
theorem Listed.netAddClientHost (hs : ns.Listed) (ha : a ∉ ns.addrs) : (ns.netAddClientHost a).Listed where
  nchs := by
    show ns.nchs + 1 = ((ns.chList ++ [_]).length : ℤ)
    rw [hs.nchs, List.length_append]
    rfl
  addrs := by
    show ((ns.chList ++ [_]).map ClHost.clInAddr).Nodup
    rw [List.map_append, List.nodup_append]
    refine ⟨hs.addrs, List.nodup_singleton _, fun x hx y hy => ?_⟩
    obtain rfl := List.mem_singleton.mp hy
    exact ne_of_mem_of_not_mem hx ha
  connects := hs.connects
  pfds := hs.pfds
  fds := hs.fds
  chs := by
    intro nc hnc
    show nc.ch ∈ (ns.chList ++ [_]).map ClHost.clInAddr
    rw [List.map_append]
    exact List.mem_append_left _ (hs.chs nc hnc)
  connList := by
    show ∀ ch ∈ ns.chList ++ [_], ch.connList = fdsOf ch.clInAddr ns.connList
    rw [List.forall_mem_append, List.forall_mem_singleton]
    refine ⟨hs.connList, ?_⟩
    symm
    rw [List.eq_nil_iff_forall_not_mem]
    exact fun fd hfd => ha (hs.chs _ (mem_fdsOf.mp hfd))
  chConnects := by
    show ∀ ch ∈ ns.chList ++ [_], ch.connects = ch.connList.length
    rw [List.forall_mem_append, List.forall_mem_singleton]
    exact ⟨hs.chConnects, rfl⟩

/-- A host without connections is taken from the list. -/
theorem Listed.unlink (hs : ns.Listed) (ha : a ∈ ns.addrs) (hnone : fdsOf a ns.connList = []) :
    Listed { ns with
      chList := ns.chList.eraseP fun ch => ch.clInAddr = a
      nchs := ns.nchs - 1 } ∧
    (ns.chList.eraseP fun ch => ch.clInAddr = a).map ClHost.clInAddr = ns.addrs.erase a := by
  have hmap : (ns.chList.eraseP fun ch => ch.clInAddr = a).map ClHost.clInAddr = ns.addrs.erase a := by
    rw [NetServer.addrs, List.erase_eq_eraseP, List.eraseP_map]
    congr 2
    funext ch
    simp [Bool.beq_eq_decide_eq, eq_comm]
  have hlen : (ns.chList.eraseP fun ch => ch.clInAddr = a).length + 1 = ns.chList.length := by
    have h := List.length_erase_of_mem ha
    have hpos := List.length_pos_of_mem ha
    rw [← hmap, List.length_map, NetServer.addrs, List.length_map] at h
    rw [NetServer.addrs, List.length_map] at hpos
    omega
  refine ⟨⟨?_, ?_, hs.connects, hs.pfds, hs.fds, ?_, ?_, ?_⟩, hmap⟩
  · show ns.nchs - 1 = _
    rw [hs.nchs, ← hlen]
    simp
  · show ((ns.chList.eraseP fun ch => ch.clInAddr = a).map ClHost.clInAddr).Nodup
    rw [hmap]
    exact hs.addrs.erase a
  · intro nc hnc
    show nc.ch ∈ (ns.chList.eraseP fun ch => ch.clInAddr = a).map ClHost.clInAddr
    rw [hmap]
    refine (List.mem_erase_of_ne fun hch => ?_).mpr (hs.chs nc hnc)
    have hmem : nc.fd ∈ fdsOf a ns.connList := mem_fdsOf.mpr (hch ▸ hnc)
    rw [hnone] at hmem
    cases hmem
  · exact fun ch hch => hs.connList ch (List.mem_of_mem_eraseP hch)
  · exact fun ch hch => hs.chConnects ch (List.mem_of_mem_eraseP hch)

/-- A host that is on the list is found. -/
theorem netFindClientHost_of_mem (ha : a ∈ ns.addrs) :
    ∃ ch ∈ ns.chList, ns.netFindClientHost a = some ch ∧ ch.clInAddr = a := by
  obtain ⟨ch, hch, rfl⟩ := List.mem_map.mp ha
  cases hfind : ns.netFindClientHost ch.clInAddr with
  | none => exact absurd (List.find?_eq_none.mp hfind ch hch) (by simp)
  | some ch' => exact ⟨ch', List.mem_of_find?_eq_some hfind, rfl, by simpa using List.find?_some hfind⟩

theorem netFindClientHost_isSome : (ns.netFindClientHost a).isSome ↔ a ∈ ns.addrs := by
  simp [netFindClientHost, addrs, List.find?_isSome]

theorem Listed.connsOf (hs : ns.Listed) (ha : a ∈ ns.addrs) :
    connsOf a ns = fdsOf a ns.connList := by
  obtain ⟨ch, hch, hfind, rfl⟩ := netFindClientHost_of_mem ha
  rw [NetServer.connsOf, hfind, ← hs.connList ch hch]
  rfl

theorem Listed.nodup_fdsOf (hs : ns.Listed) (a : α) : (fdsOf a ns.connList).Nodup :=
  hs.fds.sublist (List.filter_sublist.map _)

/-- What `net_ch_remove` has come to, with these connections of the host left. -/
structure Removing (ns₀ : NetServer α ν) (a : α) (ns : NetServer α ν) (ps : List ℕ) : Prop where
  listed : ns.Listed
  left : fdsOf a ns.connList = ps
  others : ns.connList.filter (fun nc => nc.ch ≠ a) = ns₀.connList.filter fun nc => nc.ch ≠ a
  addrs : ns.addrs = ns₀.addrs
  hosts : ns.hosts = ns₀.hosts
  stray : ns.stray = ns₀.stray
  halted : ns.halted = ns₀.halted

/-- A pass of its loop. -/
theorem Removing.step {ns₀ : NetServer α ν} {p : ℕ} {ps : List ℕ} (h : Removing ns₀ a ns (p :: ps)) :
    Removing ns₀ a (ns.chRemConnection a p) ps := by
  have hmem : (⟨p, a⟩ : ClConn α) ∈ ns.connList := by
    rw [← mem_fdsOf, h.left]
    exact List.mem_cons_self
  refine ⟨h.listed.chRemConnection hmem, ?_, ?_, ?_, h.hosts, h.stray, h.halted⟩
  · show fdsOf a (ns.connList.erase ⟨p, a⟩) = ps
    rw [fdsOf_erase, if_pos rfl, h.left, List.erase_cons_head]
  · exact (filter_ne_erase a p ns.connList).trans h.others
  · show (ns.modifyHost a _).addrs = _
    rw [addrs_modifyHost]
    · exact h.addrs
    · exact fun _ => rfl

theorem Removing.each {ns₀ : NetServer α ν} {ps : List ℕ} (h : Removing ns₀ a ns ps) :
    Removing ns₀ a (EachSafe.each (fun ns fd => (ns.chRemConnection a fd, false)) ns ps) [] := by
  induction ps generalizing ns with
  | nil => exact h
  | cons p ps ih => exact ih h.step

/-- **`net_ch_remove`**: the host goes, and its connections, in a loop over a list that they go from. -/
theorem Listed.netChRemove (hs : ns.Listed) (ha : a ∈ ns.addrs) :
    (ns.netChRemove a).Listed ∧
      (ns.netChRemove a).connList = ns.connList.filter (fun nc => nc.ch ≠ a) ∧
      (ns.netChRemove a).addrs = ns.addrs.erase a ∧ (ns.netChRemove a).hosts = ns.hosts ∧
      (ns.netChRemove a).stray = ns.stray ∧ (ns.netChRemove a).halted = ns.halted := by
  have hstart : Removing ns a ns (NetServer.connsOf a ns) :=
    ⟨hs, (hs.connsOf ha).symm, rfl, rfl, rfl, rfl, rfl⟩
  have hloop : EachSafe.forEachSafe (NetServer.connsOf a)
      (fun ns fd => (NetServer.chRemConnection ns a fd, false)) astray ns =
      EachSafe.each (fun ns fd => (NetServer.chRemConnection ns a fd, false)) ns (NetServer.connsOf a ns) := by
    apply EachSafe.forEachSafe_eq (P := Removing ns a) _ hstart
    · rw [hs.connsOf ha]
      exact hs.nodup_fdsOf a
    · intro ns' p ps qs h _ _
      have hnext := h.step
      have hconns := (hnext.listed.connsOf (hnext.addrs ▸ ha)).trans hnext.left
      refine ⟨hnext, [], hconns, ?_⟩
      have hnodup := hnext.listed.nodup_fdsOf a
      rw [hnext.left] at hnodup
      exact hnodup
  unfold NetServer.netChRemove
  rw [hloop]
  have hend := hstart.each
  generalize EachSafe.each _ ns _ = ns' at hend ⊢
  obtain ⟨hlisted, haddrs⟩ := hend.listed.unlink (hend.addrs ▸ ha) hend.left
  refine ⟨hlisted, ?_, ?_, hend.hosts, hend.stray, hend.halted⟩
  · show ns'.connList = _
    rw [← hend.others, eq_comm, List.filter_eq_self]
    intro nc hnc
    have hne : nc.ch ≠ a := by
      rintro rfl
      have hmem : nc.fd ∈ fdsOf nc.ch ns'.connList := mem_fdsOf.mpr hnc
      rw [hend.left] at hmem
      cases hmem
    simpa using hne
  · rw [← hend.addrs]
    exact haddrs

end NetServer

end Blktrace.Server
