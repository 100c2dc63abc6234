import Blktrace.Lib.Handles

/-!
# `blktrace.c`: the connections of a client

One socket for each CPU. When one of them cannot be set up, those that are open are to be closed again.
The loop that does it begins with the one that failed and ends before the first.
-/

namespace Blktrace.Tracer

open Handles

/-! ## The functions -/

/-- What comes of `net_setup_client`. -/
inductive Setup
  | connected | noSocket | refused
deriving DecidableEq

/-- `cl_fds`, as a pointer. -/
inductive ClFds
  | null | allocated | freed
deriving DecidableEq

/-- The sockets of a client, and what `cl_fds` points to. -/
structure Client where
  table : Table := {}
  clFds : ClFds := .null
  fds : ℕ → ℤ := fun _ => 0
  /-- How often it was read behind its `free`. -/
  stale : ℕ := 0

/-- `close`: of a negative descriptor it closes nothing. -/
def Client.close (c : Client) : ℤ → Client
  | .ofNat fd => { c with table := c.table.close fd }
  | .negSucc _ => c

/-- `net_setup_client`. -/
def netSetupClient (A : Allocator) (setup : Setup) (c : Client) : Client × ℤ :=
  let fd := A.next c.table.live
  match setup with
  | .noSocket => (c, -1)
  | .refused => ({ c with table := (c.table.enter fd).close fd }, -1)
  | .connected => ({ c with table := c.table.enter fd }, fd)

section

variable (A : Allocator) (setup : ℕ → Setup)

/-- The loop of `open_client_connections`, with so many CPUs to go: the CPU that it fails at. -/
def openLoop : ℕ → ℕ → Client → Client × Option ℕ
  | 0, _, c => (c, none)
  | left + 1, cpu, c =>
    let (c, fd) := netSetupClient A (setup cpu) c
    let c := { c with fds := Function.update c.fds cpu fd }
    if fd < 0 then (c, some cpu) else openLoop left (cpu + 1) c

/-- `while (cpu > 0) close(cl_fds[cpu--])`. -/
def unwind : ℕ → Client → Client
  | 0, c => c
  | cpu + 1, c => unwind cpu (c.close (c.fds (cpu + 1)))

/-- `open_client_connections`: `true` for the 1 it returns. -/
def openClientConnections (ncpus : ℕ) (c : Client) : Client × Bool :=
  match openLoop A setup ncpus 0 { c with clFds := .allocated, fds := fun _ => 0 } with
  | (c, none) => (c, false)
  | (c, some cpu) => ({ unwind cpu c with clFds := .freed }, true)

/-- The loop of `close_client_connections`, up to a CPU. -/
def closeLoop : ℕ → Client → Client
  | 0, c => c
  | cpu + 1, c =>
    let c := closeLoop cpu c
    if 0 ≤ c.fds cpu then
      let c := c.close (c.fds cpu)
      { c with fds := Function.update c.fds cpu (-1) }
    else c

/-- `close_client_connections`. -/
def closeClientConnections (ncpus : ℕ) (c : Client) : Client :=
  match c.clFds with
  | .null => c
  | .allocated => { closeLoop ncpus c with clFds := .freed }
  | .freed => { c with stale := c.stale + 1 }

/-- `run_tracers`, of a client that sends, as far as the connections go: it returns at once when
`setup_tracer_devpaths` fails. -/
def runTracers (ncpus : ℕ) (c : Client) : Client :=
  match openClientConnections A setup ncpus c with
  | (c, true) => c
  | (c, false) => closeClientConnections ncpus c

/-- The first CPU whose connection cannot be set up. -/
structure FailsAt (ncpus k : ℕ) : Prop where
  lt : k < ncpus
  fails : setup k ≠ .connected
  before : ∀ cpu < k, setup cpu = .connected

/-- **The connections are cleaned up**: from the moment that one has failed the `k` before it are closed,
each once, and nothing else is; `cl_fds` is released, and is not read any more. -/
structure CleansUp (ncpus k : ℕ) (c : Client) : Prop where
  closed : Closed (openLoop A setup ncpus 0 { c with clFds := .allocated, fds := fun _ => 0 }).1.table
    (runTracers A setup ncpus c).table (A.enters k c.table).2
  released : (runTracers A setup ncpus c).clFds = .freed
  unread : (runTracers A setup ncpus c).stale = c.stale

end

/-! ## The loop that opens -/

variable {A : Allocator} {setup : ℕ → Setup}

/-- One socket. -/
def Client.connect (A : Allocator) (cpu : ℕ) (c : Client) : Client :=
  { c with
    table := c.table.enter (A.next c.table.live)
    fds := Function.update c.fds cpu (A.next c.table.live : ℕ) }

theorem openLoop_succ {left cpu : ℕ} (c : Client) (h : setup cpu = .connected) :
    openLoop A setup (left + 1) cpu c = openLoop A setup left (cpu + 1) (c.connect A cpu) := by
  rw [openLoop, h]
  exact if_neg (not_lt.mpr (Int.natCast_nonneg _))

/-- What the loop has done for some CPUs from `cpu` on, when all were connected. -/
structure Connected (A : Allocator) (c c' : Client) (cpu n : ℕ) : Prop where
  table : c'.table = (A.enters n c.table).1
  fds : ∀ i (hi : i < (A.enters n c.table).2.length), c'.fds (cpu + i) = (A.enters n c.table).2[i]
  below : ∀ i < cpu, c'.fds i = c.fds i
  clFds : c'.clFds = c.clFds
  stale : c'.stale = c.stale

theorem openLoop_connected {n : ℕ} (left : ℕ) {cpu : ℕ} (c : Client)
    (h : ∀ i < n, setup (cpu + i) = .connected) :
    ∃ c', openLoop A setup (n + left) cpu c = openLoop A setup left (cpu + n) c' ∧
      Connected A c c' cpu n := by
  refine ⟨{ c with
    table := (A.fill Int.ofNat n cpu (c.table, c.fds)).1
    fds := (A.fill Int.ofNat n cpu (c.table, c.fds)).2 }, ?_, ?_⟩
  · induction n generalizing cpu c with
    | zero =>
      rw [Nat.zero_add, Nat.add_zero]
      rfl
    | succ n ih =>
      have hfirst : setup cpu = .connected := h 0 (Nat.succ_pos n)
      have hrest : ∀ i < n, setup (cpu + 1 + i) = .connected := by
        intro i hi
        rw [Nat.add_assoc, Nat.add_comm 1]
        exact h (i + 1) (Nat.succ_lt_succ hi)
      rw [Nat.succ_add, openLoop_succ c hfirst, ih (c.connect A cpu) hrest, Nat.add_assoc, Nat.add_comm 1]
      rfl
  · exact {
      table := A.fill_table Int.ofNat n cpu _
      fds := fun _ hi => A.fill_entry Int.ofNat n cpu _ hi
      below := fun _ hi => A.fill_below Int.ofNat n hi _
      clFds := rfl
      stale := rfl }

/-- The loop up to the CPU that it fails at. -/
theorem openLoop_fails {ncpus k : ℕ} (h : FailsAt setup ncpus k) (c : Client) :
    ∃ c', openLoop A setup ncpus 0 c = (c', some k) ∧ c'.fds k = -1 ∧
      (∀ i (hi : i < (A.enters k c.table).2.length), c'.fds i = (A.enters k c.table).2[i]) ∧
      c'.table.live = (A.enters k c.table).1.live ∧ c'.stale = c.stale := by
  obtain ⟨left, rfl⟩ := Nat.exists_eq_add_of_lt h.lt
  have hbefore : ∀ i < k, setup (0 + i) = .connected := by
    intro i hi
    rw [Nat.zero_add]
    exact h.before i hi
  obtain ⟨c', hloop, hc'⟩ := openLoop_connected (A := A) (left + 1) c hbefore
  have hfds : ∀ i (hi : i < (A.enters k c.table).2.length), c'.fds i = (A.enters k c.table).2[i] := by
    intro i hi
    rw [← hc'.fds i hi, Nat.zero_add]
  rw [Nat.add_assoc, hloop, Nat.zero_add, openLoop]
  have hlength := A.length_enters k c.table
  cases hk : setup k with
  | connected => exact absurd hk h.fails
  | noSocket =>
    refine ⟨_, if_pos (by decide), Function.update_self .., fun i hi => ?_, ?_, hc'.stale⟩
    · exact (Function.update_of_ne (hlength ▸ hi).ne _ _).trans (hfds i hi)
    · exact congrArg Table.live hc'.table
  | refused =>
    refine ⟨_, if_pos (by decide), Function.update_self .., fun i hi => ?_, ?_, hc'.stale⟩
    · exact (Function.update_of_ne (hlength ▸ hi).ne _ _).trans (hfds i hi)
    · rw [← hc'.table]
      exact Finset.erase_insert (A.fresh _)

/-! ## The loop that closes -/

theorem close_natCast (c : Client) (fd : ℕ) : c.close fd = { c with table := c.table.close fd } := rfl

/-- The loop closes what it reads, from the last to the second. -/
theorem unwind_table (c : Client) (hs : List ℕ)
    (h : ∀ i (hi : i < hs.length), c.fds (i + 1) = hs[i]) :
    (unwind hs.length c).table = c.table.closeAll hs.reverse ∧
      (unwind hs.length c).stale = c.stale := by
  induction hs using List.reverseRecOn generalizing c with
  | nil => exact ⟨rfl, rfl⟩
  | append_singleton hs fd ih =>
    have hlast : c.fds (hs.length + 1) = fd := by
      rw [h hs.length (by simp), List.getElem_concat_length rfl]
    have hrest : ∀ i (hi : i < hs.length), (c.close fd).fds (i + 1) = hs[i] := by
      intro i hi
      rw [close_natCast, h i (by simp; omega), List.getElem_append_left hi]
    obtain ⟨htable, hstale⟩ := ih (c.close fd) hrest
    rw [List.length_append, List.length_singleton, unwind, hlast, htable, hstale, List.reverse_append]
    exact ⟨rfl, rfl⟩

/-- What happens when a connection cannot be set up: of the sockets before it the first stays open. -/
theorem runTracers_fails {ncpus k : ℕ} (h : FailsAt setup ncpus k) (c : Client) :
    (runTracers A setup ncpus c).table =
        (openLoop A setup ncpus 0 { c with clFds := .allocated, fds := fun _ => 0 }).1.table.closeAll
          (A.enters k c.table).2.tail.reverse ∧
      (runTracers A setup ncpus c).clFds = .freed ∧ (runTracers A setup ncpus c).stale = c.stale := by
  obtain ⟨c', hloop, hk, hfds, -, hstale⟩ :=
    openLoop_fails (A := A) h { c with clFds := .allocated, fds := fun _ => 0 }
  unfold runTracers openClientConnections
  rw [hloop]
  dsimp only at hfds hstale ⊢
  have hlength := A.length_enters k c.table
  generalize (A.enters k c.table).2 = hs at *
  cases hs with
  | nil =>
    obtain rfl : 0 = k := hlength
    exact ⟨rfl, rfl, hstale⟩
  | cons fd hs =>
    obtain rfl : hs.length + 1 = k := hlength
    -- the first turn is for the connection that failed, which is no descriptor
    have hturn : unwind (hs.length + 1) c' = unwind hs.length c' := by
      rw [unwind, hk]
      rfl
    have hrest : ∀ i (hi : i < hs.length), c'.fds (i + 1) = hs[i] := by
      intro i hi
      exact hfds (i + 1) (Nat.succ_lt_succ hi)
    obtain ⟨htable, hunread⟩ := unwind_table c' hs hrest
    rw [hturn]
    exact ⟨htable, rfl, hunread.trans hstale⟩

/-- **The first socket stays open**, and all the others are closed. -/
theorem runTracers_leaks {ncpus k : ℕ} (h : FailsAt setup ncpus k) (hk : 0 < k) (c : Client) :
    (runTracers A setup ncpus c).table.live = insert (A.next c.table.live) c.table.live := by
  obtain ⟨htable, -, -⟩ := runTracers_fails (A := A) h c
  obtain ⟨c', hloop, -, -, hlive, -⟩ :=
    openLoop_fails (A := A) h { c with clFds := .allocated, fds := fun _ => 0 }
  obtain ⟨hnodup, hfresh, hall⟩ := A.enters_fresh k c.table
  rw [htable, hloop, Table.closeAll_live, hlive, hall]
  cases k with
  | zero => exact absurd hk (lt_irrefl 0)
  | succ k =>
    rw [Allocator.enters] at hnodup hfresh ⊢
    dsimp only [List.tail_cons] at hnodup hfresh ⊢
    rw [List.nodup_cons] at hnodup
    ext fd
    simp only [Finset.mem_sdiff, Finset.mem_union, List.mem_toFinset, List.mem_cons, List.mem_reverse,
      Finset.mem_insert]
    constructor
    · tauto
    · rintro (rfl | hlive)
      · exact ⟨.inr (.inl rfl), hnodup.1⟩
      · exact ⟨.inl hlive, fun hmem => hfresh fd (List.mem_cons_of_mem _ hmem) hlive⟩

theorem eq_zero_of_cleansUp {ncpus k : ℕ} (h : FailsAt setup ncpus k) {c : Client}
    (hclean : CleansUp A setup ncpus k c) : k = 0 := by
  have hclosed := hclean.closed
  rw [(runTracers_fails h c).1, closed_closeAll] at hclosed
  have hle := hclosed.length_eq
  rw [List.length_reverse, List.length_tail, A.length_enters] at hle
  omega

/-- **`open_client_connections` cleans up** just if the first connection is the one that fails. -/
theorem cleansUp_iff {ncpus k : ℕ} (h : FailsAt setup ncpus k) (c : Client) :
    CleansUp A setup ncpus k c ↔ k = 0 := by
  refine ⟨eq_zero_of_cleansUp h, ?_⟩
  rintro rfl
  obtain ⟨htable, hfreed, hstale⟩ := runTracers_fails (A := A) h c
  refine ⟨?_, hfreed, hstale⟩
  rw [htable, closed_closeAll]
  exact List.Perm.refl _

/-- The server takes so many connections and refuses the next. -/
def takes (k : ℕ) (cpu : ℕ) : Setup := if cpu < k then .connected else .refused

theorem failsAt_takes {ncpus k : ℕ} (h : k < ncpus) : FailsAt (takes k) ncpus k where
  lt := h
  fails := by simp [takes]
  before cpu hcpu := by simp [takes, hcpu]

theorem cleansUp_iff_takes : FailsAt (takes 0) 2 0 ∧ (CleansUp lowest (takes 0) 2 0 {} ↔ 0 = 0) :=
  ⟨failsAt_takes (by decide), cleansUp_iff (failsAt_takes (by decide)) {}⟩

/-- Of two connections the second is refused. -/
theorem not_cleansUp : FailsAt (takes 1) 2 1 ∧ ¬ CleansUp lowest (takes 1) 2 1 {} := by
  have hfails : FailsAt (takes 1) 2 1 := failsAt_takes (by decide)
  refine ⟨hfails, fun hclean => ?_⟩
  exact absurd (eq_zero_of_cleansUp hfails hclean) (by decide)

/-! ## A run that comes to its end -/

theorem closeLoop_table (c : Client) (hs : List ℕ) (h : ∀ i (hi : i < hs.length), c.fds i = hs[i]) :
    (closeLoop hs.length c).table = c.table.closeAll hs ∧
      ∀ i, hs.length ≤ i → (closeLoop hs.length c).fds i = c.fds i := by
  induction hs using List.reverseRecOn with
  | nil => exact ⟨rfl, fun _ _ => rfl⟩
  | append_singleton hs fd ih =>
    have hrest : ∀ i (hi : i < hs.length), c.fds i = hs[i] := by
      intro i hi
      rw [h i (by simp; omega), List.getElem_append_left hi]
    obtain ⟨htable, hbehind⟩ := ih hrest
    have hlast : (closeLoop hs.length c).fds hs.length = fd := by
      rw [hbehind _ (le_refl _), h hs.length (by simp), List.getElem_concat_length rfl]
    rw [List.length_append, List.length_singleton, closeLoop]
    dsimp only
    rw [hlast, if_pos (Int.natCast_nonneg fd), close_natCast]
    constructor
    · rw [htable, Table.closeAll, Table.closeAll, List.foldl_append]
      rfl
    · intro i hi
      exact (Function.update_of_ne (by omega) _ _).trans (hbehind i (by omega))

/-- **All connections set up** are closed at the end, each once. -/
theorem runTracers_closes {ncpus : ℕ} (h : ∀ cpu < ncpus, setup cpu = .connected) (c : Client) :
    (runTracers A setup ncpus c).table.live = c.table.live ∧
      Closed c.table (runTracers A setup ncpus c).table (A.enters ncpus c.table).2 := by
  have hall : ∀ i < ncpus, setup (0 + i) = .connected := by
    intro i hi
    rw [Nat.zero_add]
    exact h i hi
  obtain ⟨c', hloop, hc'⟩ :=
    openLoop_connected (A := A) 0 { c with clFds := .allocated, fds := fun _ => 0 } hall
  obtain ⟨-, hfresh, hlive⟩ := A.enters_fresh ncpus c.table
  have hcloses := A.enters_closes ncpus c.table
  have hlength := A.length_enters ncpus c.table
  have htable := hc'.table
  have hfds := hc'.fds
  simp only [Nat.zero_add] at hfds
  dsimp only at htable hfds
  have hrun : (runTracers A setup ncpus c).table = (closeLoop ncpus c').table := by
    have hopen : openClientConnections A setup ncpus c = (c', false) := by
      rw [openClientConnections, ← Nat.add_zero ncpus, hloop]
      rfl
    rw [runTracers, hopen]
    dsimp only
    rw [closeClientConnections, hc'.clFds]
  generalize (A.enters ncpus c.table).2 = hs at *
  subst hlength
  rw [hrun, (closeLoop_table c' hs hfds).1, htable]
  constructor
  · rw [Table.closeAll_live, hlive, Finset.union_sdiff_right]
    apply Finset.sdiff_eq_self_of_disjoint
    rw [Finset.disjoint_right]
    intro fd hmem
    exact hfresh fd (List.mem_toFinset.mp hmem)
  · exact ⟨hs, by rw [Table.closeAll_closes, hcloses], List.Perm.refl _⟩

end Blktrace.Tracer
