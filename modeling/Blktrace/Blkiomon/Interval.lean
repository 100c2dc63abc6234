import Blktrace.Lib.Ledger
import Blktrace.Lib.Runs
import Blktrace.Blkiomon.Dstat

/-!
# The two threads of `blkiomon`

The gathering thread looks the record of a device up under the mutex and makes its updates after
it has given the mutex back. The interval thread takes the records of the interval over, prints
them, converts them in place, writes them and puts them back for new use. All of this is a step each,
and a scheduler chooses whose step is next.
-/

namespace Blktrace.Blkiomon

def minmaxToBe (mm : Minmax) : Minmax where
  sum := bswap64 mm.sum
  sos := bswap64 mm.sos
  min := bswap64 mm.min
  max := bswap64 mm.max
  num := bswap64 mm.num

/-- `blkiomon_stat_to_be`. -/
def blkiomonStatToBe (p : BlkiomonStat) : BlkiomonStat where
  sizeHist i := bswap32 (p.sizeHist i)
  d2cHist i := bswap32 (p.d2cHist i)
  sizeR := minmaxToBe p.sizeR
  sizeW := minmaxToBe p.sizeW
  d2cR := minmaxToBe p.d2cR
  d2cW := minmaxToBe p.d2cW
  thrputR := minmaxToBe p.thrputR
  thrputW := minmaxToBe p.thrputW
  bidir := bswap64 p.bidir
  time := bswap64 p.time
  device := bswap32 p.device

/-- Where `blkiomon_interval` is: `head` is the list that it took over, `rest` what `blkiomon_output`
has not come to. -/
inductive Interval
  | sleeping
  | swapped (finished : Bool) (wake : UInt64)
  | printing (wake : UInt64) (head rest : List ℕ)
  | converting (wake : UInt64) (head : List ℕ) (i : ℕ) (rest : List ℕ)
  | writing (wake : UInt64) (head : List ℕ) (i : ℕ) (rest : List ℕ)

/-- The records that the interval thread has taken over. -/
def Interval.head : Interval → List ℕ
  | sleeping | swapped _ _ => []
  | printing _ head _ | converting _ head _ _ | writing _ head _ _ => head

/-- Those it has not begun to emit, -/
def Interval.unprinted : Interval → List ℕ
  | sleeping | swapped _ _ => []
  | printing _ _ rest | converting _ _ _ rest | writing _ _ _ rest => rest

/-- and those it has not written. -/
def Interval.unwritten : Interval → List ℕ
  | sleeping | swapped _ _ => []
  | printing _ _ rest => rest
  | converting _ _ i rest | writing _ _ i rest => i :: rest

/-- The record that is emitted next. -/
def Interval.next : Interval → Option ℕ
  | printing _ _ (i :: _) => some i
  | _ => none

/-- Both threads and what has come of them: `gather` is the record that `blkiomon_account` holds, with
the updates it still has to make. -/
structure Threads where
  dstats : Dstats := {}
  gather : Option (ℕ × List (BlkiomonStat → BlkiomonStat)) := none
  interval : Interval := .sleeping
  human : List BlkiomonStat := []
  binary : List BlkiomonStat := []
  matched : List Pair := []
  exited : Bool := false

inductive Act
  | account (malloc : Bool) (p : Pair)
  | update
  | interval (wake : UInt64)
  | exit

namespace Threads

/-- `blkiomon_get_dstat`: a pair without a record is passed over. -/
def account (malloc : Bool) (p : Pair) (s : Threads) : Threads :=
  match blkiomonGetDstat malloc s.dstats p.d.device with
  | none => { s with matched := s.matched ++ [p] }
  | some (i, dstats) =>
    { s with dstats, gather := some (i, accountUpdates p.d p.c), matched := s.matched ++ [p] }

/-- Memory is written at record `i`. -/
def poke (s : Threads) (i : ℕ) (f : BlkiomonStat → BlkiomonStat) : Threads :=
  { s with dstats := { s.dstats with mem := Function.update s.dstats.mem i (f (s.dstats.mem i)) } }

/-- The next step of `blkiomon_interval`. -/
def intervalStep (wake : UInt64) (s : Threads) : Threads :=
  match s.interval with
  | .sleeping =>
    { s with
      dstats := { s.dstats with curr := !s.dstats.curr }
      interval := .swapped s.dstats.curr wake }
  | .swapped finished wake =>
    match s.dstats.list finished with
    | [] => { s with interval := .sleeping }
    | i :: rest =>
      { s with
        dstats := { s.dstats with
          list := Function.update s.dstats.list finished []
          tree := Function.update s.dstats.tree finished [] }
        interval := .printing wake (i :: rest) (i :: rest) }
  | .printing _ head [] =>
    { s with
      dstats := { s.dstats with vacant := head ++ s.dstats.vacant }
      interval := .sleeping }
  | .printing wake head (i :: rest) =>
    let s := s.poke i fun p => { p with time := wake }
    { s with human := s.human ++ [s.dstats.mem i], interval := .converting wake head i rest }
  | .converting wake head i rest =>
    { s.poke i blkiomonStatToBe with interval := .writing wake head i rest }
  | .writing wake head i rest =>
    { s with binary := s.binary ++ [s.dstats.mem i], interval := .printing wake head rest }

/-- `main` returns when `blkiomon_do_fifo` does, and the interval thread with it. -/
def step (s : Threads) : Act → Option Threads
  | .account malloc p => if s.exited ∨ s.gather.isSome then none else some (s.account malloc p)
  | .update =>
    match s.exited, s.gather with
    | false, some (i, f :: todo) =>
      some { s.poke i f with gather := if todo.isEmpty then none else some (i, todo) }
    | _, _ => none
  | .interval wake => if s.exited then none else some (s.intervalStep wake)
  | .exit => if s.exited ∨ s.gather.isSome then none else some { s with exited := true }

/-! ## What is to be handed over -/

/-- The records that wait to be printed, and to be written. -/
def unprinted (s : Threads) : List ℕ :=
  s.dstats.list false ++ s.dstats.list true ++ s.interval.unprinted

def unwritten (s : Threads) : List ℕ :=
  s.dstats.list false ++ s.dstats.list true ++ s.interval.unwritten

end Threads

/-- A report, in the byte order of `image`, is the statistics of these pairs of one device. -/
def ReportOf (image : BlkiomonStat → BlkiomonStat) (r : BlkiomonStat) (pairs : List Pair) : Prop :=
  ∃ device time, r = image { statOf device pairs with time } ∧ ∀ p ∈ pairs, p.d.device = device

/-- Each report is the statistics of some pairs, no pair is in two reports, and when no record waits
each pair is in one; none waits when the program ends. -/
structure HandsOver (s : Threads) : Prop where
  human : Ledger.Reported (ReportOf id) s.human (s.gather = none ∧ s.unprinted = []) s.matched
  binary :
    Ledger.Reported (ReportOf blkiomonStatToBe) s.binary (s.gather = none ∧ s.unwritten = [])
      s.matched
  exited : s.exited = true → s.unprinted = [] ∧ s.unwritten = []

/-- There is memory for a record, a record is not emitted while updates of it are to be made, and
the program does not end while records wait. -/
def Threads.Orderly (s : Threads) : Act → Prop
  | .account malloc p => (blkiomonGetDstat malloc s.dstats p.d.device).isSome
  | .update => True
  | .interval _ => ∀ i ∈ s.interval.next, ∀ g ∈ s.gather, i ≠ g.1
  | .exit => s.unwritten = []

instance (s : Threads) (a : Act) : Decidable (s.Orderly a) := by
  cases a <;> unfold Threads.Orderly <;> infer_instance

/-! ## The invariant -/

namespace Threads

/-- A record, once the gathering thread has made its updates. -/
def settled (s : Threads) (i : ℕ) : BlkiomonStat :=
  match s.gather with
  | some (j, todo) => if i = j then todo.foldl (fun p f => f p) (s.dstats.mem i) else s.dstats.mem i
  | none => s.dstats.mem i

/-- The record that is being emitted is a report already. -/
def Emits (s : Threads) (book : ℕ → List Pair) : Prop :=
  match s.interval with
  | .converting _ _ i _ => ReportOf id (s.dstats.mem i) (book i)
  | .writing _ _ i _ => ReportOf blkiomonStatToBe (s.dstats.mem i) (book i)
  | _ => True

/-- A record that waits will be the statistics of what is booked on it. -/
def Keeps (s : Threads) (book : ℕ → List Pair) (i : ℕ) : Prop :=
  ∃ device, s.settled i = statOf device (book i) ∧ ∀ p ∈ book i, p.d.device = device

/-- The records that the interval thread has not begun to emit hold what is booked on them, and all
pairs are booked or reported. -/
structure Inv (s : Threads) (book : ℕ → List Pair) : Prop where
  trees : s.dstats.tree = s.dstats.list
  pooled : s.dstats.Pooled (s.dstats.list false ++ s.dstats.list true ++ s.interval.head)
  suffix : s.interval.unwritten <:+ s.interval.head
  gather : ∀ i todo, s.gather = some (i, todo) → i ∈ s.unprinted
  keeps : ∀ i ∈ s.unprinted, s.Keeps book i
  emits : s.Emits book
  human : Ledger.Balanced (ReportOf id) s.human s.unprinted book s.matched
  binary : Ledger.Balanced (ReportOf blkiomonStatToBe) s.binary s.unwritten book s.matched
  exited : s.exited = true → s.unwritten = []

theorem inv_init : Inv {} fun _ => [] where
  trees := rfl
  pooled := ⟨List.nodup_nil, nofun⟩
  suffix := List.suffix_refl []
  gather := nofun
  keeps := nofun
  emits := trivial
  human := Ledger.balanced_nil
  binary := Ledger.balanced_nil
  exited := nofun

variable {s : Threads} {book : ℕ → List Pair}

theorem unprinted_suffix (v : Interval) : v.unprinted <:+ v.unwritten := by
  cases v with
  | converting _ _ i rest => exact List.suffix_cons i rest
  | writing _ _ i rest => exact List.suffix_cons i rest
  | sleeping => exact List.suffix_refl _
  | swapped => exact List.suffix_refl _
  | printing => exact List.suffix_refl _

theorem unprinted_sublist (s : Threads) : s.unprinted.Sublist s.unwritten :=
  (unprinted_suffix s.interval).sublist.append_left _

theorem Inv.sublist (h : s.Inv book) : s.unwritten.Sublist
    (s.dstats.list false ++ s.dstats.list true ++ s.interval.head) :=
  h.suffix.sublist.append_left _

theorem Inv.nodup (h : s.Inv book) :
    (s.dstats.list false ++ s.dstats.list true ++ s.interval.head).Nodup :=
  h.pooled.nodup.sublist (List.sublist_append_left _ _)

theorem Inv.handsOver (h : s.Inv book) : HandsOver s where
  human := h.human.reported And.right
  binary := h.binary.reported And.right
  exited he := by
    have hnil := h.exited he
    refine ⟨List.sublist_nil.mp ?_, hnil⟩
    rw [← hnil]
    exact unprinted_sublist s

/-! ### The interval thread -/

theorem Inv.swap {wake : UInt64} (h : s.Inv book) (hv : s.interval = .sleeping) :
    (s.intervalStep wake).Inv book := by
  obtain ⟨dstats, gather, interval, human, binary, matched, exited⟩ := s
  cases hv
  exact { h with pooled := ⟨h.pooled.nodup, h.pooled.below⟩ }

theorem Inv.recycle {wake w : UInt64} {head : List ℕ} (h : s.Inv book)
    (hv : s.interval = .printing w head []) : (s.intervalStep wake).Inv book := by
  obtain ⟨dstats, gather, interval, human, binary, matched, exited⟩ := s
  cases hv
  refine { h with pooled := ⟨?_, ?_⟩, suffix := List.suffix_refl [] }
  · have hnodup := h.pooled.nodup
    simpa [intervalStep, Interval.head, List.append_assoc] using hnodup
  · have hbelow := h.pooled.below
    simpa [intervalStep, Interval.head, List.append_assoc] using hbelow

theorem settled_of_none (hnone : s.gather = none) (i : ℕ) : s.settled i = s.dstats.mem i := by
  rw [settled, hnone]

theorem settled_poke {i j : ℕ} (hne : j ≠ i) (f : BlkiomonStat → BlkiomonStat) :
    (s.poke i f).settled j = s.settled j := by
  have hmem : (s.poke i f).dstats.mem j = s.dstats.mem j := Function.update_of_ne hne _ _
  rw [settled, settled, hmem]
  rfl

theorem Keeps.poke {i j : ℕ} (h : s.Keeps book j) (hne : j ≠ i)
    (f : BlkiomonStat → BlkiomonStat) : (s.poke i f).Keeps book j := by
  rw [Keeps, settled_poke hne]
  exact h

theorem perm_grab (list : Bool → List ℕ) (finished : Bool) :
    (Function.update list finished [] false ++ Function.update list finished [] true ++
      list finished).Perm (list false ++ list true) := by
  cases finished with
  | false => simpa using List.perm_append_comm
  | true => simp

theorem Inv.grab {wake w : UInt64} {finished : Bool} (h : s.Inv book)
    (hv : s.interval = .swapped finished w) (hrun : s.exited = false) :
    (s.intervalStep wake).Inv book := by
  obtain ⟨dstats, gather, interval, human, binary, matched, exited⟩ := s
  cases hv
  cases hrun
  have hperm := perm_grab dstats.list finished
  unfold intervalStep
  cases hlist : dstats.list finished with
  | nil =>
    simp only [hlist]
    exact { h with pooled := h.pooled }
  | cons i rest =>
    rw [hlist] at hperm
    simp only [hlist]
    have hopen : (unprinted ⟨dstats, gather, .swapped finished w, human, binary, matched, false⟩).Perm
        (Function.update dstats.list finished [] false ++
          Function.update dstats.list finished [] true ++ (i :: rest)) := by
      simpa [unprinted, Interval.unprinted] using hperm.symm
    refine
      { h with
        trees := ?_
        pooled := ⟨?_, ?_⟩
        suffix := List.suffix_refl _
        gather := fun j todo hj => hopen.mem_iff.mp (h.gather j todo hj)
        keeps := fun j hj => h.keeps j (hopen.mem_iff.mpr hj)
        human := h.human.congr hopen fun _ _ => rfl
        binary := h.binary.congr hopen fun _ _ => rfl
        exited := nofun }
    · show Function.update dstats.tree finished [] = Function.update dstats.list finished []
      rw [h.trees]
    · exact ((hopen.append_right _).nodup_iff).mp h.pooled.nodup
    · intro j hj
      exact h.pooled.below j (((hopen.append_right _).mem_iff).mpr hj)

/-- The order of the records that wait, with the one that is emitted next in front. -/
theorem perm_front (as bs rest : List ℕ) (i : ℕ) :
    (as ++ bs ++ i :: rest).Perm (i :: (as ++ bs ++ rest)) := List.perm_middle

theorem Inv.print {wake w : UInt64} {head rest : List ℕ} {i : ℕ} (h : s.Inv book)
    (hv : s.interval = .printing w head (i :: rest)) (hrun : s.exited = false)
    (hheld : ∀ j todo, s.gather = some (j, todo) → i ≠ j) : (s.intervalStep wake).Inv book := by
  obtain ⟨dstats, gather, interval, human, binary, matched, exited⟩ := s
  cases hv
  cases hrun
  have hfront := perm_front (dstats.list false) (dstats.list true) rest i
  have hnot : i ∉ dstats.list false ++ dstats.list true ++ rest :=
    (List.nodup_cons.mp (hfront.nodup_iff.mp (h.nodup.sublist h.sublist))).1
  have hmem : ∀ j ∈ dstats.list false ++ dstats.list true ++ rest,
      j ∈ dstats.list false ++ dstats.list true ++ i :: rest ∧ j ≠ i := by
    intro j hj
    refine ⟨hfront.mem_iff.mpr (List.mem_cons_of_mem i hj), ?_⟩
    rintro rfl
    exact hnot hj
  -- the record is what it will be, since no update of it is to be made
  obtain ⟨device, hstat, hdev⟩ := h.keeps i (hfront.mem_iff.mpr List.mem_cons_self)
  have hsettled : settled ⟨dstats, gather, .printing w head (i :: rest), human, binary, matched,
      false⟩ i = dstats.mem i := by
    unfold settled
    cases gather with
    | none => rfl
    | some g => exact if_neg (hheld g.1 g.2 rfl)
  rw [hsettled] at hstat
  have hreport : ReportOf id { dstats.mem i with time := w } (book i) :=
    ⟨device, w, by rw [hstat]; rfl, hdev⟩
  refine
    { h with
      pooled := ⟨h.pooled.nodup, h.pooled.below⟩
      gather := fun j todo hj => ?_
      keeps := fun j hj => (h.keeps j (hmem j hj).1).poke (hmem j hj).2 fun p => { p with time := w }
      emits := ?_
      human := ?_
      exited := nofun }
  · have hj' := hfront.mem_iff.mp (h.gather j todo hj)
    exact (List.mem_cons.mp hj').resolve_left (Ne.symm (hheld j todo hj))
  · show ReportOf id (Function.update dstats.mem i _ i) (book i)
    rw [Function.update_self]
    exact hreport
  · show Ledger.Balanced _ (human ++ [Function.update dstats.mem i _ i]) _ _ _
    rw [Function.update_self]
    exact h.human.close hfront hreport

theorem Inv.convert {wake w : UInt64} {head rest : List ℕ} {i : ℕ} (h : s.Inv book)
    (hv : s.interval = .converting w head i rest) : (s.intervalStep wake).Inv book := by
  obtain ⟨dstats, gather, interval, human, binary, matched, exited⟩ := s
  cases hv
  have hfront := perm_front (dstats.list false) (dstats.list true) rest i
  have hnot : i ∉ dstats.list false ++ dstats.list true ++ rest :=
    (List.nodup_cons.mp (hfront.nodup_iff.mp (h.nodup.sublist h.sublist))).1
  obtain ⟨device, time, hmem, hdev⟩ := h.emits
  refine
    { h with
      pooled := ⟨h.pooled.nodup, h.pooled.below⟩
      keeps := fun j hj => (h.keeps j hj).poke (fun hji => hnot (by rw [← hji]; exact hj))
        blkiomonStatToBe
      emits := ⟨device, time, ?_, hdev⟩ }
  show Function.update dstats.mem i (blkiomonStatToBe (dstats.mem i)) i = _
  rw [Function.update_self]
  exact congrArg blkiomonStatToBe hmem

theorem Inv.write {wake w : UInt64} {head rest : List ℕ} {i : ℕ} (h : s.Inv book)
    (hv : s.interval = .writing w head i rest) (hrun : s.exited = false) :
    (s.intervalStep wake).Inv book := by
  obtain ⟨dstats, gather, interval, human, binary, matched, exited⟩ := s
  cases hv
  cases hrun
  exact
    { h with
      pooled := ⟨h.pooled.nodup, h.pooled.below⟩
      suffix := (List.suffix_cons i rest).trans h.suffix
      emits := trivial
      binary := h.binary.close (perm_front _ _ _ _) h.emits
      exited := nofun }

/-- **The interval thread** takes a step. -/
theorem Inv.intervalStep {wake : UInt64} (h : s.Inv book) (hrun : s.exited = false)
    (hok : s.Orderly (.interval wake)) : (s.intervalStep wake).Inv book := by
  cases hv : s.interval with
  | sleeping => exact h.swap hv
  | swapped finished w => exact h.grab hv hrun
  | printing w head rest =>
    cases rest with
    | nil => exact h.recycle hv
    | cons i rest =>
      rw [Orderly, hv] at hok
      exact h.print hv hrun fun j todo hj => hok i rfl (j, todo) hj
  | converting w head i rest => exact h.convert hv
  | writing w head i rest => exact h.write hv hrun

/-! ### The gathering thread -/

/-- The record that is being emitted. -/
def emitted : Interval → List ℕ
  | .sleeping | .swapped _ _ | .printing _ _ _ => []
  | .converting _ _ i _ | .writing _ _ i _ => [i]

theorem unwritten_eq (v : Interval) : v.unwritten = emitted v ++ v.unprinted := by
  cases v <;> rfl

/-- It is none of those that the gathering thread may hold. -/
theorem Inv.not_emitted (h : s.Inv book) {i : ℕ} (hi : i ∈ s.unprinted) : i ∉ emitted s.interval := by
  intro hc
  have hnodup := h.nodup.sublist h.sublist
  rw [unwritten, unwritten_eq] at hnodup
  rcases List.mem_append.mp hi with hi | hi
  · exact (List.nodup_append'.mp hnodup).2.2 hi (List.mem_append_left _ hc)
  · exact (List.nodup_append'.mp (List.nodup_append'.mp hnodup).2.1).2.2 hc hi

theorem Emits.frame {s' : Threads} {book' : ℕ → List Pair} (h : s.Emits book)
    (hv : s'.interval = s.interval)
    (hsame : ∀ c ∈ emitted s.interval, s'.dstats.mem c = s.dstats.mem c ∧ book' c = book c) :
    s'.Emits book' := by
  unfold Emits at h ⊢
  rw [hv]
  cases hint : s.interval with
  | converting w head i rest =>
    rw [hint] at h hsame
    obtain ⟨hmem, hbook⟩ := hsame i List.mem_cons_self
    simpa only [hmem, hbook] using h
  | writing w head i rest =>
    rw [hint] at h hsame
    obtain ⟨hmem, hbook⟩ := hsame i List.mem_cons_self
    simpa only [hmem, hbook] using h
  | sleeping => trivial
  | swapped => trivial
  | printing => trivial

theorem settled_update {i : ℕ} {f : BlkiomonStat → BlkiomonStat}
    {todo : List (BlkiomonStat → BlkiomonStat)} (hg : s.gather = some (i, f :: todo)) (j : ℕ) :
    settled { s.poke i f with gather := if todo.isEmpty then none else some (i, todo) } j =
      s.settled j := by
  have hmem : (s.poke i f).dstats.mem = Function.update s.dstats.mem i (f (s.dstats.mem i)) := rfl
  unfold settled
  rw [hg, hmem]
  by_cases hji : j = i
  · subst hji
    cases todo with
    | nil => simp
    | cons g todo => simp
  · cases todo with
    | nil => simp [hji]
    | cons g todo => simp [hji]

theorem Inv.update {i : ℕ} {f : BlkiomonStat → BlkiomonStat}
    {todo : List (BlkiomonStat → BlkiomonStat)} (h : s.Inv book)
    (hg : s.gather = some (i, f :: todo)) :
    Inv { s.poke i f with gather := if todo.isEmpty then none else some (i, todo) } book := by
  have hi := h.gather i _ hg
  refine
    { h with
      pooled := ⟨h.pooled.nodup, h.pooled.below⟩
      gather := fun j todo' hj => ?_
      keeps := fun j hj => ?_
      emits := h.emits.frame rfl fun c hc => ⟨Function.update_of_ne (fun hci => ?_) _ _, rfl⟩ }
  · split_ifs at hj
    rw [← (Prod.mk.inj (Option.some.inj hj)).1]
    exact hi
  · rw [Keeps, settled_update hg]
    exact h.keeps j hj
  · exact h.not_emitted hi (hci ▸ hc)

theorem Inv.exit (h : s.Inv book) (hok : s.Orderly .exit) : Inv { s with exited := true } book :=
  { h with pooled := h.pooled, exited := fun _ => hok }

/-- A record goes on one of the two lists. -/
theorem perm_taken (list : Bool → List ℕ) (curr : Bool) (i : ℕ) (rest : List ℕ) :
    (Function.update list curr (i :: list curr) false ++
      Function.update list curr (i :: list curr) true ++ rest).Perm
      (i :: (list false ++ list true ++ rest)) := by
  cases curr with
  | false => simp
  | true => simp

section Account

variable {malloc : Bool} {p : Pair} {i : ℕ} {dstats : Dstats}

theorem account_eq (hget : blkiomonGetDstat malloc s.dstats p.d.device = some (i, dstats)) :
    s.account malloc p =
      { s with dstats, gather := some (i, accountUpdates p.d p.c), matched := s.matched ++ [p] } := by
  rw [account, hget]

/-- The pair is booked on the record once the updates are made. -/
theorem keeps_account {parts : List Pair} (hstat : dstats.mem i = statOf p.d.device parts)
    (hdev : ∀ q ∈ parts, q.d.device = p.d.device) {s' : Threads} (hd : s'.dstats = dstats)
    (hg : s'.gather = some (i, accountUpdates p.d p.c)) {book' : ℕ → List Pair}
    (hbook : book' i = parts ++ [p]) : s'.Keeps book' i := by
  refine ⟨p.d.device, ?_, ?_⟩
  · rw [settled, hg, hd, hbook, statOf_concat, ← hstat]
    exact if_pos rfl
  · rw [hbook]
    intro q hq
    rcases List.mem_append.mp hq with hq | hq
    · exact hdev q hq
    · rw [List.mem_singleton.mp hq]

/-- What is settled on the others while nothing is gathered is in memory. -/
theorem keeps_other {j : ℕ} (h : s.Keeps book j) (hnone : s.gather = none) (hj : j ≠ i)
    {s' : Threads} {todo : List (BlkiomonStat → BlkiomonStat)} (hg : s'.gather = some (i, todo))
    (hmem : s'.dstats.mem j = s.dstats.mem j) {book' : ℕ → List Pair} (hbook : book' j = book j) :
    s'.Keeps book' j := by
  obtain ⟨device, hstat, hdev⟩ := h
  refine ⟨device, ?_, by rwa [hbook]⟩
  rw [settled_of_none hnone] at hstat
  rw [settled, hg, hbook, ← hstat, hmem]
  exact if_neg hj

theorem Inv.found (h : s.Inv book) (hnone : s.gather = none)
    (hget : blkiomonGetDstat malloc s.dstats p.d.device = some (i, dstats))
    (hi : i ∈ s.dstats.tree s.dstats.curr) (hdev : (s.dstats.mem i).device = p.d.device)
    (hsame : dstats = s.dstats) :
    (s.account malloc p).Inv (Function.update book i (book i ++ [p])) := by
  have hun : i ∈ s.unprinted := by
    rw [h.trees] at hi
    apply List.mem_append_left
    cases hcurr : s.dstats.curr <;> rw [hcurr] at hi
    · exact List.mem_append_left _ hi
    · exact List.mem_append_right _ hi
  have hnodup := h.nodup.sublist h.sublist
  rw [account_eq hget, hsame]
  obtain ⟨device, hstat, hown⟩ := h.keeps i hun
  rw [settled_of_none hnone] at hstat
  have hdevice : device = p.d.device := by
    rw [← hdev, hstat, statOf_device]
  refine
    { h with
      pooled := ⟨h.pooled.nodup, h.pooled.below⟩
      gather := fun j todo hj => ?_
      keeps := fun j hj => ?_
      emits := h.emits.frame rfl fun c hc => ⟨rfl, Function.update_of_ne (fun hci => ?_) _ _⟩
      human := h.human.charge hun (hnodup.sublist (unprinted_sublist s)) p
      binary := h.binary.charge ((unprinted_sublist s).subset hun) hnodup p }
  · rw [← (Prod.mk.inj (Option.some.inj hj)).1]
    exact hun
  · by_cases hji : j = i
    · rw [hji]
      rw [hdevice] at hstat hown
      apply keeps_account hstat hown
      · rfl
      · rfl
      · exact Function.update_self _ _ _
    · apply keeps_other (h.keeps j hj) hnone hji
      · rfl
      · rfl
      · exact Function.update_of_ne hji _ _
  · exact h.not_emitted hun (hci ▸ hc)

theorem Inv.taken (h : s.Inv book) (hnone : s.gather = none)
    (hget : blkiomonGetDstat malloc s.dstats p.d.device = some (i, dstats))
    (htaken : Taken s.dstats dstats i p.d.device) (hrun : s.exited = false) :
    (s.account malloc p).Inv (Function.update book i [p]) := by
  have hpooled := htaken.pooled h.pooled
  have hfresh : i ∉ s.dstats.list false ++ s.dstats.list true ++ s.interval.head := fun hmem =>
    (List.nodup_cons.mp hpooled.nodup).1 (List.mem_append_left _ hmem)
  have hperm : ∀ rest, (dstats.list false ++ dstats.list true ++ rest).Perm
      (i :: (s.dstats.list false ++ s.dstats.list true ++ rest)) := by
    intro rest
    rw [htaken.list]
    exact perm_taken _ _ _ _
  rw [account_eq hget]
  have hused := (hperm s.interval.head).append_right dstats.vacant
  refine
    { h with
      trees := by rw [htaken.tree, htaken.list, h.trees]
      pooled := ⟨hused.nodup_iff.mpr hpooled.nodup,
        fun j hj => hpooled.below j (hused.mem_iff.mp hj)⟩
      gather := fun j todo hj => ?_
      keeps := fun j hj => ?_
      emits := h.emits.frame rfl fun c hc => ?_
      human := h.human.enter (hperm s.interval.unprinted)
        (fun hi => hfresh (h.sublist.subset ((unprinted_sublist s).subset hi))) p
      binary := h.binary.enter (hperm s.interval.unwritten) (fun hi => hfresh (h.sublist.subset hi)) p
      exited := fun he => ?_ }
  · rw [← (Prod.mk.inj (Option.some.inj hj)).1]
    exact (hperm _).mem_iff.mpr List.mem_cons_self
  · have hj' := (hperm _).mem_iff.mp hj
    by_cases hji : j = i
    · rw [hji]
      have hstat : dstats.mem i = statOf p.d.device [] := by
        rw [htaken.mem, Function.update_self]
        rfl
      apply keeps_account hstat (by simp)
      · rfl
      · rfl
      · exact Function.update_self _ _ _
    · apply keeps_other (h.keeps j ((List.mem_cons.mp hj').resolve_left hji)) hnone hji
      · rfl
      · show dstats.mem j = s.dstats.mem j
        rw [htaken.mem, Function.update_of_ne hji]
      · exact Function.update_of_ne hji _ _
  · have hci : c ≠ i := by
      rintro rfl
      apply hfresh
      apply List.mem_append_right
      have hunwritten : c ∈ s.interval.unwritten := by
        rw [unwritten_eq]
        exact List.mem_append_left _ hc
      exact h.suffix.sublist.subset hunwritten
    refine ⟨?_, Function.update_of_ne hci _ _⟩
    show dstats.mem c = s.dstats.mem c
    rw [htaken.mem, Function.update_of_ne hci]
  · exact absurd (hrun.symm.trans he) Bool.false_ne_true

theorem Inv.account (h : s.Inv book) (hnone : s.gather = none) (hrun : s.exited = false)
    (hok : s.Orderly (.account malloc p)) : ∃ book', (s.account malloc p).Inv book' := by
  obtain ⟨⟨i, dstats⟩, hget⟩ := Option.isSome_iff_exists.mp hok
  rcases blkiomonGetDstat_cases hget with ⟨hi, hdev, hsame⟩ | htaken
  · exact ⟨_, h.found hnone hget hi hdev hsame⟩
  · exact ⟨_, h.taken hnone hget htaken hrun⟩

end Account

/-- **A step** of either thread. -/
theorem inv_step {s s' : Threads} {a : Act} (h : ∃ book, s.Inv book) (hok : s.Orderly a)
    (hs : s.step a = some s') : ∃ book, s'.Inv book := by
  obtain ⟨book, h⟩ := h
  cases a with
  | account malloc p =>
    simp only [step] at hs
    split_ifs at hs with hstop
    rw [not_or, Bool.not_eq_true, Bool.not_eq_true, Option.isSome_eq_false_iff,
      Option.isNone_iff_eq_none] at hstop
    rw [← Option.some.inj hs]
    exact h.account hstop.2 hstop.1 hok
  | update =>
    simp only [step] at hs
    split at hs
    next i f todo _ hg =>
      rw [← Option.some.inj hs]
      exact ⟨book, h.update hg⟩
    next => nomatch hs
  | interval wake =>
    simp only [step] at hs
    split_ifs at hs with hstop
    rw [← Option.some.inj hs]
    exact ⟨book, h.intervalStep (by simpa using hstop) hok⟩
  | exit =>
    simp only [step] at hs
    split_ifs at hs
    rw [← Option.some.inj hs]
    exact ⟨book, h.exit hok⟩

end Threads

/-- **The hand-over loses nothing** in any run in which no record is emitted while updates of it are to
be made, there is memory for the records, and the program does not end while records wait. -/
theorem hands_over (acts : List Act) (hok : Runs.Along Threads.step Threads.Orderly {} acts) :
    HandsOver (Runs.run Threads.step {} acts) := by
  obtain ⟨book, hinv⟩ := Runs.run_invariant_of (fun _ _ _ => Threads.inv_step) hok
    ⟨fun _ => [], Threads.inv_init⟩
  exact hinv.handsOver

/-- A read of one page in two milliseconds. -/
def pageRead : Pair where
  d := { magic := 0x65617407, sequence := 1, time := 0, sector := 8, bytes := 4096,
         action := 0x00410007, pid := 1, device := 0x800000, cpu := 0, error := 0, pduLen := 0,
         pdu := [] }
  c := { magic := 0x65617407, sequence := 2, time := 2000000, sector := 8, bytes := 4096,
         action := 0x00810008, pid := 0, device := 0x800000, cpu := 0, error := 0, pduLen := 0,
         pdu := [] }
  after := by decide

/-- The pair is accounted, an interval ends and its record is emitted, and so does the program. -/
def oneInterval : List Act :=
  .account true pageRead :: List.replicate 5 .update ++ List.replicate 6 (.interval 1) ++ [.exit]

theorem hands_over_one : HandsOver (Runs.run Threads.step {} oneInterval) :=
  hands_over oneInterval (by decide)

/-- The interval ends between the lookup of the record and its updates. -/
def lateUpdates : List Act :=
  .account true pageRead :: List.replicate 6 (.interval 1) ++ List.replicate 5 .update

/-- The pair is in no report, and no record waits. -/
theorem not_hands_over : ¬ HandsOver (Runs.run Threads.step {} lateUpdates) := by
  intro h
  obtain ⟨parts, hparts, -, hall⟩ := h.human
  have hperm := hall ⟨rfl, rfl⟩
  have hmatched : (Runs.run Threads.step {} lateUpdates).matched = [pageRead] := rfl
  -- the one report counts nothing
  have hreport : ∀ r ∈ (Runs.run Threads.step {} lateUpdates).human, r.sizeR.num = 0 := by
    decide
  obtain ⟨r, hr⟩ : ∃ r, (Runs.run Threads.step {} lateUpdates).human = [r] := ⟨_, rfl⟩
  rw [hr] at hparts hreport
  obtain ⟨ps, rest, ⟨device, time, hstat, -⟩, hnil, rfl⟩ := List.forall₂_cons_left_iff.mp hparts
  obtain rfl := List.forall₂_nil_left_iff.mp hnil
  rw [List.flatten_singleton, hmatched] at hperm
  obtain rfl := List.perm_singleton.mp hperm
  have hzero := hreport r List.mem_cons_self
  have hone : (statOf device [pageRead]).sizeR.num = 1 := rfl
  rw [hstat] at hzero
  exact absurd (hone.symm.trans hzero) (by decide)

end Blktrace.Blkiomon
