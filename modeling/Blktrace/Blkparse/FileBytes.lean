import Blktrace.Blkparse.FileMerge
import Blktrace.Blkparse.Descriptor

/-!
# The bytes of the files

`ms_prime` reads a file as `read_events` does a pipe, but for the moments. What the rest of file mode is given is
what the bytes of each file stand for, as long as no file is one cut record: it tells a byte order, and is none.
-/

namespace Blktrace.Blkparse.Fd

/-! ## The functions -/

/-- `read_data` on a file: what it has read, and what is behind it. None where the file ends before. -/
def readFile (file : List UInt8) (bytes : ℕ) : Option (List UInt8 × List UInt8) :=
  if bytes ≤ file.length then some (file.take bytes, file.drop bytes) else none

/-- What a call of `ms_prime` leaves. -/
structure Primed where
  queue : List BlkIoTrace
  fd : Option (List UInt8)
  native : Option Bool
  notified : List Event

/-- The loop of `ms_prime`, for at most `fuel` turns. -/
def msPrimeLoop (rbBatch cpu : ℕ) : ℕ → List UInt8 → Option Bool → ℕ → Primed
  | 0, file, native, _ => ⟨[], some file, native, []⟩
  | fuel + 1, file, native, i =>
    if i < rbBatch then
      match readFile file traceSize with
      | none => ⟨[], none, native, []⟩
      | some (hdr, rest) =>
        let bit := loadTrace hdr
        match lookNative native bit.magic with
        | none => ⟨[], none, none, []⟩
        | some b =>
          if !checkMagic (getMagic b bit) then ⟨[], none, some b, []⟩
          else
            match readFile rest (getPdulen b bit) with
            | none => ⟨[], none, some b, []⟩
            | some (pdu, rest) =>
              -- the magic is known to be right
              match msFetch cpu b { bit with pdu := pdu } with
              | .err => ⟨[], none, some b, []⟩
              | .skipped => msPrimeLoop rbBatch cpu fuel rest (some b) (i + 1)
              | .notify bit =>
                let p := msPrimeLoop rbBatch cpu fuel rest (some b) i
                { p with notified := .notify b bit :: p.notified }
              | .queued bit =>
                let p := msPrimeLoop rbBatch cpu fuel rest (some b) (i + 1)
                { p with queue := bit :: p.queue }
    else ⟨[], some file, native, []⟩

/-- The state of file mode. The files are in `fds`, and a stream has no `fd`. -/
structure FileState extends Blkparse.FileState where
  fds : StreamId → Option (List UInt8) := fun _ => none

/-- `ms_prime`. -/
def msPrime (o : Opts) (s : FileState) (msp : StreamId) : FileState × Nat :=
  match s.fds msp with
  | none => (s, 0)
  | some file =>
    let p := msPrimeLoop o.rbBatch msp.2 (file.length + 1) file s.native 0
    let st := s.streams msp
    ({ s with
        native := p.native
        streams := Function.update s.streams msp { st with first := st.first ++ p.queue }
        fds := Function.update s.fds msp p.fd
        events := s.events ++ p.notified },
      p.queue.length)

/-- `ms_deq` of the head `msp`, with `next` the chain behind it. -/
def msDeq (o : Opts) (s : FileState) (msp : StreamId) (next : List StreamId) : FileState :=
  let st := s.streams msp
  let s := { s with streams := Function.update s.streams msp { st with first := st.first.tail } }
  if st.first.tail = [] then
    let (s, ndone) := msPrime o s msp
    if ndone = 0 then { s with msHead := next }
    else { s with msHead := msResort s.streams msp next }
  else { s with msHead := msResort s.streams msp next }

/-- `ms_alloc`, on a file just opened by `setup_file`. -/
def msAlloc (o : Opts) (s : FileState) (msp : StreamId) (file : List UInt8) : FileState :=
  let s := { s with
    streams := Function.update s.streams msp {}
    fds := Function.update s.fds msp (some file) }
  let (s, ndone) := msPrime o s msp
  if ndone = 0 then s else { s with msHead := msSort s.streams s.msHead msp }

/-- `setup_file`: an empty file is not opened. -/
def setupFile (o : Opts) (s : FileState) (msp : StreamId) (file : List UInt8) : FileState :=
  if file = [] then s else msAlloc o s msp file

/-- The loop over `setup_file` for one device, from CPU number `cpu` on. -/
def setupFiles (o : Opts) (pdi : Nat) : Nat → List (List UInt8) → FileState → FileState
  | _, [], s => s
  | cpu, file :: files, s => setupFiles o pdi (cpu + 1) files (setupFile o s (pdi, cpu) file)

/-- The loop over the devices, from slot `pdi` on; `none` where a device has no file. -/
def setupDevices (o : Opts) : Nat → List (List (List UInt8)) → FileState → Option FileState
  | _, [], s => some s
  | pdi, files :: devs, s =>
    if files = [] then none else setupDevices o (pdi + 1) devs (setupFiles o pdi 0 files s)

/-- `handle` of the head of the chain, and what it returns. -/
def handle (o : Opts) (s : FileState) (msp : StreamId) (next : List StreamId) : FileState × Bool :=
  match (s.streams msp).first with
  | [] => (s, false)
  | t :: queue =>
    let bit := { t with time := t.time - s.genesisTime }
    let s := { s with
      streams := Function.update s.streams msp { s.streams msp with first := bit :: queue }
      nelems := Function.update s.nelems msp (s.nelems msp + 1)
      handled := s.handled ++ [(msp, t)] }
    if o.stopwatchEnd < bit.time then (s, false)
    else
      let s := { s with
        lastReportedTime := Function.update s.lastReportedTime msp.1 bit.time
        events :=
          if o.masks bit && o.stopwatchStart ≤ bit.time then
            s.events ++ [.dump msp.1 0 (UInt32.ofNat msp.2) bit]
          else s.events }
      (msDeq o s msp next, true)

/-- The `while` of `do_file`, for at most `fuel` turns. -/
def fileLoop (o : Opts) : Nat → FileState → FileState
  | 0, s => s
  | fuel + 1, s =>
    match s.msHead with
    | [] => s
    | msp :: next =>
      match handle o s msp next with
      | (s, true) => fileLoop o fuel s
      | (s, false) => s

/-- `do_file` up to its `while`: all files primed and the genesis time taken. -/
def fileStart (o : Opts) (devs : List (List (List UInt8))) : Option FileState :=
  (setupDevices o 0 devs {}).map fun s =>
    match s.msHead with
    | [] => s
    | msp :: _ => { s with genesisTime := msPeekTime s.streams msp }

/-- How many bytes the files hold: a record has some. -/
def fileBytes (devs : List (List (List UInt8))) : Nat :=
  (devs.map fun files => (files.map List.length).sum).sum

/-- `do_file`; `none` is its return of 1 where a device has no input file. -/
def doFile (o : Opts) (devs : List (List (List UInt8))) : Option FileState :=
  (fileStart o devs).map (fileLoop o (fileBytes devs + 1))

/-! ## What the bytes stand for -/

theorem readFile_some {file bs rest : List UInt8} {bytes : ℕ} (h : readFile file bytes = some (bs, rest)) :
    rest.length + bytes = file.length := by
  rw [readFile] at h
  split_ifs at h with hle
  obtain ⟨rfl, rfl⟩ := Prod.mk.inj (Option.some.inj h)
  rw [List.length_drop]
  omega

theorem readFile_of_le {file : List UInt8} {bytes : ℕ} (h : bytes ≤ file.length) :
    readFile file bytes = some (file.take bytes, file.drop bytes) := if_pos h

theorem readFile_of_lt {file : List UInt8} {bytes : ℕ} (h : file.length < bytes) : readFile file bytes = none :=
  if_neg (not_le.mpr h)

/-- The records that the bytes of a file stand for, read in the byte order `n`: none behind a header without
the magic, none where one is cut. -/
inductive Holds (n : Bool) : List UInt8 → List BlkIoTrace → Prop
  | ends {file : List UInt8} (h : readFile file traceSize = none) : Holds n file []
  | cut {file hdr rest : List UInt8} (hhdr : readFile file traceSize = some (hdr, rest))
    (hmagic : checkMagic (getMagic n (loadTrace hdr)) = true)
    (hpdu : readFile rest (getPdulen n (loadTrace hdr)) = none) : Holds n file []
  | stray {file hdr rest : List UInt8} (hhdr : readFile file traceSize = some (hdr, rest))
    (hmagic : checkMagic (getMagic n (loadTrace hdr)) = false) : Holds n file [loadTrace hdr]
  | record {file hdr mid pdu rest : List UInt8} {recs : List BlkIoTrace}
    (hhdr : readFile file traceSize = some (hdr, mid))
    (hmagic : checkMagic (getMagic n (loadTrace hdr)) = true)
    (hpdu : readFile mid (getPdulen n (loadTrace hdr)) = some (pdu, rest)) (h : Holds n rest recs) :
    Holds n file ({ loadTrace hdr with pdu := pdu } :: recs)

/-- The first header has the magic in no byte order but `n`. -/
def Tells (n : Bool) (file : List UInt8) : Prop :=
  ∀ hdr rest, readFile file traceSize = some (hdr, rest) → ∀ b,
    checkMagic (getMagic b (loadTrace hdr)) = true → b = n

/-- The bytes stand for these records to a reader that takes them for `known`. -/
def Stands (known : Option Bool) (file : List UInt8) (recs : List BlkIoTrace) : Prop :=
  ∃ n, Holds n file recs ∧
    (known = some n ∨ Tells n file ∧ (recs = [] → readFile file traceSize = none))

theorem Stands.mono {known known' : Option Bool} {file : List UInt8} {recs : List BlkIoTrace}
    (h : Stands known file recs) (hknown : known = none ∨ known' = known) : Stands known' file recs := by
  obtain ⟨n, hholds, horder⟩ := h
  refine ⟨n, hholds, ?_⟩
  rcases horder with hn | htells
  · rcases hknown with hnone | hsame
    · rw [hnone] at hn
      cases hn
    · exact .inl (hsame.trans hn)
  · exact .inr htells

theorem Holds.length_le {n : Bool} {file : List UInt8} {recs : List BlkIoTrace} (h : Holds n file recs) :
    recs.length ≤ file.length := by
  have hsize : 0 < traceSize := by decide
  induction h with
  | ends => exact Nat.zero_le _
  | cut => exact Nat.zero_le _
  | stray hhdr =>
    have hlength := readFile_some hhdr
    rw [List.length_singleton]
    omega
  | record hhdr _ hpdu _ ih =>
    have hlength := readFile_some hhdr
    have hlength' := readFile_some hpdu
    rw [List.length_cons]
    omega

/-! ## `ms_prime` -/

/-- Two calls of `ms_prime`, on bytes and on what they stand for. -/
structure Matches (known : Option Bool) (p : Primed) (q : Blkparse.Primed) : Prop where
  queue : p.queue = q.queue
  native : p.native = q.native
  notified : p.notified = q.notified
  fd : Option.Rel (Stands p.native) p.fd q.fd
  keeps : known = none ∨ p.native = known

theorem lookNative_of_magic {known : Option Bool} {n : Bool} {t : BlkIoTrace}
    (hmagic : checkMagic (getMagic n t) = true) (hknown : known = none ∨ known = some n) :
    lookNative known t.magic = some n := by
  rcases hknown with rfl | rfl
  · cases n with
    | true => exact if_pos hmagic
    | false =>
      have hplain := checkMagic_of_bswap32 hmagic
      rw [lookNative, checkDataEndianness, if_neg (by rw [hplain]; exact Bool.false_ne_true)]
      exact if_pos hmagic
  · rfl

/-- A header without the magic in the byte order of the file has it in none that the reader knows. -/
theorem stray_of_order {known : Option Bool} {n b : Bool} {t : BlkIoTrace}
    (hmagic : checkMagic (getMagic n t) = false)
    (horder : known = some n ∨ ∀ b, checkMagic (getMagic b t) = true → b = n)
    (hb : b ∈ lookNative known t.magic) : checkMagic (getMagic b t) = false := by
  rcases horder with rfl | hone
  · obtain rfl := Option.some.inj (show some n = some b from hb)
    exact hmagic
  · refine Bool.eq_false_of_not_eq_true fun hgood => ?_
    rw [hone b hgood, hmagic] at hgood
    cases hgood

/-- A header that is not of the byte order known ends the reading. -/
theorem matches_stray {rbBatch cpu i fuel : ℕ} {known : Option Bool} {file hdr rest pdu : List UInt8}
    {recs : List BlkIoTrace} (hhdr : readFile file traceSize = some (hdr, rest))
    (hstray : ∀ b ∈ lookNative known (loadTrace hdr).magic, checkMagic (getMagic b (loadTrace hdr)) = false)
    (hstands : Stands known file ({ loadTrace hdr with pdu := pdu } :: recs)) :
    Matches known (msPrimeLoop rbBatch cpu (fuel + 1) file known i)
      (Blkparse.msPrimeLoop rbBatch cpu ({ loadTrace hdr with pdu := pdu } :: recs) known i) := by
  rw [msPrimeLoop, Blkparse.msPrimeLoop]
  split_ifs with hbatch
  · rw [hhdr]
    dsimp only
    cases hlook : lookNative known (loadTrace hdr).magic with
    | none =>
      refine ⟨rfl, rfl, rfl, .none, ?_⟩
      cases known with
      | none => exact .inl rfl
      | some b => cases hlook
    | some b =>
      have hmagic := hstray b hlook
      have hfetch : msFetch cpu b { loadTrace hdr with pdu := pdu } = .err := by
        rw [msFetch, if_pos]
        rw [show getMagic b { loadTrace hdr with pdu := pdu } = getMagic b (loadTrace hdr) from rfl, hmagic]
        rfl
      dsimp only
      rw [hfetch, if_pos (by rw [hmagic]; rfl)]
      refine ⟨rfl, rfl, rfl, .none, ?_⟩
      cases known with
      | none => exact .inl rfl
      | some b' => exact .inr hlook.symm
  · exact ⟨rfl, rfl, rfl, .some hstands, .inr rfl⟩

/-- **A batch of bytes** is a batch of what they stand for. -/
theorem msPrimeLoop_matches {rbBatch cpu : ℕ} {n : Bool} {known : Option Bool} {file : List UInt8}
    {recs : List BlkIoTrace} (h : Holds n file recs)
    (horder : known = some n ∨ Tells n file ∧ (recs = [] → readFile file traceSize = none)) {fuel : ℕ}
    (hfuel : file.length < fuel) (i : ℕ) :
    Matches known (msPrimeLoop rbBatch cpu fuel file known i)
      (Blkparse.msPrimeLoop rbBatch cpu recs known i) := by
  have hsize : 0 < traceSize := by decide
  induction h generalizing known fuel i with
  | @ends file h =>
    obtain ⟨fuel, rfl⟩ := Nat.exists_eq_add_of_lt (Nat.zero_lt_of_lt hfuel)
    rw [Nat.zero_add, msPrimeLoop, Blkparse.msPrimeLoop, h]
    split_ifs
    · exact ⟨rfl, rfl, rfl, .none, .inr rfl⟩
    · exact ⟨rfl, rfl, rfl, .some ⟨n, .ends h, horder⟩, .inr rfl⟩
  | @cut file hdr rest hhdr hmagic hpdu =>
    obtain ⟨fuel, rfl⟩ := Nat.exists_eq_add_of_lt (Nat.zero_lt_of_lt hfuel)
    have hknown : known = some n := by
      refine horder.resolve_right fun htells => ?_
      have hnone := htells.2 rfl
      rw [hhdr] at hnone
      cases hnone
    subst hknown
    have hlook : lookNative (some n) (loadTrace hdr).magic = some n := rfl
    rw [Nat.zero_add, msPrimeLoop, Blkparse.msPrimeLoop, hhdr]
    split_ifs
    · simp only [hlook, hmagic, Bool.not_true, Bool.false_eq_true, if_false, hpdu]
      exact ⟨rfl, rfl, rfl, .none, .inr rfl⟩
    · exact ⟨rfl, rfl, rfl, .some ⟨n, .cut hhdr hmagic hpdu, .inl rfl⟩, .inr rfl⟩
  | @stray file hdr rest hhdr hmagic =>
    obtain ⟨fuel, rfl⟩ := Nat.exists_eq_add_of_lt (Nat.zero_lt_of_lt hfuel)
    refine @matches_stray _ _ i _ known file hdr rest [] [] hhdr (fun b hb => ?_)
      ⟨n, .stray hhdr hmagic, horder⟩
    exact stray_of_order hmagic (horder.imp_right fun htells => htells.1 hdr rest hhdr) hb
  | @record file hdr mid pdu rest recs hhdr hmagic hpdu h ih =>
    obtain ⟨fuel, rfl⟩ := Nat.exists_eq_add_of_lt (Nat.zero_lt_of_lt hfuel)
    have hholds : Holds n file ({ loadTrace hdr with pdu := pdu } :: recs) := .record hhdr hmagic hpdu h
    rw [Nat.zero_add] at hfuel ⊢
    by_cases hknown : known = none ∨ known = some n
    · have hlook := lookNative_of_magic hmagic hknown
      have hlength := readFile_some hhdr
      have hlength' := readFile_some hpdu
      have hgo := fun i => @ih (some n) (.inl rfl) fuel (by omega) i
      have hkeep : ∀ p : Primed, (some n : Option Bool) = none ∨ p.native = some n →
          known = none ∨ p.native = known := by
        intro p hp
        refine hknown.imp_right fun hn => ?_
        rw [hn]
        exact hp.resolve_left (Option.some_ne_none n)
      rw [msPrimeLoop, Blkparse.msPrimeLoop]
      split_ifs
      · simp only [hhdr, hlook, hmagic, Bool.not_true, Bool.false_eq_true, if_false, hpdu]
        cases msFetch cpu n { loadTrace hdr with pdu := pdu } with
        | err => exact ⟨rfl, rfl, rfl, .none, hknown.imp_right Eq.symm⟩
        | skipped =>
          have hrest := hgo (i + 1)
          exact ⟨hrest.queue, hrest.native, hrest.notified, hrest.fd, hkeep _ hrest.keeps⟩
        | notify bit =>
          have hrest := hgo i
          exact ⟨hrest.queue, hrest.native, congrArg (List.cons _) hrest.notified, hrest.fd,
            hkeep _ hrest.keeps⟩
        | queued bit =>
          have hrest := hgo (i + 1)
          exact ⟨congrArg (List.cons _) hrest.queue, hrest.native, hrest.notified, hrest.fd,
            hkeep _ hrest.keeps⟩
      · exact ⟨rfl, rfl, rfl, .some ⟨n, hholds, horder⟩, .inr rfl⟩
    · -- another byte order is known already
      obtain ⟨hnone, hother⟩ := not_or.mp hknown
      refine matches_stray hhdr (fun b hb => ?_) ⟨n, hholds, horder⟩
      cases known with
      | none => exact absurd rfl hnone
      | some b' =>
        obtain rfl := Option.some.inj (show some b' = some b from hb)
        refine Bool.eq_false_of_not_eq_true fun hgood => hother (congrArg some ?_)
        exact (horder.resolve_left hother).1 hdr mid hhdr b' hgood

/-! ## The machine -/

/-- The state in which the streams are these. -/
def FileState.over (s : FileState) (streams : StreamId → MsStream) : Blkparse.FileState :=
  { s.toFileState with streams }

/-- The streams have the same queues, and their files are what the bytes stand for. -/
structure Standing (s : FileState) (streams : StreamId → MsStream) : Prop where
  first : ∀ id, (s.streams id).first = (streams id).first
  fds : ∀ id, Option.Rel (Stands s.native) (s.fds id) (streams id).fd

theorem Standing.msPeekTime {s : FileState} {streams : StreamId → MsStream} (h : Standing s streams) :
    msPeekTime s.streams = msPeekTime streams := by
  funext id
  rw [Blkparse.msPeekTime, Blkparse.msPeekTime, h.first]

theorem msSortWhile_congr {streams streams' : StreamId → MsStream}
    (h : msPeekTime streams = msPeekTime streams') (msp : StreamId) (chain : List StreamId) :
    msSortWhile streams msp chain = msSortWhile streams' msp chain := by
  induction chain with
  | nil => rfl
  | cons next rest ih => rw [msSortWhile, msSortWhile, h, ih]

theorem msSort_congr {streams streams' : StreamId → MsStream} (h : msPeekTime streams = msPeekTime streams')
    (chain : List StreamId) (msp : StreamId) : msSort streams chain msp = msSort streams' chain msp := by
  cases chain with
  | nil => rfl
  | cons this rest => rw [msSort, msSort, h, msSortWhile_congr h]

theorem msResort_congr {streams streams' : StreamId → MsStream} (h : msPeekTime streams = msPeekTime streams')
    (msp : StreamId) (next : List StreamId) : msResort streams msp next = msResort streams' msp next := by
  cases next with
  | nil => rfl
  | cons n rest => rw [msResort, msResort, h, msSort_congr h]

/-- One stream is replaced in both, and a byte order that was not known may be. -/
theorem Standing.replace {s : FileState} {streams : StreamId → MsStream} (h : Standing s streams)
    (msp : StreamId) {native : Option Bool} (hkeeps : s.native = none ∨ native = s.native) {st st' : MsStream}
    (hfirst : st.first = st'.first) {fd : Option (List UInt8)} (hfd : Option.Rel (Stands native) fd st'.fd) :
    Standing { s with
      native
      streams := Function.update s.streams msp st
      fds := Function.update s.fds msp fd } (Function.update streams msp st') := by
  refine ⟨fun id => ?_, fun id => ?_⟩
  · by_cases hid : id = msp
    · subst hid
      simp only [Function.update_self]
      exact hfirst
    · simp only [Function.update_of_ne hid]
      exact h.first id
  · by_cases hid : id = msp
    · subst hid
      simp only [Function.update_self]
      exact hfd
    · simp only [Function.update_of_ne hid]
      have hold := h.fds id
      generalize s.fds id = file at hold
      generalize (streams id).fd = recs at hold
      cases hold with
      | none => exact .none
      | some hstands => exact .some (hstands.mono hkeeps)

/-- A queue is replaced in both. -/
theorem Standing.set {s : FileState} {streams : StreamId → MsStream} (h : Standing s streams) (msp : StreamId)
    (queue : List BlkIoTrace) :
    Standing { s with streams := Function.update s.streams msp { s.streams msp with first := queue } }
      (Function.update streams msp { streams msp with first := queue }) := by
  have hset := @Standing.replace s streams h msp s.native (.inr rfl) { s.streams msp with first := queue }
    { streams msp with first := queue } rfl _ (h.fds msp)
  rw [Function.update_eq_self] at hset
  exact hset

theorem msPrime_standing (o : Opts) {s : FileState} {streams : StreamId → MsStream} (h : Standing s streams)
    (msp : StreamId) :
    ∃ streams', Blkparse.msPrime o (s.over streams) msp =
        ((msPrime o s msp).1.over streams', (msPrime o s msp).2) ∧
      Standing (msPrime o s msp).1 streams' := by
  have hrel := h.fds msp
  rw [msPrime, Blkparse.msPrime]
  generalize hfile : s.fds msp = file at hrel
  generalize hrecs : (streams msp).fd = recs at hrel
  have hrecs' : ((s.over streams).streams msp).fd = recs := hrecs
  rw [hrecs']
  cases hrel with
  | none => exact ⟨streams, rfl, h⟩
  | @some file recs hstands =>
    obtain ⟨n, hholds, horder⟩ := hstands
    have hm := @msPrimeLoop_matches o.rbBatch msp.2 n s.native file recs hholds horder _ (Nat.lt_succ_self _) 0
    have hnative : (s.over streams).native = s.native := rfl
    dsimp only
    rw [hnative]
    generalize msPrimeLoop o.rbBatch msp.2 (file.length + 1) file s.native 0 = p at hm
    generalize Blkparse.msPrimeLoop o.rbBatch msp.2 recs s.native 0 = q at hm
    have hreplace := @Standing.replace s streams h msp p.native hm.keeps
      { s.streams msp with first := (s.streams msp).first ++ p.queue }
      ⟨(streams msp).first ++ q.queue, q.fd⟩ (by rw [h.first, hm.queue]) _ hm.fd
    refine ⟨_, ?_, hreplace.first, hreplace.fds⟩
    rw [← hm.queue, ← hm.native, ← hm.notified]
    rfl

theorem msDeq_standing (o : Opts) {s : FileState} {streams : StreamId → MsStream} (h : Standing s streams)
    (msp : StreamId) (next : List StreamId) :
    ∃ streams', Blkparse.msDeq o (s.over streams) msp next = (msDeq o s msp next).over streams' ∧
      Standing (msDeq o s msp next) streams' := by
  have hset := h.set msp (s.streams msp).first.tail
  obtain ⟨streams', hprime, hstanding⟩ := msPrime_standing o hset msp
  have hfirst : ((s.over streams).streams msp).first = (s.streams msp).first := (h.first msp).symm
  rw [msDeq, Blkparse.msDeq]
  dsimp only
  rw [hfirst]
  by_cases hnil : (s.streams msp).first.tail = []
  · rw [if_pos hnil, if_pos hnil]
    rw [show Blkparse.msPrime o { s.over streams with
      streams := Function.update (s.over streams).streams msp
        { (s.over streams).streams msp with first := (s.streams msp).first.tail } } msp = _ from hprime]
    dsimp only
    split_ifs with hnone
    · exact ⟨streams', rfl, hstanding.first, hstanding.fds⟩
    · refine ⟨streams', ?_, hstanding.first, hstanding.fds⟩
      rw [msResort_congr hstanding.msPeekTime]
      rfl
  · rw [if_neg hnil, if_neg hnil]
    refine ⟨_, ?_, hset.first, hset.fds⟩
    rw [msResort_congr hset.msPeekTime]
    rfl

theorem handle_standing (o : Opts) {s : FileState} {streams : StreamId → MsStream} (h : Standing s streams)
    (msp : StreamId) (next : List StreamId) :
    ∃ streams', Blkparse.handle o (s.over streams) msp next =
        ((handle o s msp next).1.over streams', (handle o s msp next).2) ∧
      Standing (handle o s msp next).1 streams' := by
  have hfirst : ((s.over streams).streams msp).first = (s.streams msp).first := (h.first msp).symm
  rw [handle, Blkparse.handle, hfirst]
  cases (s.streams msp).first with
  | nil => exact ⟨streams, rfl, h⟩
  | cons t queue =>
    dsimp only
    have hset := h.set msp ({ t with time := t.time - s.genesisTime } :: queue)
    have htime : (s.over streams).genesisTime = s.genesisTime := rfl
    rw [htime]
    split_ifs with hpast
    · exact ⟨_, rfl, hset.first, hset.fds⟩
    all_goals
      obtain ⟨streams', hdeq, hstanding⟩ := msDeq_standing o (s := { s with
        streams := Function.update s.streams msp
          { s.streams msp with first := { t with time := t.time - s.genesisTime } :: queue }
        nelems := Function.update s.nelems msp (s.nelems msp + 1)
        handled := s.handled ++ [(msp, t)]
        lastReportedTime := Function.update s.lastReportedTime msp.1 (t.time - s.genesisTime)
        events := _ }) ⟨hset.first, hset.fds⟩ msp next
      exact ⟨streams', congrArg (Prod.mk · true) hdeq, hstanding⟩

theorem fileLoop_standing (o : Opts) (fuel : Nat) {s : FileState} {streams : StreamId → MsStream}
    (h : Standing s streams) :
    ∃ streams', Blkparse.fileLoop o fuel (s.over streams) = (fileLoop o fuel s).over streams' ∧
      Standing (fileLoop o fuel s) streams' := by
  induction fuel generalizing s streams with
  | zero => exact ⟨streams, rfl, h⟩
  | succ fuel ih =>
    have hchain : (s.over streams).msHead = s.msHead := rfl
    rw [fileLoop, Blkparse.fileLoop, hchain]
    cases s.msHead with
    | nil => exact ⟨streams, rfl, h⟩
    | cons msp next =>
      obtain ⟨streams', hhandle, hstanding⟩ := handle_standing o h msp next
      dsimp only
      rw [hhandle]
      generalize handle o s msp next = r at hstanding
      obtain ⟨s', more⟩ := r
      cases more with
      | true => exact ih hstanding
      | false => exact ⟨streams', rfl, hstanding⟩

/-! ## Setting up -/

/-- A file with no whole header is closed as it is opened. -/
theorem msAlloc_short {o : Opts} (hb : 1 ≤ o.rbBatch) (s : FileState) (msp : StreamId) {file : List UInt8}
    (h : readFile file traceSize = none) :
    msAlloc o s msp file = { s with
      streams := Function.update s.streams msp {}
      fds := Function.update s.fds msp none } := by
  have hloop : msPrimeLoop o.rbBatch msp.2 (file.length + 1) file s.native 0 = ⟨[], none, s.native, []⟩ := by
    rw [msPrimeLoop, if_pos (show 0 < o.rbBatch from hb), h]
  simp [msAlloc, msPrime, hloop]

theorem setupFile_standing {o : Opts} (hb : 1 ≤ o.rbBatch) {s : FileState} {streams : StreamId → MsStream}
    (h : Standing s streams) {msp : StreamId} (hfresh : streams msp = {}) {file : List UInt8}
    {recs : List BlkIoTrace} (hfile : Stands none file recs) :
    ∃ streams', Blkparse.setupFile o (s.over streams) (msp, recs) = (setupFile o s msp file).over streams' ∧
      Standing (setupFile o s msp file) streams' ∧ ∀ id, id ≠ msp → streams' id = streams id := by
  obtain ⟨n, hholds, horder⟩ := hfile
  obtain ⟨htells, hshort⟩ := horder.resolve_left (Option.some_ne_none n).symm
  rw [setupFile, Blkparse.setupFile]
  dsimp only
  by_cases hrecs : recs = []
  · rw [if_pos hrecs]
    split_ifs with hnil
    · exact ⟨streams, rfl, h, fun _ _ => rfl⟩
    · rw [msAlloc_short hb s msp (hshort hrecs)]
      have hclosed := @Standing.replace s streams h msp s.native (.inr rfl) {} (streams msp) (by rw [hfresh]) none
        (by rw [hfresh]; exact .none)
      rw [Function.update_eq_self] at hclosed
      exact ⟨streams, rfl, hclosed, fun _ _ => rfl⟩
  · have hnil : file ≠ [] := by
      rintro rfl
      exact hrecs (List.length_eq_zero_iff.mp (Nat.le_zero.mp hholds.length_le))
    rw [if_neg hrecs, if_neg hnil, msAlloc, Blkparse.msAlloc]
    have hopened := @Standing.replace s streams h msp s.native (.inr rfl) {} ⟨[], some recs⟩ rfl (some file)
      (.some ⟨n, hholds, .inr ⟨htells, hshort⟩⟩)
    obtain ⟨streams', hprime, hstanding⟩ := msPrime_standing o hopened msp
    have hothers : ∀ id, id ≠ msp → streams' id = streams id := by
      intro id hid
      have hsame := msPrime_streams_of_ne o (FileState.over { s with
        streams := Function.update s.streams msp {}
        fds := Function.update s.fds msp (some file) } (Function.update streams msp ⟨[], some recs⟩)) hid
      rw [hprime] at hsame
      exact hsame.trans (Function.update_of_ne hid _ _)
    rw [show Blkparse.msPrime o { s.over streams with
      streams := Function.update (s.over streams).streams msp ⟨[], some recs⟩ } msp = _ from hprime]
    dsimp only
    split_ifs
    · exact ⟨streams', rfl, hstanding, hothers⟩
    · refine ⟨streams', ?_, ⟨hstanding.first, hstanding.fds⟩, hothers⟩
      rw [msSort_congr hstanding.msPeekTime]
      rfl

theorem setupFiles_standing {o : Opts} (hb : 1 ≤ o.rbBatch) {pdi cpu : Nat} {files : List (List UInt8)}
    {recs : List (List BlkIoTrace)} (hfiles : List.Forall₂ (Stands none) files recs) {s : FileState}
    {streams : StreamId → MsStream} (h : Standing s streams)
    (hfresh : ∀ id : StreamId, id.1 = pdi → cpu ≤ id.2 → streams id = {}) :
    ∃ streams', Blkparse.setupFiles o pdi cpu recs (s.over streams) =
        (setupFiles o pdi cpu files s).over streams' ∧
      Standing (setupFiles o pdi cpu files s) streams' ∧
        ∀ id : StreamId, id.1 ≠ pdi → streams' id = streams id := by
  induction hfiles generalizing cpu s streams with
  | nil => exact ⟨streams, rfl, h, fun _ _ => rfl⟩
  | @cons file rec files recs hfile _ ih =>
    obtain ⟨streams₁, hsetup, h₁, hothers⟩ :=
      setupFile_standing hb h (hfresh (pdi, cpu) rfl (Nat.le_refl cpu)) hfile
    obtain ⟨streams', hrest, h', hothers'⟩ := ih h₁ fun id hpdi hcpu => by
      rw [hothers id fun hid => absurd (congrArg Prod.snd hid) (Nat.ne_of_gt hcpu)]
      exact hfresh id hpdi (Nat.le_of_succ_le hcpu)
    refine ⟨streams', ?_, h', fun id hpdi => ?_⟩
    · rw [setupFiles, ← hrest, ← hsetup]
      rfl
    · rw [hothers' id hpdi]
      exact hothers id fun hid => hpdi (congrArg Prod.fst hid)

theorem setupDevices_standing {o : Opts} (hb : 1 ≤ o.rbBatch) {pdi : Nat} {devs : List (List (List UInt8))}
    {recs : List (List (List BlkIoTrace))} (hdevs : List.Forall₂ (List.Forall₂ (Stands none)) devs recs)
    {s : FileState} {streams : StreamId → MsStream} (h : Standing s streams)
    (hfresh : ∀ id : StreamId, pdi ≤ id.1 → streams id = {}) :
    (setupDevices o pdi devs s = none ∧ Blkparse.setupDevices o pdi recs (s.over streams) = none) ∨
      ∃ s' streams', setupDevices o pdi devs s = some s' ∧
        Blkparse.setupDevices o pdi recs (s.over streams) = some (s'.over streams') ∧ Standing s' streams' := by
  induction hdevs generalizing pdi s streams with
  | nil => exact .inr ⟨s, streams, rfl, rfl, h⟩
  | @cons files rec devs recs hfiles _ ih =>
    rw [setupDevices, Blkparse.setupDevices]
    by_cases hnil : files = []
    · have hnil' : rec = [] := List.forall₂_nil_left_iff.mp (hnil ▸ hfiles)
      rw [if_pos hnil, if_pos hnil']
      exact .inl ⟨rfl, rfl⟩
    · have hnil' : rec ≠ [] := fun heq => hnil (List.forall₂_nil_right_iff.mp (heq ▸ hfiles))
      obtain ⟨streams₁, hsetup, h₁, hothers⟩ :=
        @setupFiles_standing o hb pdi 0 files rec hfiles s streams h fun id hpdi _ => hfresh id hpdi.ge
      rw [if_neg hnil, if_neg hnil', hsetup]
      exact ih h₁ fun id hpdi => by
        rw [hothers id (Nat.ne_of_gt hpdi)]
        exact hfresh id (Nat.le_of_succ_le hpdi)

theorem fileStart_standing {o : Opts} (hb : 1 ≤ o.rbBatch) {devs : List (List (List UInt8))}
    {recs : List (List (List BlkIoTrace))} (hdevs : List.Forall₂ (List.Forall₂ (Stands none)) devs recs) :
    (fileStart o devs = none ∧ Blkparse.fileStart o recs = none) ∨
      ∃ s streams, fileStart o devs = some s ∧ Blkparse.fileStart o recs = some (s.over streams) ∧
        Standing s streams := by
  have hinit : Standing {} fun _ => {} := ⟨fun _ => rfl, fun _ => .none⟩
  have hover : FileState.over {} (fun _ => {}) = {} := rfl
  rw [fileStart, Blkparse.fileStart]
  rcases @setupDevices_standing o hb 0 devs recs hdevs _ _ hinit fun _ _ => rfl with
    ⟨hnone, hnone'⟩ | ⟨s, streams, hsome, hsome', h⟩
  · rw [hover] at hnone'
    rw [hnone, hnone']
    exact .inl ⟨rfl, rfl⟩
  · rw [hover] at hsome'
    rw [hsome, hsome', Option.map_some, Option.map_some]
    have hchain : (s.over streams).msHead = s.msHead := rfl
    rw [hchain]
    cases s.msHead with
    | nil => exact .inr ⟨s, streams, rfl, rfl, h⟩
    | cons msp _ =>
      refine .inr ⟨_, streams, rfl, ?_, h.first, h.fds⟩
      rw [h.msPeekTime]
      rfl

/-! ## The run -/

/-- The fuel of the `while` does not show, as long as there is enough. -/
theorem fileLoop_fuel {o : Opts} (hb : 1 ≤ o.rbBatch) {fuel fuel' : Nat} {s : Blkparse.FileState}
    (hinv : FileInv s) (hw : KMerge.WF BlkIoTrace.time 0 (s.merge o.rbBatch))
    (hfuel : KMerge.size (s.merge o.rbBatch) < fuel) (hfuel' : KMerge.size (s.merge o.rbBatch) < fuel') :
    Blkparse.fileLoop o fuel s = Blkparse.fileLoop o fuel' s := by
  induction fuel generalizing fuel' s with
  | zero => omega
  | succ fuel ih =>
    obtain ⟨fuel', rfl⟩ := Nat.exists_eq_add_of_lt (Nat.zero_lt_of_lt hfuel')
    rw [Nat.zero_add] at hfuel' ⊢
    rw [Blkparse.fileLoop, Blkparse.fileLoop]
    cases hc : s.msHead with
    | nil => rfl
    | cons msp next =>
      obtain ⟨t, m, hpop, -, -, hret, hnext⟩ := handle_merge hb hinv hw hc
      have hsize := KMerge.pop_size hw hpop
      dsimp only
      generalize Blkparse.handle o s msp next = r at hret hnext
      obtain ⟨s', more⟩ := r
      cases more with
      | false => rfl
      | true =>
        obtain ⟨hinv', hm⟩ := hnext (by simpa using hret)
        dsimp only at hinv' hm
        exact ih hinv' (hm ▸ hw.pop hpop) (by rw [hm]; omega) (by rw [hm]; omega)

theorem fileFuel_le {known : Option Bool} {devs : List (List (List UInt8))} {recs : List (List (List BlkIoTrace))}
    (hdevs : List.Forall₂ (List.Forall₂ (Stands known)) devs recs) : fileFuel recs ≤ fileBytes devs := by
  have hfiles : ∀ {files : List (List UInt8)} {rec : List (List BlkIoTrace)},
      List.Forall₂ (Stands known) files rec → (rec.map List.length).sum ≤ (files.map List.length).sum := by
    intro files rec h
    induction h with
    | nil => exact Nat.le_refl 0
    | cons hfile _ ih =>
      obtain ⟨n, hholds, -⟩ := hfile
      exact Nat.add_le_add hholds.length_le ih
  induction hdevs with
  | nil => exact Nat.le_refl 0
  | cons h _ ih => exact Nat.add_le_add (hfiles h) ih

/-- **File mode over bytes** is file mode over what the bytes stand for. -/
theorem doFile_standing {o : Opts} (hb : 1 ≤ o.rbBatch) {devs : List (List (List UInt8))}
    {recs : List (List (List BlkIoTrace))} (hdevs : List.Forall₂ (List.Forall₂ (Stands none)) devs recs) :
    (doFile o devs = none ∧ Blkparse.doFile o recs = none) ∨
      ∃ s streams, doFile o devs = some s ∧ Blkparse.doFile o recs = some (s.over streams) ∧
        Standing s streams := by
  rcases fileStart_standing hb hdevs with ⟨hnone, hnone'⟩ | ⟨s, streams, hsome, hsome', h⟩
  · exact .inl ⟨by rw [doFile, hnone]; rfl, by rw [Blkparse.doFile, hnone']; rfl⟩
  · obtain ⟨streams', hloop, hstanding⟩ := fileLoop_standing o (fileBytes devs + 1) h
    obtain ⟨hinv, hmerge, -⟩ := fileStart_merge hb hsome'
    have hsize := fileMerge_size o.rbBatch recs
    have hle := fileFuel_le hdevs
    have hw := (fileMerge_spec o.rbBatch recs).1
    rw [← hmerge] at hsize hw
    refine .inr ⟨_, streams', by rw [doFile, hsome]; rfl, ?_, hstanding⟩
    rw [Blkparse.doFile, hsome', Option.map_some, ← hloop]
    exact congrArg some (fileLoop_fuel hb hinv hw (by omega) (by omega))

end Blktrace.Blkparse.Fd
