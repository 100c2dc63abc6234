import Blktrace.Btreplay.Btrecord

/-!
# What `btrecord` makes of a trace

`process` is a fold over the records of its input: `next_io` finds them one after the other, and
of each it hands on the stream takes note once. The stream then holds its specifications in
order, cut into bunches, and the file it leaves is these bunches behind a header.
-/

namespace Blktrace.Btreplay

open Bytes

/-! ## The records of a file -/

/-- What lies at the start of a file: less than a header, a header whose payload is cut short, or
a whole record. -/
inductive Front
  | short
  | cut (native : Option Bool)
  | whole (native : Option Bool) (t : BlkIoTrace) (rest : List UInt8)

def front (native : Option Bool) (ifd : List UInt8) : Front :=
  if ifd.length < traceSize then .short
  else
    let native := Blkparse.lookNative native (loadTrace ifd).magic
    let t := traceToCpu (native.getD true) (loadTrace ifd)
    let rest := ifd.drop traceSize
    if rest.length < t.pduLen.toNat then .cut native
    else .whole native { t with pdu := rest.take t.pduLen.toNat } (rest.drop t.pduLen.toNat)

/-- The records of a file, each with `data_is_native` as it is read, and `none` for a last one
whose payload is cut short. -/
def readTrace : ℕ → Option Bool → List UInt8 → List (Option Bool × Option BlkIoTrace)
  | 0, _, _ => []
  | fuel + 1, native, ifd =>
    match front native ifd with
    | .short => []
    | .cut native => [(native, none)]
    | .whole native t rest => (native, some t) :: readTrace fuel native rest

/-- The whole records of a trace file, as the host sees them. -/
def traceRecords (file : List UInt8) : List BlkIoTrace :=
  (readTrace (file.length + 1) none file).filterMap (·.2)

/-- Its queue records, as the specifications made of them. -/
def queueSpecs (ts : List BlkIoTrace) : List IoSpec :=
  (ts.filter fun t => matchAction t.action).map fun t => (ioFields true t).spec

theorem front_length {native native' : Option Bool} {ifd rest : List UInt8} {t : BlkIoTrace}
    (h : front native ifd = .whole native' t rest) : rest.length < ifd.length := by
  unfold front at h
  by_cases hshort : ifd.length < traceSize
  · rw [if_pos hshort] at h
    cases h
  rw [if_neg hshort] at h
  dsimp only at h
  split at h
  · cases h
  · injection h with _ _ hrest
    rw [← hrest, List.length_drop, List.length_drop]
    unfold traceSize at hshort ⊢
    omega

/-! ## One turn of `next_io` -/

section

variable {ndebug : Bool} {lim : Limits} {pad : IoStream → IoSpec → UInt32}

/-- What a turn makes of the record it finds. -/
theorem nextIoPass_eq (iip : IfileInfo) :
    nextIoPass ndebug iip =
      match front iip.native iip.ifd with
      | .short => .ok .eof
      | .cut native => assertThat ndebug native.isSome >>= fun _ => .ok .eof
      | .whole native t rest => assertThat ndebug native.isSome >>= fun _ =>
        if matchAction t.action then
          setGenesis { iip with ifd := rest, native := native } (ioFields true t).spec
        else .ok (.again { iip with ifd := rest, native := native }) := by
  unfold nextIoPass front
  by_cases hshort : iip.ifd.length < traceSize
  · rw [if_pos hshort, if_pos hshort]
  rw [if_neg hshort, if_neg hshort]
  simp only [ioFields_eq ((Blkparse.lookNative iip.native _).getD true)]
  generalize Blkparse.lookNative iip.native (loadTrace iip.ifd).magic = native
  generalize traceToCpu (native.getD true) (loadTrace iip.ifd) = t
  by_cases hcut : (iip.ifd.drop traceSize).length < t.pduLen.toNat
  · rw [if_pos hcut]
    simp only [ioFields, if_true, if_pos hcut]
  · rw [if_neg hcut]
    simp only [ioFields, if_true, if_neg hcut]
    cases matchAction t.action <;> rfl

/-- The file's first time after a queue record. -/
def nextGenesis (genesis : UInt64) (spec : IoSpec) : Except Stop UInt64 :=
  if genesis = 0 then .ok spec.time
  else if spec.time < genesis then .error .fatal
  else .ok genesis

theorem setGenesis_eq (iip : IfileInfo) (spec : IoSpec) :
    setGenesis iip spec = nextGenesis iip.genesis spec >>= fun genesis =>
      .ok (.io { iip with genesis := genesis } spec) := by
  unfold setGenesis nextGenesis
  split_ifs <;> rfl

theorem setGenesis_ne_again (iip iip' : IfileInfo) (spec : IoSpec) :
    setGenesis iip spec ≠ .ok (.again iip') := by
  rw [setGenesis_eq]
  cases nextGenesis iip.genesis spec <;> exact fun h => by cases h

/-- The file gets shorter with every turn that does not end at its end. -/
theorem nextIoPass_again {iip iip' : IfileInfo} (h : nextIoPass ndebug iip = .ok (.again iip')) :
    iip'.ifd.length < iip.ifd.length := by
  rw [nextIoPass_eq] at h
  cases hfront : front iip.native iip.ifd with
  | short =>
    rw [hfront] at h
    cases h
  | cut native =>
    simp only [hfront] at h
    cases hassert : assertThat ndebug native.isSome <;> rw [hassert] at h <;> cases h
  | whole native t rest =>
    simp only [hfront] at h
    cases hassert : assertThat ndebug native.isSome <;> rw [hassert] at h
    · cases h
    · dsimp only [bind, Except.bind] at h
      split at h
      · exact absurd h (setGenesis_ne_again _ _ _)
      · cases h
        exact front_length hfront

theorem nextIo_succ (fuel : ℕ) (iip : IfileInfo) :
    nextIo ndebug (fuel + 1) iip = nextIoPass ndebug iip >>= fun p =>
      match p with
      | .eof => .ok (iip, none)
      | .again iip => nextIo ndebug fuel iip
      | .io iip spec => .ok (iip, some spec) := rfl

/-- More turns than the file has bytes change nothing. -/
theorem nextIo_fuel {fuel fuel' : ℕ} {iip : IfileInfo} (h : iip.ifd.length < fuel)
    (h' : iip.ifd.length < fuel') : nextIo ndebug fuel iip = nextIo ndebug fuel' iip := by
  induction fuel generalizing iip fuel' with
  | zero => omega
  | succ fuel ih =>
    obtain ⟨fuel', rfl⟩ := Nat.exists_eq_add_one_of_ne_zero (show fuel' ≠ 0 by omega)
    rw [nextIo_succ, nextIo_succ]
    cases hpass : nextIoPass ndebug iip with
    | error e => rfl
    | ok p =>
      cases p with
      | eof => rfl
      | io iip' spec => rfl
      | again iip' =>
        have hlt := nextIoPass_again hpass
        exact ih (by omega) (by omega)

/-! ## `process` as a fold -/

/-- A turn of `process` by turns of `next_io`. -/
theorem processLoop_succ (fuel : ℕ) (iip : IfileInfo) (stream : IoStream) :
    processLoop ndebug lim pad (fuel + 1) iip stream = nextIoPass ndebug iip >>= fun p =>
      match p with
      | .eof => .ok (iip, stream)
      | .again iip => processLoop ndebug lim pad (fuel + 1) iip stream
      | .io iip spec => streamAddIo ndebug lim (pad stream spec) stream spec >>= fun stream =>
        processLoop ndebug lim pad fuel iip stream := by
  rw [processLoop, nextIo_succ]
  cases hpass : nextIoPass ndebug iip with
  | error e => rfl
  | ok p =>
    cases p with
    | eof => rfl
    | io iip' spec => rfl
    | again iip' =>
      have hlt := nextIoPass_again hpass
      show (nextIo ndebug iip.ifd.length iip' >>= _) = processLoop ndebug lim pad (fuel + 1) iip' stream
      rw [processLoop, nextIo_fuel hlt (Nat.lt_succ_self iip'.ifd.length)]

variable (ndebug lim pad) in
/-- The file's first time and the stream after one more specification. -/
def recordSpec (s : UInt64 × IoStream) (spec : IoSpec) : Except Stop (UInt64 × IoStream) :=
  nextGenesis s.1 spec >>= fun genesis =>
    streamAddIo ndebug lim (pad s.2 spec) s.2 spec >>= fun stream => .ok (genesis, stream)

variable (ndebug lim pad) in
/-- And after one more record. -/
def recordStep (s : UInt64 × IoStream) (r : Option Bool × Option BlkIoTrace) :
    Except Stop (UInt64 × IoStream) :=
  assertThat ndebug r.1.isSome >>= fun _ =>
    match r.2 with
    | none => .ok s
    | some t =>
      if matchAction t.action then recordSpec ndebug lim pad s (ioFields true t).spec else .ok s

/-- **`process` takes note of the records of its input one after the other.** -/
theorem processLoop_eq {fuel fuel' : ℕ} {iip : IfileInfo} {stream : IoStream}
    (h : iip.ifd.length < fuel) (h' : iip.ifd.length < fuel') :
    (processLoop ndebug lim pad fuel iip stream).map (fun x => (x.1.genesis, x.2)) =
      (readTrace fuel' iip.native iip.ifd).foldlM (recordStep ndebug lim pad)
        (iip.genesis, stream) := by
  induction fuel' generalizing iip stream fuel with
  | zero => omega
  | succ fuel' ih =>
    obtain ⟨fuel, rfl⟩ := Nat.exists_eq_add_one_of_ne_zero (show fuel ≠ 0 by omega)
    rw [processLoop_succ, nextIoPass_eq, readTrace]
    cases hfront : front iip.native iip.ifd with
    | short => rfl
    | cut native =>
      rw [List.foldlM_cons, recordStep]
      dsimp only
      cases assertThat ndebug native.isSome <;> rfl
    | whole native t rest =>
      have hlt := front_length hfront
      rw [List.foldlM_cons, recordStep]
      dsimp only
      cases assertThat ndebug native.isSome with
      | error e => rfl
      | ok _ =>
        dsimp only [bind, Except.bind]
        cases matchAction t.action with
        | false =>
          simp only [Bool.false_eq_true, if_false]
          exact ih (by dsimp only; omega) (by dsimp only; omega)
        | true =>
          simp only [if_true, recordSpec, setGenesis_eq]
          cases nextGenesis iip.genesis (ioFields true t).spec with
          | error e => rfl
          | ok genesis =>
            dsimp only [bind, Except.bind]
            cases streamAddIo ndebug lim (pad stream (ioFields true t).spec) stream
              (ioFields true t).spec with
            | error e => rfl
            | ok stream' => exact ih (by dsimp only; omega) (by dsimp only; omega)

theorem assertThat_bind_ok {α : Type} {cond : Bool} {f : Unit → Except Stop α} {a : α}
    (h : (assertThat ndebug cond >>= f) = .ok a) : assertThat ndebug cond = .ok () ∧ f () = .ok a := by
  cases hassert : assertThat ndebug cond with
  | error e =>
    rw [hassert] at h
    cases h
  | ok u =>
    rw [hassert] at h
    exact ⟨rfl, h⟩

/-- Only the queue records count, as long as the byte order is known. -/
theorem foldlM_recordStep {rs : List (Option Bool × Option BlkIoTrace)} {s s' : UInt64 × IoStream} :
    rs.foldlM (recordStep ndebug lim pad) s = .ok s' ↔
      (∀ r ∈ rs, assertThat ndebug r.1.isSome = .ok ()) ∧
        (queueSpecs (rs.filterMap (·.2))).foldlM (recordSpec ndebug lim pad) s = .ok s' := by
  induction rs generalizing s with
  | nil => simp [queueSpecs]
  | cons r rs ih =>
    have hstep : ∀ s₁, assertThat ndebug r.1.isSome = .ok () →
        (recordStep ndebug lim pad s r = .ok s₁ ↔
          (queueSpecs ([r].filterMap (·.2))).foldlM (recordSpec ndebug lim pad) s = .ok s₁) := by
      intro s₁ hr
      rw [recordStep, hr]
      obtain ⟨native, t | t⟩ := r
      · rfl
      · dsimp only [bind, Except.bind]
        cases hmatch : matchAction t.action with
        | false => simp [queueSpecs, hmatch, pure, Except.pure]
        | true => simp [queueSpecs, hmatch]
    have hsplit : queueSpecs ((r :: rs).filterMap (·.2)) =
        queueSpecs ([r].filterMap (·.2)) ++ queueSpecs (rs.filterMap (·.2)) := by
      rw [← List.singleton_append, List.filterMap_append]
      simp [queueSpecs]
    rw [List.foldlM_cons, hsplit, List.foldlM_append]
    constructor
    · intro h
      cases hr : recordStep ndebug lim pad s r with
      | error e =>
        rw [hr] at h
        cases h
      | ok s₁ =>
        rw [hr] at h
        obtain ⟨hlook, -⟩ := assertThat_bind_ok hr
        obtain ⟨hall, hrest⟩ := ih.mp h
        refine ⟨fun r' hr' => ?_, ?_⟩
        · rcases List.mem_cons.mp hr' with rfl | hr'
          · exact hlook
          · exact hall r' hr'
        · rw [(hstep s₁ hlook).mp hr]
          exact hrest
    · rintro ⟨hall, h⟩
      have hlook := hall r List.mem_cons_self
      cases hq : (queueSpecs ([r].filterMap (·.2))).foldlM (recordSpec ndebug lim pad) s with
      | error e =>
        rw [hq] at h
        cases h
      | ok s₁ =>
        rw [hq] at h
        rw [(hstep s₁ hlook).mpr hq]
        exact ih.mpr ⟨fun r' hr' => hall r' (List.mem_cons_of_mem _ hr'), h⟩

end

end Blktrace.Btreplay
