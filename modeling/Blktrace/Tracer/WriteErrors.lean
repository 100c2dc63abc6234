import Blktrace.Lib.Runs
import Blktrace.Tracer.Reframe

/-!
# `blktrace.c`: writes to a pipe that fail

`write_data` begins a write anew when a signal has interrupted it, and gives it up on any other error.
`handle_list_file` then drops the buffer, and with it the part of a trace at its end, whose other part is
in a buffer that is still to come.
-/

namespace Blktrace.Tracer

open Bytes

/-! ## The functions -/

/-- How a `write_data` goes: how many bytes each `fwrite` got out before it was interrupted, and how many
the last one did, if that failed. -/
structure Attempts where
  interrupted : List ℕ := []
  failed : Option ℕ := none

/-- `write_data`: what each `fwrite` put into the pipe, which is not buffered, and `true` for the 1 it
returns. -/
def writeData (buf : List UInt8) : List ℕ → Option ℕ → List (List UInt8) × Bool
  | [], none => ([buf], false)
  | [], some n => ([buf.take n], true)
  -- `goto rewrite`
  | n :: interrupted, failed =>
    let (outs, ret) := writeData buf interrupted failed
    (buf.take n :: outs, ret)

/-- A call of `write_data`: where its buffer begins in the stream of the device and CPU, and what came of
it. -/
structure Write (κ : Type*) where
  key : κ
  start : ℕ
  outs : List (List UInt8)
  failed : Bool

/-- What `handle_list_file` keeps, with what was delivered of each stream and the calls of `write_data`. -/
structure Emitting (κ : Type*) where
  piped : Piped κ := {}
  stream : κ → List UInt8 := fun _ => []
  writes : List (Write κ) := []

variable {κ : Type*} [DecidableEq κ]

/-- The leftover and the buffer together. -/
def Emitting.pending (s : Emitting κ) (step : κ × TraceBuf) : List UInt8 :=
  s.piped.rest step.1 ++ step.2.buf

/-- How far the whole traces in front of them reach. -/
def Emitting.off (s : Emitting κ) (step : κ × TraceBuf) : ℕ :=
  (scan (s.pending step) (s.pending step).length 0 0).1

/-- The call of `write_data` for these traces. `file` says how each of the calls goes. -/
def Emitting.write (file : ℕ → Attempts) (s : Emitting κ) (step : κ × TraceBuf) : Write κ :=
  let attempts := file s.piped.writes
  let (outs, failed) :=
    writeData ((s.pending step).take (s.off step)) attempts.interrupted attempts.failed
  { key := step.1
    start := (s.stream step.1).length - (s.piped.rest step.1).length
    outs := outs
    failed := failed }

/-- One buffer of a list. -/
def emitBuf (bufSize : ℕ) (file : ℕ → Attempts) (s : Emitting κ) (step : κ × TraceBuf) :
    Option (Emitting κ) :=
  let write := s.write file step
  (handleBuf bufSize (fun _ => write.failed) step.1 s.piped step.2).map fun piped =>
    { piped := piped
      stream := Function.update s.stream step.1 (s.stream step.1 ++ step.2.buf)
      writes := if s.off step = 0 then s.writes else s.writes ++ [write] }

/-! ## What is claimed -/

/-- A position of a stream between two traces. -/
def Boundary (bs : List UInt8) (pos : ℕ) : Prop := pos ≤ bs.length ∧ ∃ n, traces.Whole n (bs.take pos)

/-- The positions of the bytes that a write put into the pipe. -/
def Write.positions (w : Write κ) : List ℕ := w.outs.flatMap fun out => List.range' w.start out.length

/-- The same of all writes of a stream. -/
def Emitting.emitted (s : Emitting κ) (k : κ) : List ℕ :=
  (s.writes.filter (fun w => w.key = k)).flatMap Write.positions

/-- **The piped stream is not corrupted**: behind a write that failed the others of its stream begin where
a trace does, and no byte was written twice. -/
structure Intact (s : Emitting κ) : Prop where
  aligned : ∀ as w bs, s.writes = as ++ w :: bs → w.failed → ∀ w' ∈ bs, w'.key = w.key →
    Boundary (s.stream w'.key) w'.start
  once : ∀ k, (s.emitted k).Nodup

/-- Not more than one `fwrite` of a write gets something out. -/
def Attempts.Single (a : Attempts) : Prop :=
  (a.interrupted ++ [a.failed.getD 1]).countP (0 < ·) ≤ 1

/-- A write, if there is one, is not begun anew behind bytes that are out, and where it fails it leaves no
part of a trace behind it. -/
def CleanWrite (file : ℕ → Attempts) (s : Emitting κ) (step : κ × TraceBuf) : Prop :=
  traces.Short (s.pending step) ∨ (file s.piped.writes).Single ∧
    ((file s.piped.writes).failed.isSome → ∃ n, traces.Whole n (s.pending step))

/-! ## `write_data` -/

theorem writeData_ret (buf : List UInt8) (interrupted : List ℕ) (failed : Option ℕ) :
    (writeData buf interrupted failed).2 = failed.isSome := by
  induction interrupted with
  | nil => cases failed <;> rfl
  | cons n interrupted ih => exact ih

theorem writeData_length (buf : List UInt8) (interrupted : List ℕ) (failed : Option ℕ) :
    ∀ out ∈ (writeData buf interrupted failed).1, out.length ≤ buf.length := by
  induction interrupted with
  | nil =>
    intro out hout
    cases failed with
    | none => rw [List.mem_singleton.mp hout]
    | some n =>
      rw [List.mem_singleton.mp hout]
      exact List.length_take_le' n buf
  | cons n interrupted ih =>
    intro out hout
    rcases List.mem_cons.mp hout with rfl | hout
    · exact List.length_take_le' n buf
    · exact ih out hout

/-- The positions that the calls of `fwrite` put out. -/
def positions (start : ℕ) (outs : List (List UInt8)) : List ℕ :=
  outs.flatMap fun out => List.range' start out.length

theorem writeData_nothing (buf : List UInt8) (start : ℕ) {interrupted : List ℕ} {failed : Option ℕ}
    (h : (interrupted ++ [failed.getD 1]).countP (0 < ·) = 0) :
    positions start (writeData buf interrupted failed).1 = [] := by
  induction interrupted with
  | nil =>
    cases failed with
    | none => simp at h
    | some n =>
      obtain rfl : n = 0 := by simpa using h
      rfl
  | cons n interrupted ih =>
    rw [List.cons_append, List.countP_cons, Nat.add_eq_zero_iff] at h
    obtain rfl : n = 0 := by simpa using h.2
    exact ih h.1

theorem writeData_once (buf : List UInt8) (start : ℕ) {interrupted : List ℕ} {failed : Option ℕ}
    (h : (interrupted ++ [failed.getD 1]).countP (0 < ·) ≤ 1) :
    (positions start (writeData buf interrupted failed).1).Nodup := by
  induction interrupted with
  | nil => cases failed <;> simp [writeData, positions, List.nodup_range']
  | cons n interrupted ih =>
    rw [List.cons_append] at h
    by_cases hn : 0 < n
    · rw [List.countP_cons_of_pos (by simpa using hn)] at h
      have hnone := writeData_nothing buf start (Nat.le_zero.mp (Nat.le_of_succ_le_succ h))
      rw [writeData, positions, List.flatMap_cons]
      rw [positions] at hnone
      rw [hnone, List.append_nil]
      exact List.nodup_range'
    · rw [List.countP_cons_of_neg (by simpa using hn)] at h
      obtain rfl : n = 0 := Nat.eq_zero_of_not_pos hn
      exact ih h

/-! ## One buffer -/

variable {bufSize : ℕ} {file : ℕ → Attempts} {s s' : Emitting κ} {step : κ × TraceBuf}

/-- A buffer with no whole trace in front is not written. -/
theorem scan_short {buf : List UInt8} (h : traces.Short buf) : (scan buf buf.length 0 0).1 = 0 := by
  obtain ⟨hoff, hwhole, -⟩ := scan_spec buf buf.length (by omega) (Nat.zero_le _)
    (show traces.Whole 0 (buf.take 0) from .nil)
  generalize hbs : buf.take (scan buf buf.length 0 0).1 = bs at hwhole
  generalize (scan buf buf.length 0 0).2 = nevents at hwhole
  cases hwhole with
  | nil =>
    rw [List.take_eq_nil_iff] at hbs
    rcases hbs with hzero | rfl
    · exact hzero
    · rfl
  | @cons n f bs hf _ =>
    rw [← List.take_append_drop (scan buf buf.length 0 0).1 buf, hbs, List.append_assoc] at h
    exact absurd hf h.not_frame

/-- What `handle_list_file` keeps of a stream behind one buffer, and that it keeps the others. -/
theorem handleBuf_rest {fails : ℕ → Bool} {k : κ} {p p' : Piped κ} {tbp : TraceBuf}
    (h : handleBuf bufSize fails k p tbp = some p') :
    (p'.rest k =
        let buf := p.rest k ++ tbp.buf
        let off := (scan buf buf.length 0 0).1
        if off = 0 then buf else if fails p.writes then [] else buf.drop off) ∧
      ∀ k' ≠ k, p'.rest k' = p.rest k' := by
  obtain ⟨tb, hcombined, hp'⟩ := Option.map_eq_some_iff.mp h
  have hbuf : tb.buf = p.rest k ++ tbp.buf := by
    cases hprev : p.prev k with
    | none =>
      rw [hprev] at hcombined
      obtain rfl := Option.some.inj hcombined
      simp [Piped.rest, hprev]
    | some prev =>
      simp only [hprev, tbCombine] at hcombined
      split_ifs at hcombined <;> simp [← Option.some.inj hcombined, Piped.rest, hprev]
  rw [hbuf] at hp'
  dsimp only at hp' ⊢
  subst hp'
  constructor
  · split_ifs with hzero hfails hall
    · simp [Piped.rest, hbuf]
    · simp [Piped.rest]
    · rw [hall, List.drop_length]
      simp [Piped.rest]
    · simp [Piped.rest]
  · intro k' hk'
    split_ifs <;> simp [Piped.rest, Function.update_of_ne hk']

theorem emitBuf_some (h : emitBuf bufSize file s step = some s') :
    s'.stream = Function.update s.stream step.1 (s.stream step.1 ++ step.2.buf) ∧
      (s'.piped.rest step.1 =
        if s.off step = 0 then s.pending step
        else if (file s.piped.writes).failed.isSome then [] else (s.pending step).drop (s.off step)) ∧
      (∀ k ≠ step.1, s'.piped.rest k = s.piped.rest k) ∧
      s'.writes = if s.off step = 0 then s.writes else s.writes ++ [s.write file step] := by
  obtain ⟨p', hhandle, rfl⟩ := Option.map_eq_some_iff.mp h
  obtain ⟨hrest, hothers⟩ := handleBuf_rest hhandle
  rw [← writeData_ret ((s.pending step).take (s.off step)) (file s.piped.writes).interrupted]
  exact ⟨rfl, hrest, hothers, rfl⟩

omit [DecidableEq κ] in
theorem Boundary.append {bs : List UInt8} {pos : ℕ} (h : Boundary bs pos) (cs : List UInt8) :
    Boundary (bs ++ cs) pos := by
  obtain ⟨hle, n, hwhole⟩ := h
  refine ⟨?_, n, ?_⟩
  · rw [List.length_append]
    exact Nat.le_add_right_of_le hle
  · rw [List.take_append_of_le_length hle]
    exact hwhole

theorem emitted_append {w : Write κ} (h : s'.writes = s.writes ++ [w]) (k : κ) :
    s'.emitted k = s.emitted k ++ if w.key = k then w.positions else [] := by
  by_cases hk : w.key = k <;> simp [Emitting.emitted, h, List.filter_append, hk]

/-- A stream that is not corrupted so far. -/
structure InStep (s : Emitting κ) (k : κ) : Prop where
  /-- What is left begins where a trace does. -/
  rest : ∃ n done, traces.Whole n done ∧ s.stream k = done ++ s.piped.rest k
  starts : ∀ w ∈ s.writes, w.key = k → Boundary (s.stream k) w.start
  once : (s.emitted k).Nodup
  behind : ∀ pos ∈ s.emitted k, pos + (s.piped.rest k).length < (s.stream k).length

theorem inStep_init (k : κ) : InStep ({} : Emitting κ) k where
  rest := ⟨0, [], .nil, rfl⟩
  starts := by simp
  once := List.nodup_nil
  behind := by simp [Emitting.emitted]

/-- A buffer of one stream is none of another. -/
theorem InStep.other {k : κ} (hs : InStep s k) (hk : k ≠ step.1)
    (h : emitBuf bufSize file s step = some s') : InStep s' k := by
  obtain ⟨hstream, -, hothers, hwrites⟩ := emitBuf_some h
  have hsame : s'.stream k = s.stream k := by
    rw [hstream, Function.update_of_ne hk]
  have hemitted : s'.emitted k = s.emitted k := by
    by_cases hzero : s.off step = 0
    · rw [if_pos hzero] at hwrites
      rw [Emitting.emitted, Emitting.emitted, hwrites]
    · rw [if_neg hzero] at hwrites
      rw [emitted_append hwrites, if_neg (show (s.write file step).key ≠ k from Ne.symm hk),
        List.append_nil]
  refine ⟨?_, ?_, ?_, ?_⟩
  · rw [hsame, hothers k hk]
    exact hs.rest
  · intro w hw hwk
    rw [hsame]
    refine hs.starts w ?_ hwk
    split_ifs at hwrites with hzero
    · exact hwrites ▸ hw
    · rw [hwrites] at hw
      rcases List.mem_append.mp hw with hold | hnew
      · exact hold
      · rw [List.mem_singleton.mp hnew] at hwk
        exact absurd hwk (Ne.symm hk)
  · rw [hemitted]
    exact hs.once
  · rw [hemitted, hothers k hk, hsame]
    exact hs.behind

omit [DecidableEq κ] in
/-- Where a write goes: behind the whole traces, and no further than what was scanned. -/
theorem write_spec (file : ℕ → Attempts) {done : List UInt8} (h : s.stream step.1 = done ++ s.piped.rest step.1) :
    (s.write file step).start = done.length ∧
      ∀ pos ∈ (s.write file step).positions, done.length ≤ pos ∧ pos < done.length + s.off step := by
  have hstart : (s.write file step).start = done.length := by
    show (s.stream step.1).length - (s.piped.rest step.1).length = _
    rw [h, List.length_append, Nat.add_sub_cancel]
  refine ⟨hstart, fun pos hpos => ?_⟩
  obtain ⟨out, hout, hmem⟩ := List.mem_flatMap.mp hpos
  have hlen := writeData_length _ _ _ out hout
  rw [List.length_take] at hlen
  rw [hstart, List.mem_range'_1] at hmem
  omega

/-- **A clean write** keeps its stream in step. -/
theorem InStep.same (hs : InStep s step.1) (hclean : CleanWrite file s step)
    (h : emitBuf bufSize file s step = some s') : InStep s' step.1 := by
  obtain ⟨hstream, hrest, -, hwrites⟩ := emitBuf_some h
  obtain ⟨n, done, hdone, hold⟩ := hs.rest
  have hnew : s'.stream step.1 = done ++ s.pending step := by
    rw [hstream, Function.update_self, hold, List.append_assoc]
    rfl
  obtain ⟨hoff, hwhole, hshort⟩ := scan_spec (s.pending step) (s.pending step).length (by omega)
    (Nat.zero_le _) (show traces.Whole 0 ((s.pending step).take 0) from .nil)
  have hgrows : ∀ w ∈ s.writes, w.key = step.1 → Boundary (s'.stream step.1) w.start := by
    intro w hw hk
    rw [hstream, Function.update_self]
    exact (hs.starts w hw hk).append _
  have hbehind : ∀ pos ∈ s.emitted step.1, pos < done.length := by
    intro pos hpos
    have hlt := hs.behind pos hpos
    rw [hold, List.length_append] at hlt
    omega
  by_cases hzero : s.off step = 0
  · rw [if_pos hzero] at hrest hwrites
    have hemitted : s'.emitted step.1 = s.emitted step.1 := by
      rw [Emitting.emitted, Emitting.emitted, hwrites]
    refine ⟨⟨n, done, hdone, by rw [hnew, hrest]⟩, hwrites ▸ hgrows, hemitted ▸ hs.once, ?_⟩
    intro pos hpos
    have hlt := hbehind pos (hemitted ▸ hpos)
    rw [hnew, hrest, List.length_append]
    omega
  · rw [if_neg hzero] at hrest hwrites
    obtain ⟨hsingle, hfails⟩ := hclean.resolve_left fun hshort => hzero (scan_short hshort)
    obtain ⟨hstart, hpositions⟩ := write_spec file hold
    have hemitted := emitted_append hwrites step.1
    rw [if_pos (show (s.write file step).key = step.1 from rfl)] at hemitted
    have hleft : (s'.piped.rest step.1).length + s.off step ≤ (s.pending step).length := by
      rw [hrest]
      split_ifs
      · rw [List.length_nil, Nat.zero_add]
        exact hoff
      · rw [List.length_drop]
        exact (Nat.sub_add_cancel hoff).le
    refine ⟨?_, ?_, ?_, ?_⟩
    · rw [hnew, hrest]
      split_ifs with hfailed
      · obtain ⟨m, hm⟩ := hfails hfailed
        exact ⟨n + m, _, hdone.append hm, by rw [List.append_nil]⟩
      · refine ⟨_, _, hdone.append hwhole, ?_⟩
        rw [List.append_assoc]
        exact congrArg _ (List.take_append_drop _ _).symm
    · intro w hw hk
      rw [hwrites] at hw
      rcases List.mem_append.mp hw with hw | hw
      · exact hgrows w hw hk
      · rw [List.mem_singleton.mp hw, hstart, hnew]
        refine ⟨by simp, n, ?_⟩
        rw [List.take_left]
        exact hdone
    · rw [hemitted, List.nodup_append]
      refine ⟨hs.once, writeData_once _ _ hsingle, ?_⟩
      intro pos hpos pos' hpos'
      exact ((hbehind pos hpos).trans_le (hpositions pos' hpos').1).ne
    · intro pos hpos
      rw [hnew, List.length_append]
      rw [hemitted] at hpos
      rcases List.mem_append.mp hpos with hpos | hpos
      · have hlt := hbehind pos hpos
        omega
      · have hlt := (hpositions pos hpos).2
        omega

/-! ## Every run -/

theorem intact_of_inStep (h : ∀ k, InStep s k) : Intact s where
  aligned as w bs hwrites _ w' hw' _ := by
    refine (h w'.key).starts w' ?_ rfl
    rw [hwrites]
    exact List.mem_append_right _ (List.mem_cons_of_mem _ hw')
  once k := (h k).once

/-- **As long as the writes are clean** the piped stream is not corrupted, in every state that a run
reaches. -/
theorem intact_of_clean {steps : List (κ × TraceBuf)}
    (hclean : Runs.Along (emitBuf bufSize file) (CleanWrite file) {} steps) :
    Intact (Runs.run (emitBuf bufSize file) {} steps) := by
  apply intact_of_inStep
  refine Runs.run_invariant_of (P := fun s => ∀ k, InStep s k) ?_ hclean inStep_init
  intro s step s' hs hstep h k
  by_cases hk : k = step.1
  · subst hk
    exact (hs step.1).same hstep h
  · exact (hs k).other hk h

/-- Every buffer kept has its room. -/
def Roomed (bufSize : ℕ) (p : Piped κ) : Prop :=
  ∀ k prev, p.prev k = some prev → prev.buf.length ≤ prev.room ∧ bufSize ≤ prev.room

theorem handleBuf_reads (fails : ℕ → Bool) (k : κ) {p : Piped κ} {tbp : TraceBuf}
    (hroom : Roomed bufSize p) (hread : Read bufSize tbp) :
    ∃ p', handleBuf bufSize fails k p tbp = some p' ∧ Roomed bufSize p' := by
  obtain ⟨tb, hcombined, -, hle, hbig⟩ := combine_spec (hroom k) (hread.room ▸ hread.le) hread.room.ge
  unfold handleBuf
  rw [hcombined]
  refine ⟨_, rfl, fun k' prev hprev => ?_⟩
  dsimp only at hprev
  by_cases hk : k' = k
  · subst hk
    have hkept : prev.buf.length ≤ tb.buf.length ∧ prev.room = tb.room := by
      split_ifs at hprev <;> simp only [Function.update_self, Option.some.injEq, reduceCtorEq] at hprev
      · rw [← hprev]
        exact ⟨le_refl _, rfl⟩
      · rw [← hprev, List.length_drop]
        exact ⟨Nat.sub_le _ _, rfl⟩
    rw [hkept.2]
    exact ⟨hkept.1.trans hle, hbig⟩
  · refine hroom k' prev ?_
    split_ifs at hprev <;> exact (Function.update_of_ne hk _ _).symm.trans hprev

/-- **No step of a run is left out**, when the buffers are as a tracer reads them. -/
theorem run_reads {steps : List (κ × TraceBuf)} (hread : ∀ step ∈ steps, Read bufSize step.2) :
    Runs.Along (emitBuf bufSize file) (fun s step => (emitBuf bufSize file s step).isSome) {} steps := by
  have hdefined : ∀ s : Emitting κ, ∀ step, Roomed bufSize s.piped → Read bufSize step.2 →
      ∃ s', emitBuf bufSize file s step = some s' ∧ Roomed bufSize s'.piped := by
    intro s step hroom hbuf
    obtain ⟨p', hhandle, hroom'⟩ :=
      handleBuf_reads (fun _ => (s.write file step).failed) step.1 hroom hbuf
    refine ⟨_, by rw [emitBuf, hhandle]; rfl, hroom'⟩
  have halong : Runs.Along (emitBuf bufSize file) (fun _ step => Read bufSize step.2) {} steps := by
    intro as step bs hsteps
    exact hread step (by simp [hsteps])
  refine halong.of_invariant (P := fun s => Roomed bufSize s.piped) ?_ ?_ ?_
  · intro s step s' hroom hbuf h
    obtain ⟨s'', hs'', hroom'⟩ := hdefined s step hroom hbuf
    rw [h] at hs''
    rw [Option.some.inj hs'']
    exact hroom'
  · intro s step hroom hbuf
    obtain ⟨s', hs', -⟩ := hdefined s step hroom hbuf
    rw [hs']
    rfl
  · intro k prev hprev
    nomatch hprev

/-! ## Writes that are not clean -/

theorem writeData_start {buf : List UInt8} (hne : buf ≠ []) (start : ℕ) {interrupted : List ℕ}
    {failed : Option ℕ} (h : 0 < (interrupted ++ [failed.getD 1]).countP (0 < ·)) :
    start ∈ positions start (writeData buf interrupted failed).1 := by
  have htake : ∀ n, 0 < n → start ∈ List.range' start (buf.take n).length := by
    intro n hn
    have hlen := List.length_pos_iff.mpr hne
    rw [List.mem_range'_1, List.length_take]
    omega
  induction interrupted with
  | nil =>
    rw [writeData.eq_def]
    cases failed with
    | none => simpa [positions] using htake buf.length (List.length_pos_iff.mpr hne)
    | some n =>
      have hn : 0 < n := by
        apply Nat.pos_of_ne_zero
        rintro rfl
        simp at h
      simpa [positions] using htake n hn
  | cons n interrupted ih =>
    rw [writeData, positions, List.flatMap_cons, List.mem_append]
    by_cases hn : 0 < n
    · exact .inl (htake n hn)
    · rw [List.cons_append, List.countP_cons_of_neg (by simpa using hn)] at h
      exact .inr (ih h)

theorem writeData_twice {buf : List UInt8} (hne : buf ≠ []) (start : ℕ) {interrupted : List ℕ}
    {failed : Option ℕ} (h : 1 < (interrupted ++ [failed.getD 1]).countP (0 < ·)) :
    ¬ (positions start (writeData buf interrupted failed).1).Nodup := by
  induction interrupted with
  | nil =>
    have hle := List.countP_le_length (p := (0 < ·)) (l := [failed.getD 1])
    rw [List.length_singleton] at hle
    exact absurd (h.trans_le hle) (lt_irrefl 1)
  | cons n interrupted ih =>
    rw [writeData, positions, List.flatMap_cons, List.nodup_append]
    rintro ⟨-, hnodup, hdisjoint⟩
    rw [List.cons_append] at h
    by_cases hn : 0 < n
    · rw [List.countP_cons_of_pos (by simpa using hn)] at h
      have hfirst : start ∈ List.range' start (buf.take n).length := by
        have hlen := List.length_pos_iff.mpr hne
        rw [List.mem_range'_1, List.length_take]
        omega
      exact hdisjoint start hfirst start (writeData_start hne start (Nat.lt_of_succ_lt_succ h)) rfl
    · rw [List.countP_cons_of_neg (by simpa using hn)] at h
      exact ih h hnodup

/-- **A write that is begun anew** behind bytes that are out emits some of them twice. -/
theorem emitted_twice (h : emitBuf bufSize file s step = some s') (hwrite : s.off step ≠ 0)
    (hagain : ¬ (file s.piped.writes).Single) : ¬ (s'.emitted step.1).Nodup := by
  obtain ⟨-, -, -, hwrites⟩ := emitBuf_some h
  rw [if_neg hwrite] at hwrites
  rw [emitted_append hwrites, if_pos (show (s.write file step).key = step.1 from rfl), List.nodup_append]
  rintro ⟨-, hnodup, -⟩
  have hne : (s.pending step).take (s.off step) ≠ [] := by
    intro hnil
    rcases List.take_eq_nil_iff.mp hnil with hzero | hempty
    · exact hwrite hzero
    · refine hwrite (scan_short ?_)
      rw [hempty]
      exact Framing.short_nil
  exact writeData_twice hne _ (not_le.mp hagain) hnodup

/-- What is left of a stream begins inside a trace. -/
def Adrift (s : Emitting κ) (k : κ) : Prop :=
  ∃ front, s.stream k = front ++ s.piped.rest k ∧ ∀ n, ¬ traces.Whole n front

/-- **A write that fails** with a part of a trace behind it sets its stream adrift. -/
theorem adrift_of_failed (hs : InStep s step.1) (h : emitBuf bufSize file s step = some s')
    (hwrite : s.off step ≠ 0) (hfailed : (file s.piped.writes).failed.isSome)
    (hpart : ∀ n, ¬ traces.Whole n (s.pending step)) : Adrift s' step.1 := by
  obtain ⟨hstream, hrest, -, -⟩ := emitBuf_some h
  obtain ⟨n, done, hdone, hold⟩ := hs.rest
  rw [if_neg hwrite, if_pos hfailed] at hrest
  refine ⟨done ++ s.pending step, ?_, fun m hm => ?_⟩
  · rw [hstream, Function.update_self, hold, hrest, List.append_nil, List.append_assoc]
    rfl
  · -- the whole traces of the stream end where the part begins
    obtain ⟨hoff, hwhole, hshort⟩ := scan_spec (s.pending step) (s.pending step).length (by omega)
      (Nat.zero_le _) (show traces.Whole 0 ((s.pending step).take 0) from .nil)
    have hlongest := (hdone.append hwhole).longest hshort
    rw [List.append_assoc, List.take_append_drop] at hlongest
    have hle := (hlongest.longest m _ (List.prefix_refl _) hm).1
    rw [List.length_append, List.length_append, List.length_take] at hle
    rw [List.take_of_length_le (by omega)] at hwhole
    exact hpart _ hwhole

/-- **The next write** of a stream adrift begins inside a trace, and until then it is adrift. -/
theorem Adrift.next {k : κ} (hs : Adrift s k) (h : emitBuf bufSize file s step = some s') :
    if step.1 = k ∧ s.off step ≠ 0 then ¬ Boundary (s'.stream k) (s.write file step).start
    else Adrift s' k := by
  obtain ⟨hstream, hrest, hothers, -⟩ := emitBuf_some h
  obtain ⟨front, hfront, hpart⟩ := hs
  by_cases hk : step.1 = k
  · subst hk
    have hnew : s'.stream step.1 = front ++ s.pending step := by
      rw [hstream, Function.update_self, hfront, List.append_assoc]
      rfl
    by_cases hzero : s.off step = 0
    · rw [if_neg (by simp [hzero])]
      rw [if_pos hzero] at hrest
      exact ⟨front, by rw [hnew, hrest], hpart⟩
    · rw [if_pos ⟨rfl, hzero⟩]
      have hstart : (s.write file step).start = front.length := by
        show (s.stream step.1).length - (s.piped.rest step.1).length = _
        rw [hfront, List.length_append, Nat.add_sub_cancel]
      rintro ⟨-, n, hwhole⟩
      rw [hstart, hnew, List.take_left] at hwhole
      exact hpart n hwhole
  · rw [if_neg (by simp [hk])]
    refine ⟨front, ?_, hpart⟩
    rw [hstream, Function.update_of_ne (Ne.symm hk), hothers k (Ne.symm hk), hfront]

/-- A trace with no payload. -/
def bareTrace : List UInt8 := [0x07, 0x74, 0x61, 0x65] ++ List.replicate 44 0

/-- Three traces, cut ten bytes into the second. -/
def cutBehind : List (Unit × TraceBuf) :=
  let bytes := bareTrace ++ bareTrace ++ bareTrace
  [((), { buf := bytes.take 58, room := 96 }), ((), { buf := bytes.drop 58, room := 96 })]

/-- The first write fails, and the others do not. -/
def firstFails (m : ℕ) : Attempts := if m = 0 then { failed := some 0 } else {}

theorem whole_bareTrace : traces.Whole 1 bareTrace := .single (by decide)

theorem intact_of_clean_bareTrace :
    let file : ℕ → Attempts := fun _ => { interrupted := [0], failed := some 5 }
    Intact (Runs.run (emitBuf 48 file) {} [((), { buf := bareTrace, room := 48 })]) := by
  refine intact_of_clean (Runs.along_cons.mpr ⟨.inr ⟨?_, fun _ => ⟨1, ?_⟩⟩, .nil _⟩)
  · show [0, 5].countP (0 < ·) ≤ 1
    decide
  · exact whole_bareTrace

/-- The stream begins anew inside the second trace. -/
theorem not_intact_cutBehind : (∀ step ∈ cutBehind, Read 96 step.2) ∧
    ¬ Intact (Runs.run (emitBuf 96 firstFails) {} cutBehind) := by
  constructor
  · intro step hstep
    simp only [cutBehind, List.mem_cons, List.not_mem_nil, or_false] at hstep
    rcases hstep with rfl | rfl <;> exact ⟨by decide, by decide, rfl⟩
  · intro hintact
    have hwrites : (Runs.run (emitBuf 96 firstFails) {} cutBehind).writes.map
        (fun w => (w.start, w.failed)) = [(0, true), (58, false)] := by decide +kernel
    have hstream : (Runs.run (emitBuf 96 firstFails) {} cutBehind).stream () =
        bareTrace ++ bareTrace ++ bareTrace := by decide +kernel
    obtain ⟨w, ws, hw, hfirst, hws⟩ := List.map_eq_cons_iff.mp hwrites
    obtain ⟨w', ws', hw', hsecond, -⟩ := List.map_eq_cons_iff.mp hws
    have hstart : w'.start = 58 := congrArg Prod.fst hsecond
    obtain ⟨-, n, hwhole⟩ := hintact.aligned [] w ws hw (congrArg Prod.snd hfirst) w'
      (by simp [hw']) rfl
    rw [hstream, hstart] at hwhole
    have hshort : traces.Short (bareTrace.take 10) := .inl (by decide)
    have hlongest := whole_bareTrace.longest hshort
    have hle := (hlongest.longest n _ (List.prefix_refl _) hwhole).1
    revert hle
    decide

end Blktrace.Tracer
