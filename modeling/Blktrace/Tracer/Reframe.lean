import Blktrace.Lib.Framing
import Blktrace.Image

/-!
# `blktrace.c`: whole traces to a pipe

A buffer that a tracer has read may end inside a trace. `handle_list_file` writes what is whole of
the leftover and the buffer together, and keeps the rest in `hd->prev`. A buffer has room for
`buf_size` bytes unless `tb_combine` made more; a copy beyond the room would be `none`.
-/

namespace Blktrace.Tracer

open Bytes

/-! ## The header of a trace -/

/-- A layout that reads its own bytes only. -/
def Local {α : Type*} (l : Layout α) : Prop :=
  ∀ bs cs : List UInt8, l.size ≤ bs.length → l.load (bs ++ cs) = l.load bs

theorem local_word {α : Type*} {size : ℕ} {num : α → ℕ} {val : ℕ → α}
    {hnum : ∀ a, num a < 256 ^ size} {hval : ∀ a, val (num a) = a} (big : Bool) :
    Local (word size num val hnum hval big) := by
  intro bs cs h
  simp only [word, List.take_append_of_le_length (show size ≤ bs.length from h)]

theorem Local.prod {α β : Type*} {l : Layout α} {m : Layout β} (hl : Local l) (hm : Local m) :
    Local (l.prod m) := by
  intro bs cs h
  have hlen : l.size + m.size ≤ bs.length := h
  have hdrop : (bs ++ cs).drop l.size = bs.drop l.size ++ cs :=
    List.drop_append_of_le_length (by omega)
  simp only [Layout.prod, hl bs cs (by omega), hdrop]
  rw [hm _ cs (by rw [List.length_drop]; omega)]

theorem local_headerLayout (big : Bool) : Local (headerLayout big) := by
  have h16 : Local (u16 big) := local_word big
  have h32 : Local (u32 big) := local_word big
  have h64 : Local (u64 big) := local_word big
  exact h32.prod <| h32.prod <| h64.prod <| h64.prod <| h32.prod <| h32.prod <| h32.prod <|
    h32.prod <| h32.prod <| h16.prod h16

/-- `sizeof(*t) + t->pdu_len`. -/
def tLen (bs : List UInt8) : ℕ := traceSize + (loadTrace bs).pduLen.toNat

/-- The traces of a relay file. -/
def traces : Framing UInt8 where
  head := traceSize
  size := tLen
  head_pos := by decide
  head_le _ := Nat.le_add_right _ _
  size_append cs h := by rw [tLen, tLen, loadTrace, loadTrace, local_headerLayout false _ cs h]

/-! ## `struct trace_buf` -/

/-- What is in a buffer, and how much it has room for. -/
structure TraceBuf where
  buf : List UInt8
  room : ℕ

/-- `tb_combine`: `tbp`'s bytes behind those of `prev`. -/
def tbCombine (bufSize : ℕ) (prev tbp : TraceBuf) : Option TraceBuf :=
  let totLen := prev.buf.length + tbp.buf.length
  let room := if totLen > bufSize then totLen else prev.room
  if totLen ≤ room then some { buf := prev.buf ++ tbp.buf, room := room } else none

/-- The `while` of `handle_list_file`: `off` and `nevents` behind the whole traces. -/
def scan (buf : List UInt8) : ℕ → ℕ → ℕ → ℕ × ℕ
  | 0, off, nevents => (off, nevents)
  | fuel + 1, off, nevents =>
    if off + traceSize ≤ buf.length then
      let len := tLen (buf.drop off)
      if off + len > buf.length then (off, nevents) else scan buf fuel (off + len) (nevents + 1)
    else (off, nevents)

/-! ## The output -/

/-- What `handle_list_file` keeps for each device and CPU, and what it has written, in order. -/
structure Piped (κ : Type*) where
  prev : κ → Option TraceBuf := fun _ => none
  nevents : κ → ℕ := fun _ => 0
  written : List (κ × List UInt8) := []
  /-- How often `write_data` was called. -/
  writes : ℕ := 0

variable {κ : Type*} [DecidableEq κ]

/-- One buffer of the list of `k`. Whether `write_data` fails is up to the file. -/
def handleBuf (bufSize : ℕ) (fails : ℕ → Bool) (k : κ) (s : Piped κ) (tbp : TraceBuf) :
    Option (Piped κ) :=
  let combined := match s.prev k with
    | some prev => tbCombine bufSize prev tbp
    | none => some tbp
  combined.map fun tbp =>
    let (off, nevents) := scan tbp.buf tbp.buf.length 0 0
    let s := { s with nevents := Function.update s.nevents k (s.nevents k + nevents) }
    if off = 0 then { s with prev := Function.update s.prev k (some tbp) }
    else if fails s.writes then
      { s with writes := s.writes + 1, prev := Function.update s.prev k none }
    else
      let s :=
        { s with writes := s.writes + 1, written := s.written ++ [(k, tbp.buf.take off)] }
      if off = tbp.buf.length then { s with prev := Function.update s.prev k none }
      else
        let rest := { tbp with buf := tbp.buf.drop off }
        { s with prev := Function.update s.prev k (some rest) }

/-- `handle_list_file`. -/
def handleListFile (bufSize : ℕ) (fails : ℕ → Bool) (k : κ) (list : List TraceBuf)
    (s : Piped κ) : Option (Piped κ) :=
  list.foldlM (handleBuf bufSize fails k) s

/-- The calls of `__process_trace_bufs`, over the devices and CPUs and over time. -/
def handleLists (bufSize : ℕ) (fails : ℕ → Bool) (calls : List (κ × List TraceBuf))
    (s : Piped κ) : Option (Piped κ) :=
  calls.foldlM (fun s call => handleListFile bufSize fails call.1 call.2 s) s

/-! ## Streams -/

/-- The bytes that a header claims, if they are there, are a frame. -/
theorem size_take {bs : List UInt8} (h : tLen bs ≤ bs.length) :
    tLen (bs.take (tLen bs)) = (bs.take (tLen bs)).length := by
  have hlen : (bs.take (tLen bs)).length = tLen bs := List.length_take_of_le h
  have hhead : traces.head ≤ (bs.take (tLen bs)).length := by
    rw [hlen]
    exact traces.head_le bs
  have hsize := traces.size_append (bs.drop (tLen bs)) hhead
  rw [List.take_append_drop] at hsize
  rw [hlen]
  exact hsize.symm

/-- The scan stops behind the last whole trace. -/
theorem scan_spec (buf : List UInt8) (fuel : ℕ) {off nevents : ℕ} (hfuel : buf.length ≤ off + fuel)
    (hoff : off ≤ buf.length) (hwhole : traces.Whole nevents (buf.take off)) :
    (scan buf fuel off nevents).1 ≤ buf.length ∧
      traces.Whole (scan buf fuel off nevents).2 (buf.take (scan buf fuel off nevents).1) ∧
      traces.Short (buf.drop (scan buf fuel off nevents).1) := by
  induction fuel generalizing off nevents with
  | zero =>
    have hend : off = buf.length := by omega
    refine ⟨hoff, hwhole, ?_⟩
    simp only [scan, hend, List.drop_length]
    exact Framing.short_nil
  | succ fuel ih =>
    rw [scan]
    dsimp only
    have hdrop : (buf.drop off).length = buf.length - off := List.length_drop
    split_ifs with hhead hlen
    · refine ⟨hoff, hwhole, .inr ?_⟩
      show (buf.drop off).length < tLen (buf.drop off)
      omega
    · have hpos : traceSize ≤ tLen (buf.drop off) := traces.head_le _
      have hsize : 0 < traceSize := by decide
      refine ih (by omega) (by omega) ?_
      rw [List.take_add]
      exact hwhole.append (.single (size_take (by omega)))
    · refine ⟨hoff, hwhole, .inl ?_⟩
      show (buf.drop off).length < traceSize
      omega

/-- The bytes written of a stream. -/
def Piped.out (s : Piped κ) (k : κ) : List (List UInt8) :=
  (s.written.filter (fun w => w.1 = k)).map Prod.snd

/-- The bytes that are left of it. -/
def Piped.rest (s : Piped κ) (k : κ) : List UInt8 :=
  match s.prev k with
  | some prev => prev.buf
  | none => []

/-- The bytes delivered of a stream. -/
def delivered (calls : List (κ × List TraceBuf)) (k : κ) : List UInt8 :=
  ((calls.filter (fun call => call.1 = k)).flatMap Prod.snd).flatMap TraceBuf.buf

/-- What the function keeps of a stream, when `bs` is what came of it. -/
structure Reframed (bufSize : ℕ) (s : Piped κ) (k : κ) (bs : List UInt8) : Prop where
  bytes : (s.out k).flatten ++ s.rest k = bs
  whole : traces.Whole (s.nevents k) (s.out k).flatten
  short : traces.Short (s.rest k)
  /-- Every write is of whole traces, and of one at least. -/
  writes : ∀ w ∈ s.out k, ∃ n, 0 < n ∧ traces.Whole n w
  prev : ∀ prev, s.prev k = some prev → prev.buf ≠ [] ∧ prev.buf.length ≤ prev.room ∧
    bufSize ≤ prev.room

theorem reframed_init (bufSize : ℕ) (k : κ) : Reframed bufSize ({} : Piped κ) k [] where
  bytes := rfl
  whole := .nil
  short := Framing.short_nil
  writes := by simp [Piped.out]
  prev := by simp

omit [DecidableEq κ] in
/-- What is left of a stream and the next buffer of it. -/
theorem combine_spec {bufSize : ℕ} {s : Piped κ} {k : κ} {tbp : TraceBuf}
    (hr : ∀ prev, s.prev k = some prev → prev.buf.length ≤ prev.room ∧ bufSize ≤ prev.room)
    (hle : tbp.buf.length ≤ tbp.room) (hroom : bufSize ≤ tbp.room) :
    ∃ tb : TraceBuf, (match s.prev k with
        | some prev => tbCombine bufSize prev tbp
        | none => some tbp) = some tb ∧
      tb.buf = s.rest k ++ tbp.buf ∧ tb.buf.length ≤ tb.room ∧ bufSize ≤ tb.room := by
  cases hprev : s.prev k with
  | none => exact ⟨tbp, rfl, by simp [Piped.rest, hprev], hle, hroom⟩
  | some prev =>
    obtain ⟨hlen, hbig⟩ := hr prev hprev
    simp only [tbCombine, Piped.rest, hprev]
    by_cases htot : prev.buf.length + tbp.buf.length > bufSize
    · rw [if_pos htot, if_pos (le_refl _)]
      exact ⟨_, rfl, rfl, by simp, le_of_lt htot⟩
    · have hfits : prev.buf.length + tbp.buf.length ≤ prev.room := by omega
      rw [if_neg htot, if_pos hfits]
      exact ⟨_, rfl, rfl, by rw [List.length_append]; exact hfits, hbig⟩

theorem out_append {s s' : Piped κ} {k : κ} {w : List UInt8} (h : s'.written = s.written ++ [(k, w)])
    (k' : κ) : s'.out k' = s.out k' ++ if k = k' then [w] else [] := by
  by_cases hk : k = k' <;> simp [Piped.out, h, List.filter_append, hk]

theorem Reframed.congr {bufSize : ℕ} {s s' : Piped κ} {k : κ} {bs : List UInt8}
    (hr : Reframed bufSize s k bs) (hout : s'.out k = s.out k) (hprev : s'.prev k = s.prev k)
    (hnevents : s'.nevents k = s.nevents k) : Reframed bufSize s' k bs where
  bytes := by
    rw [hout, Piped.rest, hprev]
    exact hr.bytes
  whole := by
    rw [hout, hnevents]
    exact hr.whole
  short := by
    rw [Piped.rest, hprev]
    exact hr.short
  writes := by
    rw [hout]
    exact hr.writes
  prev := by
    rw [hprev]
    exact hr.prev

/-- **One buffer.** If the write succeeds, nothing is copied beyond a buffer's room, and what is whole
is written. -/
theorem handleBuf_spec {bufSize : ℕ} {fails : ℕ → Bool} {k : κ} {s : Piped κ} {bs : List UInt8}
    {tbp : TraceBuf} (hok : ∀ m, fails m = false) (hr : Reframed bufSize s k bs)
    (hne : tbp.buf ≠ []) (hle : tbp.buf.length ≤ tbp.room) (hroom : bufSize ≤ tbp.room) :
    ∃ s', handleBuf bufSize fails k s tbp = some s' ∧ Reframed bufSize s' k (bs ++ tbp.buf) ∧
      ∀ k' bs', k' ≠ k → Reframed bufSize s k' bs' → Reframed bufSize s' k' bs' := by
  obtain ⟨tb, hcombined, hbuf, htbLe, htbRoom⟩ := combine_spec (fun prev h => (hr.prev prev h).2) hle hroom
  obtain ⟨hoff, hwhole, hshort⟩ := scan_spec tb.buf tb.buf.length (by omega) (Nat.zero_le _)
    (show traces.Whole 0 (tb.buf.take 0) from .nil)
  unfold handleBuf
  rw [hcombined, Option.map_some]
  generalize hscan : scan tb.buf tb.buf.length 0 0 = result at hoff hwhole hshort
  obtain ⟨off, nevents⟩ := result
  dsimp only at hoff hwhole hshort ⊢
  have hbytes : (s.out k).flatten ++ (tb.buf.take off ++ tb.buf.drop off) = bs ++ tbp.buf := by
    rw [List.take_append_drop, hbuf, ← List.append_assoc, hr.bytes]
  have htbNe : tb.buf ≠ [] := by
    rw [hbuf]
    simp [hne]
  have hadvance : ∀ s' : Piped κ, (s'.out k).flatten = (s.out k).flatten ++ tb.buf.take off →
      s'.rest k = tb.buf.drop off → s'.nevents k = s.nevents k + nevents →
      (∀ w ∈ s'.out k, ∃ m, 0 < m ∧ traces.Whole m w) →
      (∀ prev, s'.prev k = some prev → prev.buf ≠ [] ∧ prev.buf.length ≤ prev.room ∧
        bufSize ≤ prev.room) → Reframed bufSize s' k (bs ++ tbp.buf) := by
    intro s' hout hrest hnevents hwrites hprev
    refine ⟨?_, ?_, ?_, hwrites, hprev⟩
    · rw [hout, hrest, List.append_assoc, hbytes]
    · rw [hout, hnevents]
      exact hr.whole.append hwhole
    · rw [hrest]
      exact hshort
  have hwritten : ∀ s' : Piped κ, s'.written = s.written ++ [(k, tb.buf.take off)] →
      s'.out k = s.out k ++ [tb.buf.take off] := by
    intro s' h
    rw [out_append h k, if_pos rfl]
  have hwrites : off ≠ 0 → ∀ w ∈ s.out k ++ [tb.buf.take off], ∃ m, 0 < m ∧ traces.Whole m w := by
    intro hpos w hw
    rcases List.mem_append.mp hw with hold | hnew
    · exact hr.writes w hold
    · rw [List.mem_singleton.mp hnew]
      refine ⟨nevents, Nat.pos_of_ne_zero fun hzero => ?_, hwhole⟩
      rw [hzero] at hwhole
      have hlen := congrArg List.length hwhole.eq_nil
      rw [List.length_take_of_le hoff] at hlen
      exact hpos hlen
  refine ⟨_, rfl, ?_, fun k' bs' hk' hr' => ?_⟩
  · split_ifs with hzero hfails hall
    · subst hzero
      refine hadvance _ ?_ ?_ ?_ hr.writes ?_
      · show (s.out k).flatten = _
        simp
      · simp [Piped.rest]
      · simp
      · intro prev hprev
        simp only [Function.update_self, Option.some.injEq] at hprev
        exact hprev ▸ ⟨htbNe, htbLe, htbRoom⟩
    · exact absurd hfails (by simp [hok])
    · refine hadvance _ ?_ ?_ ?_ ?_ ?_
      · rw [hwritten _ rfl, List.flatten_append, List.flatten_singleton]
      · simp [Piped.rest, hall]
      · simp
      · rw [hwritten _ rfl]
        exact hwrites hzero
      · simp
    · refine hadvance _ ?_ ?_ ?_ ?_ ?_
      · rw [hwritten _ rfl, List.flatten_append, List.flatten_singleton]
      · simp [Piped.rest]
      · simp
      · rw [hwritten _ rfl]
        exact hwrites hzero
      · intro prev hprev
        simp only [Function.update_self, Option.some.injEq] at hprev
        subst hprev
        refine ⟨fun hnil => ?_, ?_, htbRoom⟩
        · exact hall (le_antisymm hoff (List.drop_eq_nil_iff.mp hnil))
        · show (tb.buf.drop off).length ≤ tb.room
          rw [List.length_drop]
          omega
  · have hout : ∀ s' : Piped κ, s'.written = s.written ++ [(k, tb.buf.take off)] →
        s'.out k' = s.out k' := by
      intro s' h
      rw [out_append h k', if_neg (Ne.symm hk'), List.append_nil]
    split_ifs with hzero hfails hall
    · exact hr'.congr rfl (by simp [Function.update_of_ne hk']) (by simp [Function.update_of_ne hk'])
    · exact absurd hfails (by simp [hok])
    · exact hr'.congr (hout _ rfl) (by simp [Function.update_of_ne hk'])
        (by simp [Function.update_of_ne hk'])
    · exact hr'.congr (hout _ rfl) (by simp [Function.update_of_ne hk'])
        (by simp [Function.update_of_ne hk'])

/-- A buffer as a tracer reads it. -/
structure Read (bufSize : ℕ) (tbp : TraceBuf) : Prop where
  ne_nil : tbp.buf ≠ []
  le : tbp.buf.length ≤ bufSize
  room : tbp.room = bufSize

/-- **One list.** -/
theorem handleListFile_spec {bufSize : ℕ} {fails : ℕ → Bool} (hok : ∀ m, fails m = false) (k : κ)
    (list : List TraceBuf) (hread : ∀ tbp ∈ list, Read bufSize tbp) {s : Piped κ}
    {bs : κ → List UInt8} (hr : ∀ k', Reframed bufSize s k' (bs k')) :
    ∃ s', handleListFile bufSize fails k list s = some s' ∧
      ∀ k', Reframed bufSize s' k'
        (bs k' ++ if k = k' then list.flatMap TraceBuf.buf else []) := by
  induction list generalizing s bs with
  | nil => exact ⟨s, rfl, fun k' => by simpa using hr k'⟩
  | cons tbp list ih =>
    have hbuf := hread tbp List.mem_cons_self
    obtain ⟨s₁, hstep, hstream, hothers⟩ := handleBuf_spec hok (hr k) hbuf.ne_nil
      (hbuf.room ▸ hbuf.le) (le_of_eq hbuf.room.symm)
    have hr₁ : ∀ k', Reframed bufSize s₁ k' (bs k' ++ if k = k' then tbp.buf else []) := by
      intro k'
      by_cases hk : k = k'
      · subst hk
        simpa using hstream
      · simpa [hk] using hothers k' (bs k') (Ne.symm hk) (hr k')
    obtain ⟨s', hrest, hr'⟩ := ih (fun tbp h => hread tbp (List.mem_cons_of_mem _ h)) hr₁
    refine ⟨s', ?_, fun k' => ?_⟩
    · rw [handleListFile, List.foldlM_cons, hstep]
      exact hrest
    · have h := hr' k'
      by_cases hk : k = k' <;> simpa [hk] using h

/-- **Every run of calls.** -/
theorem handleLists_spec {bufSize : ℕ} {fails : ℕ → Bool} (hok : ∀ m, fails m = false)
    (calls : List (κ × List TraceBuf)) (hread : ∀ call ∈ calls, ∀ tbp ∈ call.2, Read bufSize tbp)
    {s : Piped κ} {bs : κ → List UInt8} (hr : ∀ k, Reframed bufSize s k (bs k)) :
    ∃ s', handleLists bufSize fails calls s = some s' ∧
      ∀ k, Reframed bufSize s' k (bs k ++ delivered calls k) := by
  induction calls generalizing s bs with
  | nil => exact ⟨s, rfl, fun k => by simpa [delivered] using hr k⟩
  | cons call calls ih =>
    obtain ⟨s₁, hcall, hr₁⟩ := handleListFile_spec hok call.1 call.2 (hread call List.mem_cons_self) hr
    obtain ⟨s', hrest, hr'⟩ := ih (fun c h => hread c (List.mem_cons_of_mem _ h)) hr₁
    refine ⟨s', ?_, fun k => ?_⟩
    · rw [handleLists, List.foldlM_cons, hcall]
      exact hrest
    · have h := hr' k
      by_cases hk : call.1 = k
      · simpa [delivered, hk] using h
      · simpa [delivered, hk] using h

/-- What is left is less than the longest trace, so that no `int` of the loop overflows. -/
theorem Reframed.rest_length_lt {bufSize : ℕ} {s : Piped κ} {k : κ} {bs : List UInt8}
    (hr : Reframed bufSize s k bs) : (s.rest k).length < traceSize + 65536 := by
  have hpdu := (loadTrace (s.rest k)).pduLen.toNat_lt
  rcases hr.short with hhead | hsize
  · exact Nat.lt_add_right _ hhead
  · apply Nat.lt_trans hsize
    exact Nat.add_lt_add_left hpdu _

/-- **The writes of a stream are its whole traces**, whatever the cuts, the lists and the calls. The
calls of a theorem are all there have been so far, so this holds at every moment. -/
theorem piped_longest {bufSize : ℕ} {fails : ℕ → Bool} (hok : ∀ m, fails m = false)
    (calls : List (κ × List TraceBuf)) (hread : ∀ call ∈ calls, ∀ tbp ∈ call.2, Read bufSize tbp) :
    ∃ s, handleLists bufSize fails calls {} = some s ∧ ∀ k,
      traces.Longest (delivered calls k) (s.out k).flatten (s.nevents k) ∧
      (∀ w ∈ s.out k, ∃ n, 0 < n ∧ traces.Whole n w) ∧
      (s.out k).flatten ++ s.rest k = delivered calls k ∧
      (s.prev k = none ↔ s.rest k = []) := by
  obtain ⟨s, hrun, hr⟩ := handleLists_spec hok calls hread (fun k => reframed_init bufSize k)
  refine ⟨s, hrun, fun k => ?_⟩
  have hk := hr k
  rw [List.nil_append] at hk
  refine ⟨?_, hk.writes, hk.bytes, ?_⟩
  · rw [← hk.bytes]
    exact hk.whole.longest hk.short
  · cases hprev : s.prev k with
    | none => simp [Piped.rest, hprev]
    | some prev =>
      have hne := (hk.prev prev hprev).1
      simp [Piped.rest, hprev, hne]

/-- A trace with two bytes of payload, cut in its header. -/
def cutTrace : List TraceBuf :=
  let bytes := List.replicate 46 0 ++ [2, 0] ++ List.replicate 2 0
  [{ buf := bytes.take 20, room := 40 }, { buf := bytes.drop 20, room := 40 }]

theorem piped_longest_cut :
    (∀ call ∈ [((), cutTrace)], ∀ tbp ∈ call.2, Read 40 tbp) ∧
      ∃ s, handleLists 40 (fun _ => false) [((), cutTrace)] {} = some s ∧
        traces.Longest (delivered [((), cutTrace)] ()) (s.out ()).flatten (s.nevents ()) := by
  have hread : ∀ call ∈ [((), cutTrace)], ∀ tbp ∈ call.2, Read 40 tbp := by
    intro call hcall tbp htbp
    rw [List.mem_singleton.mp hcall] at htbp
    revert tbp
    simp only [cutTrace, List.mem_cons, forall_eq_or_imp, List.not_mem_nil, false_implies,
      implies_true, and_true]
    exact ⟨⟨by decide, by decide, rfl⟩, ⟨by decide, by decide, rfl⟩⟩
  obtain ⟨s, hrun, hr⟩ := piped_longest (fun _ => rfl) [((), cutTrace)] hread
  exact ⟨hread, s, hrun, (hr ()).1⟩

example : ((handleLists 40 (fun _ => false) [((), cutTrace)] {}).map fun s =>
    (s.nevents (), s.writes, (s.rest ()).length)) = some (1, 1, 0) := by decide

end Blktrace.Tracer
