import Blktrace.Iowatcher.Fio

/-!
# `iowatcher/fio.c`: the end of a bandwidth log

`find_last_fio_time` keeps the largest time of the lines it parses, and then goes by the time that it read
last, which may be that of the line it stops at, or no time at all.
-/

namespace Blktrace.Iowatcher

/-! ## What there is to find -/

/-- The second that a time in milliseconds is rounded up to. -/
def secondOf (ms : Int32) : ℤ := ⌈(ms.toInt / 1000 : ℚ)⌉

/-- The lines that are parsed. -/
def fioSamples : ℕ → List UInt8 → List FioLine
  | 0, _ => []
  | fuel + 1, cur =>
    match parseFioLine {} cur with
    | some (v, false) =>
      v :: match nextFioLine cur with
        | none => []
        | some next => fioSamples fuel next
    | _ => []

/-- Those that are read or written: a direction above 1 is left out. -/
def moved (log : List UInt8) : List FioLine := (fioSamples log.length log).filter fun v => v.dir ≤ 1

/-- The largest of their times, in seconds, or 0. -/
def latestSecond (vs : List FioLine) : ℤ :=
  match (vs.map fun v => v.time.toInt).max? with
  | none => 0
  | some ms => ⌈(ms / 1000 : ℚ)⌉

/-- **`find_last_fio_time`** finds the second of the last time, whatever is in its variables at first. -/
def FioSeconds (log : List UInt8) : Prop :=
  ∀ unset, ∃ s, findLastFioTime unset log = some s ∧ s.toInt = latestSecond (moved log)

/-- The first field of a line. -/
def timeRead (cur : List UInt8) : Option Int32 :=
  (lineAt cur).bind fun line => (fields line).head?.map atoi

/-- The times that are read, the one of the line at which the scan stops among them. -/
def timesRead : ℕ → List UInt8 → List Int32
  | 0, _ => []
  | fuel + 1, cur =>
    (timeRead cur).toList ++
      match parseFioLine {} cur with
      | some (_, false) =>
        match nextFioLine cur with
        | none => []
        | some next => timesRead fuel next
      | _ => []

/-- The time is in the last second of the lines: none of them is later, and one is in it, if there is one. -/
structure Latest (vs : List FioLine) (t : Int32) : Prop where
  none_later : ∀ v ∈ vs, secondOf v.time ≤ secondOf t
  reached : (∃ v ∈ vs, secondOf v.time = secondOf t) ∨ vs = [] ∧ secondOf t = 0

/-- The log is empty, or a time is read from it, and the last one read is the latest; no line that the scan
comes to has too many fields. -/
structure EndsLast (log : List UInt8) : Prop where
  short : ShortLines log.length log
  latest : log ≠ [] → ∃ t ∈ (timesRead log.length log).getLast?, Latest (moved log) t

/-! ## The scan -/

/-- The time after a line is the one that was read from it, if one was. -/
theorem parseFioLine_time {v w : FioLine} {cur : List UInt8} {bad : Bool}
    (h : parseFioLine v cur = some (w, bad)) : w.time = (timeRead cur).getD v.time := by
  unfold timeRead
  cases hline : lineAt cur with
  | none =>
    rw [parseFioLine, hline] at h
    obtain ⟨rfl, -⟩ := Prod.mk.inj (Option.some.inj h)
    rfl
  | some line =>
    obtain ⟨hfits, hdies⟩ := parseFioLine_of_lineAt hline v
    by_cases hle : (fields line).length ≤ 4
    · obtain ⟨w', hparse, hcells⟩ := hfits hle
      rw [hparse] at h
      obtain ⟨rfl, -⟩ := Prod.mk.inj (Option.some.inj h)
      have hhead := congrArg List.head? hcells
      rw [Option.bind_some]
      cases hfields : fields line with
      | nil =>
        rw [hfields] at hhead
        exact Option.some.inj hhead
      | cons f fs =>
        rw [hfields] at hhead
        exact Option.some.inj hhead
    · rw [hdies (not_le.mp hle)] at h
      cases h

/-- **The scan** ends with the time it read last. -/
theorem lastFioLine_time {fuel : ℕ} {v w : FioLine} {lastTime lastTime' : Int32} {cur : List UInt8}
    (h : lastFioLine fuel v lastTime cur = some (w, lastTime')) :
    w.time = (timesRead fuel cur).getLast?.getD v.time := by
  induction fuel generalizing v lastTime cur with
  | zero =>
    obtain ⟨rfl, -⟩ := Prod.mk.inj (Option.some.inj h)
    rfl
  | succ fuel ih =>
    rw [lastFioLine] at h
    rw [timesRead]
    have hlast : ∀ o : Option Int32, o.toList.getLast? = o := by
      intro o
      cases o <;> rfl
    cases hparse : parseFioLine v cur with
    | none => rw [hparse] at h; cases h
    | some ret =>
      obtain ⟨u, bad⟩ := ret
      obtain ⟨u', hempty⟩ := parseFioLine_of_some hparse {}
      have htime := parseFioLine_time hparse
      rw [hparse] at h
      rw [hempty, List.getLast?_append, hlast, Option.getD_or, ← htime]
      cases bad with
      | true =>
        obtain ⟨rfl, -⟩ := Prod.mk.inj (Option.some.inj h)
        rfl
      | false =>
        dsimp only at h ⊢
        cases hnext : nextFioLine cur with
        | none =>
          rw [hnext] at h
          obtain ⟨rfl, -⟩ := Prod.mk.inj (Option.some.inj h)
          rfl
        | some next =>
          rw [hnext] at h
          exact ih h

/-- Nothing but a line with too many fields ends it without a result. -/
theorem isSome_of_shortLines {fuel : ℕ} {cur : List UInt8} (h : ShortLines fuel cur) (v : FioLine)
    (lastTime : Int32) : (lastFioLine fuel v lastTime cur).isSome := by
  induction fuel generalizing v lastTime cur with
  | zero => rfl
  | succ fuel ih =>
    rw [ShortLines] at h
    rw [lastFioLine]
    cases hempty : parseFioLine {} cur with
    | none => rw [hempty] at h; exact h.elim
    | some ret =>
      obtain ⟨u, bad⟩ := ret
      obtain ⟨u', hparse⟩ := parseFioLine_of_some hempty v
      rw [hempty] at h
      rw [hparse]
      cases bad with
      | true => rfl
      | false =>
        dsimp only at h ⊢
        cases hnext : nextFioLine cur with
        | none => rfl
        | some next => exact ih (h next hnext) _ _

/-! ## Seconds -/

theorem secondOf_eq (ms : Int32) : secondOf ms = -(-ms.toInt / 1000) := by
  have hceil := Rat.ceil_intCast_div_natCast ms.toInt 1000
  rw [Nat.cast_ofNat] at hceil
  exact hceil

theorem toInt_secondOf (ms : Int32) : (Int32.ofInt (-(-ms.toInt / 1000))).toInt = secondOf ms := by
  have hlow := ms.le_toInt
  have hhigh := ms.toInt_lt
  rw [secondOf_eq]
  exact Int32.toInt_ofInt_of_le (by omega) (by omega)

theorem secondOf_mono {s t : Int32} (h : s.toInt ≤ t.toInt) : secondOf s ≤ secondOf t := by
  rw [secondOf_eq, secondOf_eq]
  omega

/-- A time is in the second of the latest just if it is the latest. -/
theorem latestSecond_eq_iff {vs : List FioLine} {t : Int32} : secondOf t = latestSecond vs ↔ Latest vs t := by
  unfold latestSecond
  cases hmax : (vs.map fun v => v.time.toInt).max? with
  | none =>
    have hnil : vs = [] := List.map_eq_nil_iff.mp (List.max?_eq_none_iff.mp hmax)
    subst hnil
    exact ⟨fun h => ⟨nofun, .inr ⟨rfl, h⟩⟩, fun h => (h.reached.resolve_left nofun).2⟩
  | some ms =>
    obtain ⟨hmem, hle⟩ := List.max?_eq_some_iff.mp hmax
    obtain ⟨v, hv, rfl⟩ := List.mem_map.mp hmem
    have hlater : ∀ u ∈ vs, secondOf u.time ≤ secondOf v.time :=
      fun u hu => secondOf_mono (hle _ (List.mem_map_of_mem hu))
    change secondOf t = secondOf v.time ↔ _
    constructor
    · intro h
      exact ⟨fun u hu => h ▸ hlater u hu, .inl ⟨v, hv, h.symm⟩⟩
    · rintro ⟨hnone, ⟨u, hu, heq⟩ | ⟨rfl, -⟩⟩
      · exact le_antisymm (heq ▸ hlater u hu) (hnone v hv)
      · nomatch hv

/-! ## The end of a log -/

/-- **The end of a log is found** just if the time that is read last is the latest. -/
theorem fioSeconds_iff (log : List UInt8) : FioSeconds log ↔ EndsLast log := by
  by_cases hnil : log = []
  · subst hnil
    refine iff_of_true (fun unset => ⟨0, rfl, rfl⟩) ⟨trivial, fun h => absurd rfl h⟩
  constructor
  · intro h
    obtain ⟨s, hs, -⟩ := h {}
    refine ⟨shortLines_of_findLastFioTime (Option.isSome_of_eq_some hs), fun _ => ?_⟩
    have hread : ∀ unset : FioLine,
        secondOf ((timesRead log.length log).getLast?.getD unset.time) = latestSecond (moved log) := by
      intro unset
      obtain ⟨s, hs, heq⟩ := h unset
      rw [findLastFioTime, if_neg hnil] at hs
      obtain ⟨⟨w, lastTime⟩, hlast, rfl⟩ := Option.map_eq_some_iff.mp hs
      rw [← lastFioLine_time hlast, ← heq]
      exact (toInt_secondOf w.time).symm
    cases htime : (timesRead log.length log).getLast? with
    | none =>
      -- what the variable held before cannot be right twice
      have hzero := hread (.all 0)
      have hone := hread (.all 1000)
      rw [htime] at hzero hone
      have hsame := hzero.trans hone.symm
      rw [secondOf_eq, secondOf_eq] at hsame
      exact absurd hsame (by decide)
    | some t =>
      have ht := hread {}
      rw [htime] at ht
      exact ⟨t, rfl, latestSecond_eq_iff.mp ht⟩
  · rintro ⟨hshort, hlatest⟩ unset
    obtain ⟨t, ht, hlatest⟩ := hlatest hnil
    obtain ⟨⟨w, lastTime⟩, hlast⟩ := Option.isSome_iff_exists.mp (isSome_of_shortLines hshort unset 0)
    refine ⟨_, by rw [findLastFioTime, if_neg hnil, hlast]; rfl, ?_⟩
    have htime := lastFioLine_time hlast
    rw [Option.mem_def.mp ht] at htime
    rw [toInt_secondOf, htime]
    exact latestSecond_eq_iff.mpr hlatest

/-- Two jobs, the longer one first. -/
def mergedLog : List UInt8 := "5000,10,0\n1000,10,0\n".toUTF8.toList

/-- The end is taken to be that of the shorter one. -/
theorem not_fioSeconds : ¬ FioSeconds mergedLog := by
  intro h
  obtain ⟨s, hs, heq⟩ := h {}
  have hread : findLastFioTime {} mergedLog = some 1 := by decide +kernel
  have hmoved : moved mergedLog = [⟨5000, 10, 0, 0⟩, ⟨1000, 10, 0, 0⟩] := by decide +kernel
  have hlast : secondOf 5000 = latestSecond (moved mergedLog) := by
    rw [latestSecond_eq_iff, hmoved]
    refine ⟨?_, .inl ⟨_, List.mem_cons_self, rfl⟩⟩
    simp only [List.forall_mem_cons, secondOf_eq]
    decide
  rw [hread] at hs
  obtain rfl := Option.some.inj hs
  rw [← hlast, secondOf_eq] at heq
  exact absurd heq (by decide)

end Blktrace.Iowatcher
