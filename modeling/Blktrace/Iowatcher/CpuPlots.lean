import Blktrace.Iowatcher.Samples

/-!
# `plot_cpu`: the averages of the CPUs

The average of a trace is summed up and divided in one variable, which keeps its value from one trace to the
next, and that of a CPU is summed up from the entry that has the number of the CPU. What `svg_line_graph` and
the legend make of it is left out. A `double` is a rational number, or none if it is not finite.
-/

namespace Blktrace.Iowatcher

/-! ## The loops -/

/-- `sum / count` is added, the quotient of whole numbers, where there is a count. -/
def addSample (avg : ℚ) (pair : GraphLinePair) : ℚ :=
  if pair.count ≠ 0 then avg + (pair.sum / pair.count).toNat else avg

/-- The values of `gld_i` from `min_seconds` up to `stop_seconds`. -/
def secondsOf (gld : GraphLineData) : List UInt32 :=
  (List.range' gld.minSeconds.toNat (gld.stopSeconds.toNat - gld.minSeconds.toNat)).map UInt32.ofNat

/-- `avg /= n`. -/
def divideBy (n : UInt32) (avg : ℚ) : Option ℚ := if n = 0 then none else some (avg / n.toNat)

/-- `this_avg > avg + 30`. -/
def isAbove : Option ℚ → Option ℚ → Bool
  | some thisAvg, some avg => avg + 30 < thisAvg
  | _, _ => false

/-- The loop that looks for a second in which the CPU is to be plotted: the seconds it looks at, and whether
there is one. -/
def findHigh (thisAvg avg : Option ℚ) (data : UInt32 → GraphLinePair) : List UInt32 → List UInt32 × Bool
  | [] => ([], false)
  | gldI :: rest =>
    if (data gldI).count = 0 then
      (gldI :: (findHigh thisAvg avg data rest).1, (findHigh thisAvg avg data rest).2)
    else if isAbove thisAvg avg ∨ (95 : ℚ) < (data gldI).sum.toNat / (data gldI).count.toNat then ([gldI], true)
    else (gldI :: (findHigh thisAvg avg data rest).1, (findHigh thisAvg avg data rest).2)

/-- What is made of a CPU, and the entries of its array that are read. -/
structure CpuPlot where
  thisAvg : Option ℚ
  plotted : Bool
  accessed : List UInt32

/-- The body of the loop over the CPUs. -/
def MpstatTrace.plotOne (tf : MpstatTrace) (graph : MpstatGraph) (avg : Option ℚ) (i : ℕ) : CpuPlot :=
  let gld := tf.gld (i * mpstatGraphs + graph.index)
  let thisAvg := divideBy (gld.stopSeconds - gld.minSeconds)
    ((secondsOf gld).foldl (fun thisAvg _ => addSample thisAvg (gld.data (UInt32.ofNat i))) 0)
  let high := findHigh thisAvg avg gld.data (secondsOf gld)
  { thisAvg
    plotted := high.2
    accessed := (secondsOf gld).map (fun _ => UInt32.ofNat i) ++ high.1 }

/-- What is made of a trace, and the entries of its array for all CPUs that are read. -/
structure TracePlot where
  avg : Option ℚ
  cpus : List CpuPlot
  accessed : List UInt32

/-- The body of the loop over the traces, with what is in `avg` before it. -/
def MpstatTrace.plot (tf : MpstatTrace) (graph : MpstatGraph) (avg : Option ℚ) : TracePlot :=
  let gld := tf.gld graph.index
  let avg := avg.bind fun avg => divideBy (gld.stopSeconds - gld.minSeconds)
    ((secondsOf (tf.gld 0)).foldl (fun avg gldI => addSample avg (gld.data gldI)) avg)
  { avg
    cpus := (List.range' 1 tf.numCpus.toInt.toNat).map (tf.plotOne graph avg)
    accessed := secondsOf (tf.gld 0) }

/-- The loop over the traces. A trace without CPUs has no arrays and ends it. -/
def plotTraces (graph : MpstatGraph) : Option ℚ → List MpstatTrace → List TracePlot
  | _, [] => []
  | avg, tf :: tfs =>
    if tf.numCpus = 0 then [] else tf.plot graph avg :: plotTraces graph (tf.plot graph avg).avg tfs

/-- **`plot_cpu`**, with the Y maximum of the first trace. -/
def plotCpu (active : Bool) (max : UInt64) (graph : MpstatGraph) (tfs : List MpstatTrace) : List TracePlot :=
  if active = false ∨ (∀ tf ∈ tfs, tf.numCpus ≤ 0) ∨ max.toUInt32.toInt32 = 0 then []
  else plotTraces graph (some 0) tfs

/-! ## Traces with CPUs -/

/-- Arrays for the same seconds, with one sample at most in an entry. -/
structure Uniform (gld : ℕ → GraphLineData) : Prop where
  minSeconds : ∀ k, (gld k).minSeconds = (gld 0).minSeconds
  stopSeconds : ∀ k, (gld k).stopSeconds = (gld 0).stopSeconds
  count_le : ∀ k u, ((gld k).data u).count ≤ 1

/-- **A trace with data of `mpstat`**, as it is when it is plotted. -/
structure CpuTrace extends MpstatTrace where
  numCpus_pos : 0 < numCpus
  uniform : Uniform gld

/-- The value of a sample, 0 where there is none. -/
def GraphLinePair.value (pair : GraphLinePair) : ℚ := pair.sum.toNat / pair.count.toNat

/-- The mean of a series over its seconds. -/
def GraphLineData.mean (gld : GraphLineData) : ℚ :=
  ((secondsOf gld).map fun gldI => (gld.data gldI).value).sum / (secondsOf gld).length

def CpuTrace.HasSeconds (tf : CpuTrace) : Prop := (tf.gld 0).minSeconds < (tf.gld 0).stopSeconds

/-- The array of a CPU. -/
def CpuTrace.cpu (tf : CpuTrace) (graph : MpstatGraph) (i : ℕ) : GraphLineData :=
  tf.gld (i * mpstatGraphs + graph.index)

/-- The averages of a trace are the means of its series, if it has seconds, and no entry is read that the
arrays do not have. -/
structure Averaged (graph : MpstatGraph) (tf : CpuTrace) (p : TracePlot) : Prop where
  avg : tf.HasSeconds → p.avg = some (tf.gld graph.index).mean
  fits : ∀ gldI ∈ p.accessed, gldI ≤ (tf.gld graph.index).stopSeconds
  cpus : ∀ i < tf.numCpus.toInt.toNat, ∃ q, p.cpus[i]? = some q ∧
    (tf.HasSeconds → q.thisAvg = some (tf.cpu graph (i + 1)).mean) ∧
      ∀ gldI ∈ q.accessed, gldI ≤ (tf.cpu graph (i + 1)).stopSeconds

/-- **The averages** of all traces are right, if they are plotted. -/
def CpuAverages (active : Bool) (max : UInt64) (graph : MpstatGraph) (tfs : List CpuTrace) : Prop :=
  plotCpu active max graph (tfs.map CpuTrace.toMpstatTrace) ≠ [] →
    List.Forall₂ (Averaged graph) tfs (plotCpu active max graph (tfs.map CpuTrace.toMpstatTrace))

/-- Nothing of a trace is left in `avg`. -/
def CpuTrace.Quiet (graph : MpstatGraph) (tf : CpuTrace) : Prop :=
  (tf.gld 0).minSeconds ≠ (tf.gld 0).stopSeconds ∧
    ∀ gldI ∈ secondsOf (tf.gld graph.index), ((tf.gld graph.index).data gldI).value = 0

/-- For every CPU there is an entry with its number, and the sample in it is the mean. -/
def CpuTrace.Even (graph : MpstatGraph) (tf : CpuTrace) : Prop :=
  ∀ i < tf.numCpus.toInt.toNat, i + 1 ≤ (tf.gld 0).stopSeconds.toNat ∧
    ((tf.cpu graph (i + 1)).data (UInt32.ofNat (i + 1))).value = (tf.cpu graph (i + 1)).mean

/-! ## The traces that are read -/

theorem Uniform.addMpstat {gld gld' : ℕ → GraphLineData} (h : Uniform gld) {time : UInt32} {i : ℕ}
    {ev : MpstatEvent} {graphs : List MpstatGraph}
    (hadd : graphs.foldlM (addMpstatGld time i ev) gld = some gld') : Uniform gld' := by
  induction graphs generalizing gld with
  | nil =>
    obtain rfl := Option.some.inj hadd
    exact h
  | cons graph graphs ih =>
    rw [List.foldlM_cons] at hadd
    obtain ⟨mid, hmid, hadd⟩ := Option.bind_eq_some_iff.mp hadd
    refine ih ?_ hadd
    obtain ⟨sum, -, rfl⟩ := Option.map_eq_some_iff.mp hmid
    have hsame : ∀ k, (Function.update gld (i + graph.index)
        ((gld (i + graph.index)).access time fun _ => ⟨1, sum⟩) k).minSeconds = (gld k).minSeconds ∧
          (Function.update gld (i + graph.index)
            ((gld (i + graph.index)).access time fun _ => ⟨1, sum⟩) k).stopSeconds = (gld k).stopSeconds := by
      intro k
      by_cases hk : k = i + graph.index
      · subst hk
        rw [Function.update_self]
        exact ⟨rfl, rfl⟩
      · rw [Function.update_of_ne hk]
        exact ⟨rfl, rfl⟩
    refine ⟨fun k => ?_, fun k => ?_, fun k u => ?_⟩
    · rw [(hsame k).1, (hsame 0).1, h.minSeconds]
    · rw [(hsame k).2, (hsame 0).2, h.stopSeconds]
    · by_cases hentry : k ≠ i + graph.index ∨ u ≠ time
      · rw [(addMpstatGld_spec hmid).2 k u hentry]
        exact h.count_le k u
      · obtain ⟨rfl, rfl⟩ : k = i + graph.index ∧ u = time := by
          rwa [not_or, not_not, not_not] at hentry
        obtain ⟨sum, -, hpair⟩ := (addMpstatGld_spec hmid).1
        rw [hpair]

theorem Uniform.record {r r' : Reading} (h : Uniform r.gld) {time : UInt32} {is : List ℕ}
    (hread : r.record time is = some r') : Uniform r'.gld := by
  induction is generalizing r with
  | nil =>
    obtain rfl := Option.some.inj hread
    exact h
  | cons i is ih =>
    rw [Reading.record] at hread
    obtain ⟨mid, hmid, hread⟩ := Option.bind_eq_some_iff.mp hread
    have hstep : Uniform mid.gld := by
      rw [Reading.line] at hmid
      split at hmid
      · obtain rfl := Option.some.inj hmid
        exact h
      · split at hmid
        · obtain rfl := Option.some.inj hmid
          exact h
        · obtain ⟨gld, hgld, rfl⟩ := Option.map_eq_some_iff.mp hmid
          exact h.addMpstat hgld
    split_ifs at hread
    · obtain rfl := Option.some.inj hread
      exact hstep
    · exact ih hstep hread

theorem Uniform.seconds {is : List ℕ} {left : ℕ} {time : UInt32} {r r' : Reading} (h : Uniform r.gld)
    (hread : Reading.seconds is left time r = some r') : Uniform r'.gld := by
  induction left generalizing time r with
  | zero =>
    obtain rfl := Option.some.inj hread
    exact h
  | succ left ih =>
    rw [Reading.seconds] at hread
    obtain ⟨mid, hmid, hread⟩ := Option.bind_eq_some_iff.mp hread
    have hstep := h.record hmid
    split_ifs at hread
    · obtain rfl := Option.some.inj hread
      exact hstep
    · split at hread
      · obtain rfl := Option.some.inj hread
        exact hstep
      · exact ih (by exact hstep) hread

theorem uniform_readFiles {tfs tfs' : List MpstatTrace} (h : ∀ tf ∈ tfs, Uniform tf.gld)
    (hread : readFiles tfs = some tfs') : ∀ tf ∈ tfs', Uniform tf.gld := by
  induction tfs generalizing tfs' with
  | nil =>
    obtain rfl := Option.some.inj hread
    exact nofun
  | cons tf tfs ih =>
    obtain ⟨htf, htfs⟩ := List.forall_mem_cons.mp h
    rw [readFiles] at hread
    split_ifs at hread with hcpus
    · obtain ⟨rest, hrest, rfl⟩ := Option.map_eq_some_iff.mp hread
      exact List.forall_mem_cons.mpr ⟨htf, ih htfs hrest⟩
    · obtain ⟨r, hr, hread⟩ := Option.bind_eq_some_iff.mp hread
      have hr' : Uniform r.gld := Uniform.seconds htf hr
      split_ifs at hread
      · obtain rfl := Option.some.inj hread
        exact List.forall_mem_cons.mpr ⟨hr', htfs⟩
      · obtain ⟨rest, hrest, rfl⟩ := Option.map_eq_some_iff.mp hread
        exact List.forall_mem_cons.mpr ⟨hr', ih htfs hrest⟩

theorem Uniform.alloc (minSeconds maxSeconds stopSeconds : UInt32) :
    Uniform fun _ => allocLineData minSeconds maxSeconds stopSeconds :=
  ⟨fun _ => rfl, fun _ => rfl, fun _ _ => UInt64.le_of_lt UInt64.zero_lt_one⟩

theorem uniform_setup {tfs : List MpstatTrace} {minSeconds maxSeconds : UInt32} {texts : List (List UInt8)}
    (h : texts.mapM (fun text => ((readMpstat text).setMinmax minSeconds maxSeconds).setup) = some tfs) :
    ∀ tf ∈ tfs, Uniform tf.gld := by
  have hstart : ∀ text, Uniform ((readMpstat text).setMinmax minSeconds maxSeconds).gld := by
    intro text
    rw [MpstatTrace.setMinmax]
    split_ifs <;> exact Uniform.alloc 0 0 0
  induction texts generalizing tfs with
  | nil =>
    obtain rfl := Option.some.inj h
    exact List.forall_mem_nil _
  | cons text texts ih =>
    rw [List.mapM_cons] at h
    obtain ⟨tf, htf, h⟩ := Option.bind_eq_some_iff.mp h
    obtain ⟨rest, hrest, h⟩ := Option.bind_eq_some_iff.mp h
    obtain rfl := Option.some.inj h
    refine List.forall_mem_cons.mpr ⟨?_, ih hrest⟩
    rw [MpstatTrace.setup] at htf
    split_ifs at htf
    · rw [← Option.some.inj htf]
      exact hstart text
    · rw [← Option.some.inj htf]
      exact Uniform.alloc _ _ _

/-- **What `read_trace_events` leaves** of a file with CPUs is a trace that can be plotted. -/
theorem exists_cpuTrace {minSeconds maxSeconds : UInt32} {texts : List (List UInt8)} {tfs : List MpstatTrace}
    (h : Mpstat.readTraceEvents minSeconds maxSeconds texts = some tfs) {tf : MpstatTrace} (htf : tf ∈ tfs)
    (hcpus : 0 < tf.numCpus) : ∃ c : CpuTrace, c.toMpstatTrace = tf := by
  obtain ⟨before, hsetup, hread⟩ := Option.bind_eq_some_iff.mp h
  exact ⟨⟨tf, hcpus, uniform_readFiles (uniform_setup hsetup) hread tf htf⟩, rfl⟩

/-! ## Sums -/

theorem addSample_eq {pair : GraphLinePair} (h : pair.count ≤ 1) (avg : ℚ) :
    addSample avg pair = avg + pair.value := by
  rw [addSample, GraphLinePair.value]
  have hle : pair.count.toNat ≤ 1 := UInt64.le_iff_toNat_le.mp h
  by_cases hzero : pair.count = 0
  · rw [if_neg (not_not_intro hzero), hzero]
    simp
  · have hone : pair.count = 1 := by
      have hpos : pair.count.toNat ≠ 0 := fun h0 => hzero (UInt64.toNat_inj.mp h0)
      exact UInt64.toNat_inj.mp (by rw [UInt64.toNat_one]; omega)
    rw [if_pos hzero, hone, UInt64.toNat_div, UInt64.toNat_one, Nat.div_one, Nat.cast_one, div_one]

theorem foldl_addSample {data : UInt32 → GraphLinePair} (h : ∀ u, (data u).count ≤ 1) (seconds : List UInt32)
    (avg : ℚ) : seconds.foldl (fun avg gldI => addSample avg (data gldI)) avg =
      avg + (seconds.map fun gldI => (data gldI).value).sum := by
  induction seconds generalizing avg with
  | nil => exact (add_zero avg).symm
  | cons gldI seconds ih =>
    rw [List.foldl_cons, ih, addSample_eq (h gldI), List.map_cons, List.sum_cons, add_assoc]

theorem foldl_const {pair : GraphLinePair} (h : pair.count ≤ 1) (seconds : List UInt32) (avg : ℚ) :
    seconds.foldl (fun avg _ => addSample avg pair) avg = avg + seconds.length * pair.value := by
  have hsum := @foldl_addSample (fun _ => pair) (fun _ => h) seconds avg
  rwa [List.map_const', List.sum_replicate, nsmul_eq_mul] at hsum

theorem value_nonneg (pair : GraphLinePair) : 0 ≤ pair.value := by
  rw [GraphLinePair.value]
  positivity

theorem length_secondsOf (gld : GraphLineData) :
    (secondsOf gld).length = gld.stopSeconds.toNat - gld.minSeconds.toNat := by
  rw [secondsOf, List.length_map, List.length_range']

theorem mem_secondsOf {gld : GraphLineData} {gldI : UInt32} (h : gldI ∈ secondsOf gld) :
    gldI < gld.stopSeconds := by
  obtain ⟨t, ht, rfl⟩ := List.mem_map.mp h
  rw [List.mem_range'_1] at ht
  have hstop : gld.stopSeconds.toNat < UInt32.size := gld.stopSeconds.toNat_lt
  rw [UInt32.lt_iff_toNat_lt, UInt32.toNat_ofNat_of_lt' (by omega)]
  omega

/-- What is divided by is the number of the seconds, if there are any. -/
theorem divideBy_seconds {gld : GraphLineData} (h : gld.minSeconds < gld.stopSeconds) (avg : ℚ) :
    divideBy (gld.stopSeconds - gld.minSeconds) avg = some (avg / (secondsOf gld).length) := by
  have hlt := UInt32.lt_iff_toNat_lt.mp h
  have hval : (gld.stopSeconds - gld.minSeconds).toNat = (secondsOf gld).length := by
    rw [length_secondsOf, UInt32.toNat_sub_of_le _ _ (UInt32.le_iff_toNat_le.mpr hlt.le)]
  rw [divideBy, if_neg, hval]
  intro hzero
  rw [hzero, length_secondsOf, UInt32.toNat_zero] at hval
  omega

theorem findHigh_subset (thisAvg avg : Option ℚ) (data : UInt32 → GraphLinePair) (seconds : List UInt32) :
    (findHigh thisAvg avg data seconds).1 ⊆ seconds := by
  induction seconds with
  | nil => exact List.Subset.refl _
  | cons gldI seconds ih =>
    rw [findHigh]
    split_ifs
    · exact List.cons_subset_cons _ ih
    · exact List.cons_subset_cons _ (List.nil_subset _)
    · exact List.cons_subset_cons _ ih

/-! ## A CPU -/

section

variable {graph : MpstatGraph} {tf : CpuTrace}

theorem CpuTrace.hasSeconds_gld (h : tf.HasSeconds) (k : ℕ) :
    (tf.gld k).minSeconds < (tf.gld k).stopSeconds := by
  rw [tf.uniform.minSeconds k, tf.uniform.stopSeconds k]
  exact h

theorem CpuTrace.secondsOf_gld (tf : CpuTrace) (k : ℕ) : secondsOf (tf.gld k) = secondsOf (tf.gld 0) := by
  rw [secondsOf, secondsOf, tf.uniform.minSeconds k, tf.uniform.stopSeconds k]

theorem length_pos (h : tf.HasSeconds) (k : ℕ) : 0 < (secondsOf (tf.gld k)).length := by
  have hlt := UInt32.lt_iff_toNat_lt.mp (tf.hasSeconds_gld h k)
  rw [length_secondsOf]
  omega

theorem CpuTrace.secondsOf_nil (h : ¬ tf.HasSeconds) (k : ℕ) : secondsOf (tf.gld k) = [] := by
  have hle : ¬ (tf.gld 0).minSeconds.toNat < (tf.gld 0).stopSeconds.toNat :=
    fun hlt => h (UInt32.lt_iff_toNat_lt.mpr hlt)
  rw [tf.secondsOf_gld k, ← List.length_eq_zero_iff, length_secondsOf]
  omega

/-- **The average of a CPU** is the sample at the entry that has the number of the CPU. -/
theorem thisAvg_plotOne (h : tf.HasSeconds) (avg : Option ℚ) (i : ℕ) :
    (tf.plotOne graph avg i).thisAvg = some ((tf.cpu graph i).data (UInt32.ofNat i)).value := by
  have hlt := tf.hasSeconds_gld h (i * mpstatGraphs + graph.index)
  have hpos := length_pos h (i * mpstatGraphs + graph.index)
  change divideBy _ _ = _
  rw [divideBy_seconds hlt, foldl_const (tf.uniform.count_le _ _), zero_add, mul_div_cancel_left₀]
  · rfl
  · exact Nat.cast_ne_zero.mpr hpos.ne'

/-- The entries that are read for a CPU are its number and seconds. -/
theorem fits_plotOne (avg : Option ℚ) (i : ℕ) :
    (∀ gldI ∈ (tf.plotOne graph avg i).accessed, gldI ≤ (tf.cpu graph i).stopSeconds) ↔
      (tf.HasSeconds → UInt32.ofNat i ≤ (tf.cpu graph i).stopSeconds) := by
  constructor
  · intro hfits h
    -- the loop over the seconds runs at all
    refine hfits _ (List.mem_append_left _ ?_)
    obtain ⟨gldI, hgldI⟩ := List.exists_mem_of_length_pos (length_pos h (i * mpstatGraphs + graph.index))
    exact List.mem_map.mpr ⟨gldI, hgldI, rfl⟩
  · intro hfits gldI hgldI
    rcases List.mem_append.mp hgldI with hmem | hmem
    · obtain ⟨second, hsecond, rfl⟩ := List.mem_map.mp hmem
      refine hfits ?_
      by_contra hnot
      rw [tf.secondsOf_nil hnot] at hsecond
      nomatch hsecond
    · exact UInt32.le_of_lt (mem_secondsOf (findHigh_subset _ _ _ _ hmem))

theorem numCpus_lt (tf : CpuTrace) : tf.numCpus.toInt.toNat < 2 ^ 31 := by
  have hlt := tf.numCpus.toInt_lt
  omega

theorem ofNat_le_stop {i : ℕ} (hi : i < tf.numCpus.toInt.toNat) (k : ℕ) :
    UInt32.ofNat (i + 1) ≤ (tf.gld k).stopSeconds ↔ i + 1 ≤ (tf.gld 0).stopSeconds.toNat := by
  have hlt := numCpus_lt tf
  have hsmall : i + 1 < UInt32.size := by
    have hsize : UInt32.size = 2 ^ 32 := rfl
    omega
  rw [tf.uniform.stopSeconds k, UInt32.le_iff_toNat_le, UInt32.toNat_ofNat_of_lt' hsmall]

/-! ## A trace -/

/-- What is in `avg` behind a trace that has seconds. -/
theorem avg_plot (h : tf.HasSeconds) (avg : ℚ) : (tf.toMpstatTrace.plot graph (some avg)).avg =
    some (avg / (secondsOf (tf.gld graph.index)).length + (tf.gld graph.index).mean) := by
  change divideBy _ _ = _
  rw [divideBy_seconds (tf.hasSeconds_gld h graph.index), foldl_addSample (tf.uniform.count_le _),
    ← tf.secondsOf_gld graph.index, GraphLineData.mean, add_div]

/-- **A trace** is right just if there was nothing in `avg` and its CPUs are even. -/
theorem averaged_iff (avg : Option ℚ) : Averaged graph tf (tf.toMpstatTrace.plot graph avg) ↔
    (tf.HasSeconds → avg = some 0 ∧ tf.Even graph) := by
  have hcpu : ∀ i < tf.numCpus.toInt.toNat, (tf.toMpstatTrace.plot graph avg).cpus[i]? =
      some (tf.plotOne graph (tf.toMpstatTrace.plot graph avg).avg (i + 1)) := by
    intro i hi
    change ((List.range' 1 tf.numCpus.toInt.toNat).map _)[i]? = _
    rw [List.getElem?_map, List.getElem?_range' hi, Nat.one_mul, Nat.add_comm 1 i]
    rfl
  constructor
  · intro haveraged h
    refine ⟨?_, fun i hi => ?_⟩
    · have hright := haveraged.avg h
      cases avg with
      | none => nomatch hright
      | some avg =>
        -- what was left in `avg` is what the average is too high by
        rw [avg_plot h, Option.some.injEq, add_eq_right] at hright
        have hpos : ((secondsOf (tf.gld graph.index)).length : ℚ) ≠ 0 :=
          Nat.cast_ne_zero.mpr (length_pos h graph.index).ne'
        rw [(div_eq_zero_iff.mp hright).resolve_right hpos]
    · obtain ⟨q, hq, hthis, hfits⟩ := haveraged.cpus i hi
      rw [hcpu i hi] at hq
      obtain rfl := Option.some.inj hq
      have hvalue := hthis h
      rw [thisAvg_plotOne h] at hvalue
      exact ⟨(ofNat_le_stop hi _).mp ((fits_plotOne _ _).mp hfits h), Option.some.inj hvalue⟩
  · intro hright
    refine ⟨fun h => ?_, fun gldI hgldI => ?_, fun i hi => ⟨_, hcpu i hi, fun h => ?_, ?_⟩⟩
    · rw [(hright h).1, avg_plot h, zero_div, zero_add]
    · rw [tf.uniform.stopSeconds]
      exact UInt32.le_of_lt (mem_secondsOf hgldI)
    · rw [thisAvg_plotOne h, ((hright h).2 i hi).2]
    · exact (fits_plotOne _ _).mpr fun h => (ofNat_le_stop hi _).mpr ((hright h).2 i hi).1

/-! ## The traces -/

/-- The average is not negative, if it is a number. -/
def NonnegAvg (avg : Option ℚ) : Prop := ∀ x ∈ avg, 0 ≤ x

theorem sum_values_nonneg (data : UInt32 → GraphLinePair) (seconds : List UInt32) :
    0 ≤ (seconds.map fun gldI => (data gldI).value).sum := by
  refine List.sum_nonneg fun x hx => ?_
  obtain ⟨gldI, -, rfl⟩ := List.mem_map.mp hx
  exact value_nonneg _

theorem sum_values_eq_zero (data : UInt32 → GraphLinePair) (seconds : List UInt32) :
    (seconds.map fun gldI => (data gldI).value).sum = 0 ↔ ∀ gldI ∈ seconds, (data gldI).value = 0 := by
  induction seconds with
  | nil => exact ⟨fun _ => nofun, fun _ => rfl⟩
  | cons gldI seconds ih =>
    rw [List.map_cons, List.sum_cons, List.forall_mem_cons, ← ih]
    exact add_eq_zero_iff_of_nonneg (value_nonneg _) (sum_values_nonneg data seconds)

theorem sub_eq_zero_iff {a b : UInt32} : b - a = 0 ↔ a = b := by
  constructor
  · intro h
    rw [← UInt32.sub_add_cancel b a, h, UInt32.zero_add]
  · rintro rfl
    exact UInt32.sub_self _

theorem avg_plot_eq (avg : ℚ) : (tf.toMpstatTrace.plot graph (some avg)).avg =
    if (tf.gld 0).minSeconds = (tf.gld 0).stopSeconds then none
    else some ((avg + ((secondsOf (tf.gld graph.index)).map fun gldI =>
      ((tf.gld graph.index).data gldI).value).sum) /
        ((tf.gld 0).stopSeconds - (tf.gld 0).minSeconds).toNat) := by
  change divideBy _ _ = _
  rw [foldl_addSample (tf.uniform.count_le _), tf.uniform.minSeconds graph.index,
    tf.uniform.stopSeconds graph.index, ← tf.secondsOf_gld graph.index, divideBy]
  simp only [sub_eq_zero_iff]

theorem nonnegAvg_plot {avg : Option ℚ} (h : NonnegAvg avg) :
    NonnegAvg (tf.toMpstatTrace.plot graph avg).avg := by
  intro x hx
  cases avg with
  | none => nomatch hx
  | some avg =>
    rw [avg_plot_eq] at hx
    split_ifs at hx with hzero
    · nomatch hx
    · obtain rfl := Option.some.inj hx
      have havg : 0 ≤ avg := h avg rfl
      have hsum := sum_values_nonneg (tf.gld graph.index).data (secondsOf (tf.gld graph.index))
      positivity

/-- **Nothing is left in `avg`** just if there was nothing before, and there is nothing in the trace. -/
theorem avg_plot_zero {avg : Option ℚ} (h : NonnegAvg avg) :
    (tf.toMpstatTrace.plot graph avg).avg = some 0 ↔ avg = some 0 ∧ tf.Quiet graph := by
  cases avg with
  | none => exact ⟨nofun, fun h => nomatch h.1⟩
  | some avg =>
    have havg : 0 ≤ avg := h avg rfl
    have hsum := sum_values_nonneg (tf.gld graph.index).data (secondsOf (tf.gld graph.index))
    rw [avg_plot_eq, Option.some.injEq, CpuTrace.Quiet, ← sum_values_eq_zero]
    -- neither the old value nor a sample is negative, so that they are 0 one by one
    split_ifs with hzero
    · exact ⟨nofun, fun h => absurd hzero h.2.1⟩
    · have hne : (((tf.gld 0).stopSeconds - (tf.gld 0).minSeconds).toNat : ℚ) ≠ 0 := by
        rw [Nat.cast_ne_zero]
        intro h0
        exact hzero (sub_eq_zero_iff.mp (UInt32.toNat_inj.mp h0))
      rw [Option.some.injEq, div_eq_zero_iff, or_iff_left hne, add_eq_zero_iff_of_nonneg havg hsum]
      exact and_congr_right fun _ => (and_iff_right hzero).symm

/-- The traces, with what is in `avg` before them. -/
theorem plotTraces_iff {avg : Option ℚ} (h : NonnegAvg avg) (tfs : List CpuTrace) :
    List.Forall₂ (Averaged graph) tfs (plotTraces graph avg (tfs.map CpuTrace.toMpstatTrace)) ↔
      (∀ tf ∈ tfs, tf.HasSeconds → avg = some 0) ∧
        tfs.Pairwise (fun earlier later => later.HasSeconds → earlier.Quiet graph) ∧
          ∀ tf ∈ tfs, tf.HasSeconds → tf.Even graph := by
  induction tfs generalizing avg with
  | nil => exact ⟨fun _ => ⟨nofun, .nil, nofun⟩, fun _ => .nil⟩
  | cons tf tfs ih =>
    have hne : tf.numCpus ≠ 0 := fun hzero => absurd tf.numCpus_pos (by rw [hzero]; decide)
    rw [List.map_cons, plotTraces, if_neg hne, List.forall₂_cons, averaged_iff, ih (nonnegAvg_plot h),
      List.forall_mem_cons, List.forall_mem_cons, List.pairwise_cons]
    constructor
    · rintro ⟨hhead, hzero, hpairwise, heven⟩
      refine ⟨⟨fun hs => (hhead hs).1, fun later hlater hs => ?_⟩, ⟨fun later hlater hs => ?_, hpairwise⟩,
        fun hs => (hhead hs).2, heven⟩
      · exact ((avg_plot_zero h).mp (hzero later hlater hs)).1
      · exact ((avg_plot_zero h).mp (hzero later hlater hs)).2
    · rintro ⟨⟨hhead, hzero⟩, ⟨hquiet, hpairwise⟩, heven, hevens⟩
      refine ⟨fun hs => ⟨hhead hs, heven hs⟩, fun later hlater hs => ?_, hpairwise, hevens⟩
      exact (avg_plot_zero h).mpr ⟨hzero later hlater hs, hquiet later hlater hs⟩

end

/-- Where the plot is not drawn. -/
theorem plotCpu_nil {active : Bool} {max : UInt64} (h : active = false ∨ max.toUInt32.toInt32 = 0)
    (graph : MpstatGraph) (tfs : List MpstatTrace) : plotCpu active max graph tfs = [] := by
  rw [plotCpu, if_pos]
  exact h.imp_right .inr

/-- Where it is drawn, if there are traces. -/
theorem plotCpu_cons {active : Bool} {max : UInt64} (hactive : active = true)
    (hmax : max.toUInt32.toInt32 ≠ 0) (graph : MpstatGraph) (tf : CpuTrace) (tfs : List MpstatTrace) :
    plotCpu active max graph (tf.toMpstatTrace :: tfs) =
      plotTraces graph (some 0) (tf.toMpstatTrace :: tfs) := by
  rw [plotCpu, if_neg]
  rintro (hoff | hcpus | hzero)
  · rw [hactive] at hoff
    nomatch hoff
  · exact absurd tf.numCpus_pos (Int32.not_lt.mpr (hcpus _ List.mem_cons_self))
  · exact hmax hzero

theorem cpuAverages_cons {active : Bool} {max : UInt64} (hactive : active = true)
    (hmax : max.toUInt32.toInt32 ≠ 0) (graph : MpstatGraph) (tf : CpuTrace) (tfs : List CpuTrace) :
    CpuAverages active max graph (tf :: tfs) ↔
      (tf :: tfs).Pairwise (fun earlier later => later.HasSeconds → earlier.Quiet graph) ∧
        ∀ tf' ∈ tf :: tfs, tf'.HasSeconds → tf'.Even graph := by
  have hzero : NonnegAvg (some 0) := fun x hx => (Option.some.inj hx).le
  have hiff := @plotTraces_iff graph (some 0) hzero (tf :: tfs)
  rw [List.map_cons] at hiff
  have hne : plotTraces graph (some 0) (tf.toMpstatTrace :: tfs.map CpuTrace.toMpstatTrace) ≠ [] := by
    have hcpus : tf.numCpus ≠ 0 := fun hzero => absurd tf.numCpus_pos (by rw [hzero]; decide)
    rw [plotTraces, if_neg hcpus]
    exact List.cons_ne_nil _ _
  rw [CpuAverages, List.map_cons, plotCpu_cons hactive hmax]
  constructor
  · intro h
    exact (hiff.mp (h hne)).2
  · intro h _
    exact hiff.mpr ⟨fun _ _ _ => rfl, h⟩

/-- **The averages are right** just if nothing is left in `avg` by the traces before one that has seconds, and
the CPUs of such a trace are even. -/
theorem cpuAverages_iff (active : Bool) (max : UInt64) (graph : MpstatGraph) (tfs : List CpuTrace) :
    CpuAverages active max graph tfs ↔ (active = true → max.toUInt32.toInt32 ≠ 0 →
      tfs.Pairwise (fun earlier later => later.HasSeconds → earlier.Quiet graph) ∧
        ∀ tf ∈ tfs, tf.HasSeconds → tf.Even graph) := by
  by_cases hdrawn : active = true ∧ max.toUInt32.toInt32 ≠ 0
  · obtain ⟨hactive, hmax⟩ := hdrawn
    cases tfs with
    | nil => exact iff_of_true (fun _ => by rw [plotCpu]; simp) fun _ _ => ⟨.nil, nofun⟩
    | cons tf tfs =>
      rw [cpuAverages_cons hactive hmax]
      exact ⟨fun h _ _ => h, fun h => h hactive hmax⟩
  · refine iff_of_true (fun hne => absurd (plotCpu_nil ?_ _ _) hne) fun hactive hmax =>
      absurd ⟨hactive, hmax⟩ hdrawn
    rw [not_and_or, Bool.not_eq_true, not_not] at hdrawn
    exact hdrawn

/-- Two seconds of a machine with one CPU, which works 10 percent of the one and 20 percent of the other. -/
def unevenTrace : CpuTrace where
  text := []
  numCpus := 1
  minSeconds := 0
  maxSeconds := 2
  stopSeconds := 2
  gld _ := { allocLineData 0 2 2 with data := fun u => ⟨1, if u = 0 then 10 else 20⟩ }
  numCpus_pos := by decide
  uniform := ⟨fun _ => rfl, fun _ => rfl, fun _ _ => UInt64.le_refl 1⟩

/-- The average of the CPU is taken to be 20, and it is 15. -/
theorem not_cpuAverages : ¬ CpuAverages true 20 .user [unevenTrace] := by
  intro h
  obtain ⟨-, heven⟩ := (cpuAverages_cons rfl (by decide) _ _ _).mp h
  have hseconds : unevenTrace.HasSeconds := by
    unfold CpuTrace.HasSeconds
    decide
  obtain ⟨-, hvalue⟩ := heven unevenTrace List.mem_cons_self hseconds 0 (by decide)
  have hfirst : ((unevenTrace.cpu .user 1).data 0).value = 10 := by
    change ((10 : ℕ) : ℚ) / ((1 : ℕ) : ℚ) = 10
    norm_num
  have hsecond : ((unevenTrace.cpu .user 1).data 1).value = 20 := by
    change ((20 : ℕ) : ℚ) / ((1 : ℕ) : ℚ) = 20
    norm_num
  have hmean : (unevenTrace.cpu .user 1).mean = 15 := by
    have hlist : secondsOf (unevenTrace.cpu .user 1) = [0, 1] := by decide
    rw [GraphLineData.mean, hlist, List.map_cons, List.map_cons, hfirst, hsecond]
    norm_num
  rw [Nat.zero_add, hmean] at hvalue
  rw [UInt32.ofNat_one, hsecond] at hvalue
  norm_num at hvalue

end Blktrace.Iowatcher
