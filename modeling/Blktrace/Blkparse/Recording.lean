import Blktrace.Blkparse.FileBytes

/-!
# A recording

`blktrace` leaves a file for each CPU: whole records, and where it was stopped short a piece of the next.
`do_file` takes the records out of the bytes again, in either byte order, and merges them by time.
-/

namespace Blktrace.Blkparse

theorem mem_filesOf {pdi cpu : Nat} {files : List (List BlkIoTrace)} {f : StreamId × List BlkIoTrace} :
    f ∈ filesOf pdi cpu files ↔ f.1.1 = pdi ∧ cpu ≤ f.1.2 ∧ files[f.1.2 - cpu]? = some f.2 := by
  obtain ⟨⟨p, c⟩, file⟩ := f
  induction files generalizing cpu with
  | nil => simp [filesOf]
  | cons first files ih =>
    rw [filesOf, List.mem_cons, ih]
    dsimp only
    rcases Nat.lt_trichotomy c cpu with hlt | rfl | hgt
    · have hne : c ≠ cpu := Nat.ne_of_lt hlt
      simp [hne, Nat.not_le.mpr hlt, Nat.not_le.mpr (Nat.lt_succ_of_lt hlt)]
    · simp [eq_comm]
    · obtain ⟨d, rfl⟩ := Nat.exists_eq_add_of_lt hgt
      have hsub : cpu + d + 1 - cpu = d + 1 := by omega
      have hsub' : cpu + d + 1 - (cpu + 1) = d := by omega
      have hne : cpu + d + 1 ≠ cpu := by omega
      simp [hsub, hsub', hne]
      omega

theorem mem_filesFrom {pdi : Nat} {devs : List (List (List BlkIoTrace))} {f : StreamId × List BlkIoTrace} :
    f ∈ filesFrom pdi devs ↔
      pdi ≤ f.1.1 ∧ ∃ files, devs[f.1.1 - pdi]? = some files ∧ files[f.1.2]? = some f.2 := by
  induction devs generalizing pdi with
  | nil => simp [filesFrom]
  | cons first devs ih =>
    rw [filesFrom, List.mem_append, ih, mem_filesOf]
    rcases Nat.lt_trichotomy f.1.1 pdi with hlt | heq | hgt
    · simp [Nat.ne_of_lt hlt, Nat.not_le.mpr hlt, Nat.not_le.mpr (Nat.lt_succ_of_lt hlt)]
    · simp [heq]
    · obtain ⟨d, hd⟩ := Nat.exists_eq_add_of_lt hgt
      have hsub : f.1.1 - pdi = d + 1 := by omega
      have hsub' : f.1.1 - (pdi + 1) = d := by omega
      simp [hsub, hsub', Nat.ne_of_gt hgt, Nat.succ_le_of_lt hgt, hgt.le]

theorem mem_inputFiles {devs : List (List (List BlkIoTrace))} {f : StreamId × List BlkIoTrace} :
    f ∈ inputFiles devs ↔ ∃ files, devs[f.1.1]? = some files ∧ files[f.1.2]? = some f.2 := by
  rw [inputFiles, mem_filesFrom, and_iff_right (Nat.zero_le _), Nat.sub_zero]

namespace Fd

/-! ## Whole records -/

/-- Whole records are held as they are. -/
theorem holds_fileOf {native : Bool} {ts : List BlkIoTrace} {tail : List UInt8} (hts : ∀ t ∈ ts, Whole t)
    (htail : CutOff native tail) :
    ∃ raws, Holds native (fileOf (!native) ts ++ tail) raws ∧ raws.map (traceToCpu native) = ts := by
  induction ts with
  | nil =>
    refine ⟨[], ?_, rfl⟩
    rw [fileOf_nil, List.nil_append]
    by_cases hshort : tail.length < traceSize
    · exact .ends (readFile_of_lt hshort)
    obtain ⟨hmagic, hcut⟩ := htail.resolve_left hshort
    have hlong : traceSize ≤ tail.length := not_lt.mp hshort
    refine .cut (readFile_of_le hlong) (by rwa [loadTrace_take hlong]) (readFile_of_lt ?_)
    rw [loadTrace_take hlong, getPdulen_eq, List.length_drop]
    rw [recordSize] at hcut
    omega
  | cons t ts ih =>
    obtain ⟨ht, hts⟩ := List.forall_mem_cons.mp hts
    obtain ⟨raws, hraws, hmap⟩ := ih hts
    have hfront := Whole.front ht (show fileOf (!native) (t :: ts) ++ tail =
      t.image (!native) ++ (fileOf (!native) ts ++ tail) by rw [fileOf_cons, List.append_assoc])
    generalize fileOf (!native) (t :: ts) ++ tail = bs at hfront
    have hpdu := @readFile_of_le (bs.drop traceSize) (getPdulen native (loadTrace (bs.take traceSize)))
      (by rw [hfront.pdulen, hfront.behind, List.length_append]; omega)
    rw [hfront.pdulen, hfront.behind, List.take_left, List.drop_left, ← hfront.behind,
      ← hfront.pdulen] at hpdu
    refine ⟨_, .record (readFile_of_le hfront.header) (checkMagic_of_valid hfront.valid) hpdu hraws, ?_⟩
    rw [List.map_cons, hfront.record, hmap]

/-- They stand for themselves, unless there is nothing but one that is cut. -/
theorem stands_fileOf {native : Bool} {ts : List BlkIoTrace} {tail : List UInt8} (hts : ∀ t ∈ ts, Whole t)
    (htail : CutOff native tail) (hfirst : tail.length < traceSize ∨ ts ≠ []) :
    ∃ raws, Stands none (fileOf (!native) ts ++ tail) raws ∧ raws.map (traceToCpu native) = ts := by
  obtain ⟨raws, hraws, hmap⟩ := holds_fileOf hts htail
  refine ⟨raws, ⟨native, hraws, .inr ⟨?_, fun hnil => ?_⟩⟩, hmap⟩
  · intro hdr rest hhdr b hgood
    cases ts with
    | nil =>
      rw [fileOf_nil, List.nil_append, readFile_of_lt (hfirst.resolve_right (not_not.mpr rfl))] at hhdr
      cases hhdr
    | cons t ts =>
      have hfront := Whole.front (hts t List.mem_cons_self) (show fileOf (!native) (t :: ts) ++ tail =
        t.image (!native) ++ (fileOf (!native) ts ++ tail) by rw [fileOf_cons, List.append_assoc])
      rw [readFile_of_le hfront.header] at hhdr
      obtain ⟨rfl, -⟩ := Prod.mk.inj (Option.some.inj hhdr)
      have hnative := lookNative_of_magic (checkMagic_of_valid hfront.valid) (.inl rfl)
      rw [lookNative_of_magic hgood (.inl rfl)] at hnative
      exact Option.some.inj hnative
  · rw [hnil] at hmap
    obtain rfl : ts = [] := hmap.symm
    rw [fileOf_nil, List.nil_append]
    exact readFile_of_lt (hfirst.resolve_right (not_not.mpr rfl))

/-! ## A recording -/

/-- A file as it was recorded: whole records, and what there is of one that was cut. -/
structure Recording where
  records : List BlkIoTrace
  tail : List UInt8 := []

def Recording.bytes (native : Bool) (f : Recording) : List UInt8 := fileOf (!native) f.records ++ f.tail

/-- A recording of one CPU, in time order. Where nothing is whole there is no header either. -/
structure Recording.Good (native : Bool) (cpu : Nat) (f : Recording) : Prop where
  whole : ∀ t ∈ f.records, Whole t
  cutOff : CutOff native f.tail
  first : f.tail.length < traceSize ∨ f.records ≠ []
  own : ∀ t ∈ f.records, t.cpu.toNat = cpu
  sorted : (f.records.filter fun bit => !bit.isNotify).Pairwise fun a b => a.time ≤ b.time

/-- What `handle` is given of the recordings of the devices. -/
structure Given (o : Opts) (devs : List (List Recording)) (s : FileState) : Prop where
  sorted : s.handled.Pairwise fun a b => a.2.time ≤ b.2.time
  source : ∀ e ∈ s.handled, ∃ files f, devs[e.1.1]? = some files ∧ files[e.1.2]? = some f
  complete : ∀ pdi cpu files f, devs[pdi]? = some files → files[cpu]? = some f → ∃ rest,
    f.records.filter (fun bit => !bit.isNotify) = KMerge.taken (pdi, cpu) s.handled ++ rest ∧
      ∀ t ∈ rest, o.past s.genesisTime t = true
  last : ∀ e ∈ s.handled.dropLast, o.past s.genesisTime e.2 = false

theorem Recording.Good.goodFile {native : Bool} {cpu : Nat} {f : Recording} (h : f.Good native cpu)
    {raws : List BlkIoTrace} (hmap : raws.map (traceToCpu native) = f.records) : GoodFile native cpu raws := by
  have hmem : ∀ raw ∈ raws, traceToCpu native raw ∈ f.records := by
    intro raw hraw
    rw [← hmap]
    exact List.mem_map_of_mem hraw
  refine ⟨fun raw hraw => (h.whole _ (hmem raw hraw)).valid, fun raw hraw => h.own _ (hmem raw hraw), ?_⟩
  rw [fileRecords, hmap]
  exact h.sorted

/-- What the files of good recordings stand for. -/
theorem stands_recordings {native : Bool} {devs : List (List Recording)}
    (hgood : ∀ files ∈ devs, ∀ cpu f, files[cpu]? = some f → Recording.Good native cpu f) :
    ∃ raws : Recording → List BlkIoTrace,
      List.Forall₂ (List.Forall₂ (Stands none)) (devs.map (List.map (Recording.bytes native)))
        (devs.map (List.map raws)) ∧
      ∀ f cpu, Recording.Good native cpu f → (raws f).map (traceToCpu native) = f.records := by
  have hread : ∀ f : Recording, (∃ cpu, f.Good native cpu) →
      ∃ raws, Stands none (f.bytes native) raws ∧ raws.map (traceToCpu native) = f.records :=
    fun f ⟨_, hf⟩ => stands_fileOf hf.whole hf.cutOff hf.first
  choose! raws hstands hmap using hread
  refine ⟨raws, ?_, fun f cpu hf => hmap f ⟨cpu, hf⟩⟩
  rw [List.forall₂_map_left_iff, List.forall₂_map_right_iff, List.forall₂_same]
  intro files hdev
  rw [List.forall₂_map_left_iff, List.forall₂_map_right_iff, List.forall₂_same]
  intro f hf
  obtain ⟨cpu, hcpu⟩ := List.mem_iff_getElem?.mp hf
  exact hstands f ⟨cpu, hgood files hdev cpu f hcpu⟩

/-- `handle` is given what the files stand for. -/
theorem given_of_stands {o : Opts} (hb : 1 ≤ o.rbBatch) {native : Bool} {devs : List (List Recording)}
    (hfiles : [] ∉ devs)
    (hgood : ∀ files ∈ devs, ∀ cpu f, files[cpu]? = some f → Recording.Good native cpu f)
    {raws : Recording → List BlkIoTrace}
    (hmap : ∀ f cpu, Recording.Good native cpu f → (raws f).map (traceToCpu native) = f.records)
    {bytes : List (List (List UInt8))}
    (hstands : List.Forall₂ (List.Forall₂ (Stands none)) bytes (devs.map (List.map raws))) :
    ∃ s, doFile o bytes = some s ∧ Given o devs s := by
  have hinput : ∀ f ∈ inputFiles (devs.map (List.map raws)), ∃ files g, devs[f.1.1]? = some files ∧
      files[f.1.2]? = some g ∧ f.2 = raws g ∧ Recording.Good native f.1.2 g := by
    intro f hf
    obtain ⟨rec, hrec, hfile⟩ := mem_inputFiles.mp hf
    rw [List.getElem?_map, Option.map_eq_some_iff] at hrec
    obtain ⟨files, hdev, rfl⟩ := hrec
    rw [List.getElem?_map, Option.map_eq_some_iff] at hfile
    obtain ⟨g, hg, heq⟩ := hfile
    exact ⟨files, g, hdev, hg, heq.symm, hgood files (List.mem_of_getElem? hdev) _ g hg⟩
  have hmerge : ∀ f ∈ inputFiles (devs.map (List.map raws)), GoodFile native f.1.2 f.2 := by
    intro f hf
    obtain ⟨files, g, -, -, hraws, hg⟩ := hinput f hf
    exact hg.goodFile (hraws ▸ hmap g _ hg)
  rcases doFile_standing hb hstands with ⟨-, hnone⟩ | ⟨s, streams, hsome, hsome', -⟩
  · obtain ⟨s, hs⟩ := @doFile_eq_some o (devs.map (List.map raws)) (by simpa using hfiles)
    rw [hnone] at hs
    cases hs
  · obtain ⟨hsorted, hsource, hcomplete, hlast⟩ := doFile_delivers hb hmerge hsome'
    refine ⟨s, hsome, hsorted, fun e he => ?_, fun pdi cpu files f hdev hf => ?_, hlast⟩
    · obtain ⟨f, hf, heq⟩ := hsource e he
      obtain ⟨files, g, hdev, hg, -⟩ := hinput f hf
      rw [heq] at hdev hg
      exact ⟨files, g, hdev, hg⟩
    · have hmem : ((pdi, cpu), raws f) ∈ inputFiles (devs.map (List.map raws)) :=
        mem_inputFiles.mpr ⟨files.map raws, by rw [List.getElem?_map, hdev]; rfl,
          by rw [List.getElem?_map, hf]; rfl⟩
      rw [← hmap f cpu (hgood files (List.mem_of_getElem? hdev) cpu f hf)]
      exact hcomplete _ hmem

/-- **A recording is read back** from the bytes of its files: every record that is no notify is given to `handle`
once, in time order, up to the first past the stopwatch. -/
theorem doFile_recording {o : Opts} (hb : 1 ≤ o.rbBatch) {native : Bool} {devs : List (List Recording)}
    (hfiles : [] ∉ devs)
    (hgood : ∀ files ∈ devs, ∀ cpu f, files[cpu]? = some f → Recording.Good native cpu f) :
    ∃ s, doFile o (devs.map (List.map (Recording.bytes native))) = some s ∧ Given o devs s := by
  obtain ⟨raws, hstands, hmap⟩ := stands_recordings hgood
  exact given_of_stands hb hfiles hgood hmap hstands

/-- Two CPUs of a host of the other byte order, the file of the first one cut in its third record. -/
def twoFiles : List (List Recording) :=
  [[{ records := [queueRecord 0 0 1 5, queueRecord 0 0 2 7], tail := [0x65, 0x61, 0x74] },
    { records := [queueRecord 0 1 1 6] }]]

theorem doFile_recording_twoFiles :
    ∃ s, doFile { rbBatch := 1 } (twoFiles.map (List.map (Recording.bytes false))) = some s ∧
      Given { rbBatch := 1 } twoFiles s := by
  have hwhole : ∀ dev cpu seq time, Whole (queueRecord dev cpu seq time) := fun _ _ _ _ =>
    ⟨rfl, verifyTrace_eq_false.mpr (by simp only [queueRecord]; decide)⟩
  refine doFile_recording (Nat.le_refl 1) (by simp [twoFiles]) fun files hdev cpu f hf => ?_
  obtain rfl := List.mem_singleton.mp hdev
  rcases cpu with _ | _ | cpu
  · obtain rfl := Option.some.inj hf
    refine ⟨fun t ht => ?_, .inl (by decide), .inl (by decide), by decide, by decide⟩
    rcases List.mem_pair.mp ht with rfl | rfl <;> exact hwhole _ _ _ _
  · obtain rfl := Option.some.inj hf
    refine ⟨fun t ht => ?_, .inl (by decide), .inl (by decide), by decide, by decide⟩
    rw [List.mem_singleton.mp ht]
    exact hwhole _ _ _ _
  · cases hf

end Fd

end Blktrace.Blkparse
