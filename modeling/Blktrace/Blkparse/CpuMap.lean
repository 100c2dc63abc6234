import Blktrace.Lib.Bitmap
import Blktrace.Blkparse.PipeRun

/-!
# `check_cpu_map`

The function with its accesses to memory: the map of the CPUs of the tree is in the memory that `malloc`
returns, of which `memset` clears one word. `cpu_map_max` is set where the files of a device are opened; a
pipe has none, so it is 0 in all that `check_sequence` looks at there.
-/

namespace Blktrace.Blkparse

/-! ## The CPUs of the files -/

/-- `cpu_mark_online`. The map is as good as none while `cpu_map_max` is 0. -/
def PerDevInfo.cpuMarkOnline (pdi : PerDevInfo) (cpu : ℕ) : PerDevInfo :=
  let pdi :=
    if pdi.cpuMapMax ≤ cpu then
      { pdi with
        cpuMap := fun i => if i < pdi.cpuMapMax / 64 then pdi.cpuMap i else 0
        cpuMapMax := (cpu + 64) / 64 * 64 }
    else pdi
  { pdi with cpuMap := Bitmap.add pdi.cpuMap cpu }

/-- `cpu_mark_offline`. -/
def PerDevInfo.cpuMarkOffline (pdi : PerDevInfo) (cpu : ℕ) : PerDevInfo :=
  { pdi with cpuMap := Bitmap.remove pdi.cpuMap cpu }

/-- What the files of a device make of it: CPUs, which are positive `int`s, get online with their files, and
offline at an error. -/
inductive Marked (dev : UInt32) : PerDevInfo → Prop
  | new : Marked dev { dev := dev }
  | online {pdi : PerDevInfo} {cpu : ℕ} : Marked dev pdi → cpu + 64 ≤ 2 ^ 31 →
    Marked dev (pdi.cpuMarkOnline cpu)
  | offline {pdi : PerDevInfo} {cpu : ℕ} : Marked dev pdi → Bitmap.Has pdi.cpuMap cpu →
    Marked dev (pdi.cpuMarkOffline cpu)

/-! ## The code -/

/-- `CPU_IDX` of an `int`. The division is one of unsigned longs. -/
def cpuIdx (cpu : UInt32) : ℕ := cpu.toInt32.toInt64.toUInt64.toNat / 64

/-- A word of a map of `size` words is set; there are no others. -/
def setWord (size : ℕ) (map : ℕ → UInt64) (i : ℕ) (word : UInt64) : Option (ℕ → UInt64) :=
  if i < size then some (Function.update map i word) else none

/-- The `malloc` and the `memset`. `mem` is what the memory held. -/
def newCpuMap (size : ℕ) (mem : ℕ → UInt64) : Option (ℕ → UInt64) := setWord size mem 0 0

/-- The loop over the tree. -/
def mapTree (size : ℕ) : List Trace → (ℕ → UInt64) → Option (ℕ → UInt64)
  | [], map => some map
  | t :: rest, map =>
    (setWord size map (cpuIdx t.bit.cpu) (map (cpuIdx t.bit.cpu) ||| Bitmap.bit t.bit.cpu.toNat)).bind
      (mapTree size rest)

/-- `check_cpu_map`; `none` is an access outside its map. -/
def checkCpuMapIn (mem : ℕ → UInt64) (pdi : PerDevInfo) (rbSort : List Trace) : Option Bool :=
  let size := pdi.cpuMapMax / 64
  ((newCpuMap size mem).bind (mapTree size rbSort)).map fun map =>
    (List.range size).any fun i => pdi.cpuMap i &&& ~~~ map i != 0

/-! ## The calls in a pipe -/

/-- A call of `check_sequence`: the slot, the tree and the record. -/
structure Head where
  pdi : PerDevInfo
  rbSort : List Trace
  bit : BlkIoTrace

/-- It calls `check_cpu_map`. -/
def Head.ChecksMap (h : Head) : Prop :=
  (h.pdi.cpus h.bit.cpu).lastSequence + 1 = 0 ∧ h.bit.sequence ≠ 1 ∧
    h.bit.sequence.toUInt64 ≠ (h.pdi.cpus h.bit.cpu).smallestSeqRead

instance (h : Head) : Decidable h.ChecksMap := inferInstanceAs (Decidable (_ ∧ _))

section

variable (o : Opts) (find : Find)

/-- The calls of `check_sequence` in `showLoop`. -/
def showHeads (force : Bool) : List Trace → Option Nat → PipeState → List Head
  | [], _, _ => []
  | t :: rest, cache, s =>
    if s.readSequence - t.readSequence < 1 && !force then []
    else
      let (devices, i) := lookDev s.devices cache t.bit.device
      let pdi := devAt devices i
      if t.bit.isMessage then showHeads force rest (some i) (s.shown o devices i pdi t.bit)
      else
        ⟨pdi, t :: rest, t.bit⟩ :: match checkSequence find pdi (t :: rest) t.bit force with
          | none => []
          | some pdi => showHeads force rest (some i) (s.shown o devices i pdi t.bit)

/-- Those in `pipeLoop`. -/
def pipeHeads : Nat → List (Option BlkIoTrace) → PipeState → List Head
  | 0, _, _ => []
  | fuel + 1, input, s =>
    let (s, events, rest) := readEvents o input 0 none s
    if events = 0 then []
    else
      let (s, youngest) := sortEntries o { s with readSequence := s.readSequence + 1 }
      if o.stopwatchEnd < youngest then []
      else showHeads o find false s.rbSort none s ++ pipeHeads fuel rest (showEntriesRb o find false s)

/-- Those in `doPipe`. -/
def doPipeHeads (names : Nat) (input : List (Option BlkIoTrace)) : List Head :=
  let s := pipeLoop o find (input.length + 1) input (.init names)
  pipeHeads o find (input.length + 1) input (.init names) ++
    if s.rbSort = [] then [] else showHeads o find true s.rbSort none s

end

/-- What `check_cpu_map` may be given: in pipe mode where `check_sequence` is called, and in file mode, in which
nothing is put into the tree. -/
inductive Reached (o : Opts) (find : Find) : PerDevInfo → List Trace → Prop
  | pipe {names : Nat} {input : List (Option BlkIoTrace)} {h : Head} : h ∈ doPipeHeads o find names input →
    Reached o find h.pdi h.rbSort
  | file {dev : UInt32} {pdi : PerDevInfo} : Marked dev pdi → Reached o find pdi []

/-! ## What it is for -/

/-- A CPU that is marked online for the device has no record of it in the tree. -/
def Missing (pdi : PerDevInfo) (rbSort : List Trace) : Prop :=
  ∃ cpu < pdi.cpuMapMax, Bitmap.Has pdi.cpuMap cpu ∧
    ∀ t ∈ rbSort, t.bit.device = pdi.dev → t.bit.cpu.toNat ≠ cpu

/-- It has no record of any device there. -/
def Absent (pdi : PerDevInfo) (rbSort : List Trace) : Prop :=
  ∃ cpu < pdi.cpuMapMax, Bitmap.Has pdi.cpuMap cpu ∧ ∀ t ∈ rbSort, t.bit.cpu.toNat ≠ cpu

/-- The map starts clear, all accesses are inside the maps, and the result is whether a CPU is missing. -/
structure MapRight (mem : ℕ → UInt64) (pdi : PerDevInfo) (rbSort : List Trace) : Prop where
  clear : ∃ map, newCpuMap (pdi.cpuMapMax / 64) mem = some map ∧ ∀ i < pdi.cpuMapMax / 64, map i = 0
  result : ∃ ret, checkCpuMapIn mem pdi rbSort = some ret ∧ (ret = true ↔ Missing pdi rbSort)

/-- There is a map, of which the memory was clear but for the first word, with room for all CPUs of the tree;
and where a CPU has records of other devices only, another online CPU has none at all. -/
structure MapFits (mem : ℕ → UInt64) (pdi : PerDevInfo) (rbSort : List Trace) : Prop where
  room : 64 ≤ pdi.cpuMapMax
  clean : ∀ i, 0 < i → i < pdi.cpuMapMax / 64 → mem i = 0
  cpus : ∀ t ∈ rbSort, t.bit.cpu.toNat < pdi.cpuMapMax
  devices : Missing pdi rbSort → Absent pdi rbSort

/-! ## Sizes -/

/-- A map has whole words, and its CPUs are `int`s. -/
structure Sized (pdi : PerDevInfo) : Prop where
  words : 64 ∣ pdi.cpuMapMax
  small : pdi.cpuMapMax ≤ 2 ^ 31

variable {dev : UInt32} {pdi : PerDevInfo} {ts : List Trace} {size : ℕ} {mem map : ℕ → UInt64}

theorem Marked.sized (h : Marked dev pdi) : Sized pdi := by
  induction h with
  | new => exact ⟨Nat.dvd_zero 64, Nat.zero_le _⟩
  | online _ hcpu ih =>
    unfold PerDevInfo.cpuMarkOnline
    split_ifs
    · refine ⟨Nat.dvd_mul_left .., ?_⟩
      exact (Nat.div_mul_le_self ..).trans hcpu
    · exact ⟨ih.words, ih.small⟩
  | offline _ _ ih => exact ⟨ih.words, ih.small⟩

theorem Sized.div_lt (h : Sized pdi) (n : ℕ) : n / 64 < pdi.cpuMapMax / 64 ↔ n < pdi.cpuMapMax := by
  obtain ⟨k, hk⟩ := h.words
  rw [hk]
  omega

/-- A CPU that is marked offline is marked online no more. -/
theorem has_cpuMarkOffline (pdi : PerDevInfo) (cpu n : ℕ) :
    Bitmap.Has (pdi.cpuMarkOffline cpu).cpuMap n ↔ n ≠ cpu ∧ Bitmap.Has pdi.cpuMap n :=
  Bitmap.has_remove pdi.cpuMap cpu n

/-- **The CPUs marked online** are those that were, and this one. -/
theorem Sized.has_online (h : Sized pdi) {cpu n : ℕ} (hn : n < (pdi.cpuMarkOnline cpu).cpuMapMax) :
    Bitmap.Has (pdi.cpuMarkOnline cpu).cpuMap n ↔ n = cpu ∨ (n < pdi.cpuMapMax ∧ Bitmap.Has pdi.cpuMap n) := by
  unfold PerDevInfo.cpuMarkOnline at hn ⊢
  dsimp only at hn ⊢
  rw [Bitmap.has_add]
  refine or_congr_right ?_
  split_ifs at hn ⊢ with hgrow
  · simp only [Bitmap.Has]
    split_ifs with hword
    · rw [and_iff_right ((h.div_lt n).mp hword)]
    · rw [h.div_lt] at hword
      simp [hword]
  · rw [and_iff_right hn]

theorem cpuIdx_lt (hsize : size * 64 ≤ 2 ^ 31) (cpu : UInt32) :
    (cpuIdx cpu < size ↔ cpu.toNat / 64 < size) ∧ (cpu.toNat / 64 < size → cpuIdx cpu = cpu.toNat / 64) := by
  have hint := Word.toInt_toInt32_eq cpu
  rw [← Int32.toInt_toInt64] at hint
  have hlt := cpu.toNat_lt
  rw [cpuIdx]
  by_cases hsmall : 2 ^ 31 ≤ cpu.toNat
  · rw [if_pos hsmall] at hint
    have hneg : ¬ 0 ≤ cpu.toInt32.toInt64.toUInt64.toInt64 := by
      rw [Int64.le_iff_toInt_le, Int64.toInt64_toUInt64]
      show ¬ 0 ≤ cpu.toInt32.toInt64.toInt
      omega
    rw [Word.toInt64_nonneg_iff] at hneg
    refine ⟨iff_of_false ?_ ?_, fun h => ?_⟩ <;> omega
  · rw [if_neg hsmall, sub_zero] at hint
    have hnat := Word.toNat_toUInt64 (a := cpu.toInt32.toInt64) (by omega)
    rw [hint, Nat.cast_inj] at hnat
    rw [hnat]
    exact ⟨Iff.rfl, fun _ => rfl⟩

/-! ## The map of the tree -/

/-- Inside the map, a CPU of the tree is added to it. -/
theorem mapTree_cons (hsize : size * 64 ≤ 2 ^ 31) (t : Trace) :
    mapTree size (t :: ts) map =
      if t.bit.cpu.toNat / 64 < size then mapTree size ts (Bitmap.add map t.bit.cpu.toNat) else none := by
  obtain ⟨hlt, heq⟩ := cpuIdx_lt hsize t.bit.cpu
  rw [mapTree, setWord]
  simp only [hlt]
  split_ifs with hin
  · rw [heq hin]
    rfl
  · rfl

theorem mapTree_some (hsize : size * 64 ≤ 2 ^ 31) (hin : ∀ t ∈ ts, t.bit.cpu.toNat / 64 < size) :
    ∃ map', mapTree size ts map = some map' ∧
      ∀ n, Bitmap.Has map' n ↔ Bitmap.Has map n ∨ ∃ t ∈ ts, t.bit.cpu.toNat = n := by
  induction ts generalizing map with
  | nil => exact ⟨map, rfl, by simp⟩
  | cons t ts ih =>
    obtain ⟨ht, hts⟩ := List.forall_mem_cons.mp hin
    obtain ⟨map', hmap', hhas⟩ := @ih (Bitmap.add map t.bit.cpu.toNat) hts
    refine ⟨map', ?_, fun n => ?_⟩
    · rw [mapTree_cons hsize, if_pos ht, hmap']
    · rw [hhas, Bitmap.has_add, List.exists_mem_cons_iff, or_comm (a := n = _), or_assoc, eq_comm]

theorem mapTree_none (hsize : size * 64 ≤ 2 ^ 31) {t : Trace} (ht : t ∈ ts)
    (hout : ¬ t.bit.cpu.toNat / 64 < size) : mapTree size ts map = none := by
  induction ts generalizing map with
  | nil => nomatch ht
  | cons t' ts ih =>
    rw [mapTree_cons hsize]
    rcases List.mem_cons.mp ht with rfl | ht
    · rw [if_neg hout]
    · split_ifs
      · exact ih ht
      · rfl

theorem has_treeCpuMap (ts : List Trace) (n : ℕ) :
    Bitmap.Has (treeCpuMap ts) n ↔ ∃ t ∈ ts, t.bit.cpu.toNat = n := by
  -- the words are filled one by one from those of any map
  have hfold : ∀ map, Bitmap.Has (fun i => ts.foldl (fun word t => if t.bit.cpu.toNat / 64 = i then
      word ||| ((1 : UInt64) <<< (t.bit.cpu.toUInt64 % 64)) else word) (map i)) n ↔
        Bitmap.Has map n ∨ ∃ t ∈ ts, t.bit.cpu.toNat = n := by
    induction ts with
    | nil => simp
    | cons t ts ih =>
      intro map
      have hbit : (1 : UInt64) <<< (t.bit.cpu.toUInt64 % 64) = Bitmap.bit t.bit.cpu.toNat := by
        have hmod : t.bit.cpu.toUInt64 % 64 = UInt64.ofNat (t.bit.cpu.toNat % 64) := by
          apply UInt64.toNat_inj.mp
          simp
          omega
        rw [Bitmap.bit, hmod]
      have hadd : ∀ i, (if t.bit.cpu.toNat / 64 = i then map i ||| ((1 : UInt64) <<< (t.bit.cpu.toUInt64 % 64))
          else map i) = Bitmap.add map t.bit.cpu.toNat i := by
        intro i
        rw [hbit, Bitmap.add, Function.update_apply]
        split_ifs with h h' h'
        · rw [h]
        · exact absurd h.symm h'
        · exact absurd h'.symm h
        · rfl
      simp only [List.foldl_cons, hadd]
      rw [ih, Bitmap.has_add, List.exists_mem_cons_iff, or_comm (a := n = _), or_assoc, eq_comm]
  have hzero := hfold fun _ => 0
  rw [or_iff_right (Bitmap.not_has_zero n)] at hzero
  exact hzero

/-- `check_cpu_map` finds the CPUs that are online and absent. -/
theorem checkCpuMap_iff (h : Sized pdi) : checkCpuMap pdi ts = true ↔ Absent pdi ts := by
  obtain ⟨k, hk⟩ := h.words
  have hwords : pdi.cpuMapMax / 64 * 64 = pdi.cpuMapMax := by omega
  have hall := Bitmap.any_words pdi.cpuMap (treeCpuMap ts) (pdi.cpuMapMax / 64)
  rw [hwords] at hall
  rw [checkCpuMap, hall, Absent]
  simp [has_treeCpuMap]

/-- **In memory that fits**, it returns what the model of it without the memory does. -/
theorem checkCpuMapIn_eq (h : Sized pdi) (hroom : 64 ≤ pdi.cpuMapMax)
    (hclean : ∀ i, 0 < i → i < pdi.cpuMapMax / 64 → mem i = 0)
    (hcpus : ∀ t ∈ ts, t.bit.cpu.toNat < pdi.cpuMapMax) :
    checkCpuMapIn mem pdi ts = some (checkCpuMap pdi ts) := by
  obtain ⟨k, hk⟩ := h.words
  have hsmall := h.small
  have hwords : pdi.cpuMapMax / 64 * 64 = pdi.cpuMapMax := by omega
  have hpos : 0 < pdi.cpuMapMax / 64 := by omega
  obtain ⟨map, hmap, hhas⟩ := @mapTree_some ts _ (Function.update mem 0 0) (by omega)
    fun t ht => (h.div_lt _).mpr (hcpus t ht)
  have hsome : checkCpuMapIn mem pdi ts =
      some ((List.range (pdi.cpuMapMax / 64)).any fun i => pdi.cpuMap i &&& ~~~ map i != 0) := by
    rw [checkCpuMapIn, newCpuMap, setWord, if_pos hpos, Option.bind_some, hmap, Option.map_some]
  rw [hsome, Option.some_inj, Bool.eq_iff_iff, checkCpuMap_iff h, Bitmap.any_words, hwords, Absent]
  refine exists_congr fun n => and_congr_right fun hn => and_congr_right fun _ => ?_
  have hclear : ¬ Bitmap.Has (Function.update mem 0 0) n := by
    have hzero : Function.update mem 0 0 (n / 64) = 0 := by
      by_cases hfirst : n / 64 = 0
      · rw [hfirst, Function.update_self]
      · rw [Function.update_of_ne hfirst]
        exact hclean _ (Nat.pos_of_ne_zero hfirst) ((h.div_lt n).mpr hn)
    rw [Bitmap.Has, hzero]
    simp
  rw [hhas, or_iff_right hclear]
  simp

/-! ## The calls in a pipe -/

variable {o : Opts} {find : Find}

theorem PerDevInfo.Plain.sized (h : pdi.Plain) : Sized pdi := by
  refine ⟨?_, ?_⟩
  · rw [h.1]
    exact Nat.dvd_zero 64
  · rw [h.1]
    exact Nat.zero_le _

/-- The slots of a pass have no CPU map. -/
theorem showHeads_plain {force : Bool} {cache : Option Nat} {s : PipeState} (hd : DevsOk s.devices)
    (hc : CacheOk s.devices cache) : ∀ h ∈ showHeads o find force ts cache s, h.pdi.Plain := by
  induction ts generalizing cache s with
  | nil => nofun
  | cons t ts ih =>
    have hlooked := lookDev_looked hd.slotsOk hc t.bit.device
    have hd₁ := hd.look hc t.bit.device
    rw [showHeads]
    generalize lookDev s.devices cache t.bit.device = look at hlooked hd₁ ⊢
    obtain ⟨devices, i⟩ := look
    have hplain := devAt_plain hd₁.plain i
    -- a record that is shown leaves its slot plain
    have hnext : ∀ pdi', Passes find (devAt devices i) pdi' (t :: ts) t.bit force →
        ∀ h ∈ showHeads o find force ts (some i) (s.shown o devices i pdi' t.bit), h.pdi.Plain := by
      intro pdi' hpass
      obtain ⟨hdev, hplain'⟩ := hpass.dev hplain
      obtain ⟨hsdev, hsplain, -⟩ := show_spec o pdi' t.bit
      exact ih (hd₁.set (hsdev.trans hdev) (hsplain hplain')) (hlooked.cacheOk.set (hsdev.trans hdev))
    dsimp only
    split_ifs with hold hmessage
    · nofun
    · exact hnext _ (Or.inl ⟨hmessage, rfl⟩)
    · refine List.forall_mem_cons.mpr ⟨hplain, ?_⟩
      cases hcheck : checkSequence find (devAt devices i) (t :: ts) t.bit force with
      | none => nofun
      | some pdi' => exact hnext pdi' (Or.inr ⟨by simpa using hmessage, hcheck⟩)

theorem pipeHeads_plain {fuel : Nat} {input : List (Option BlkIoTrace)} {s : PipeState}
    (hd : DevsOk s.devices) : ∀ h ∈ pipeHeads o find fuel input s, h.pdi.Plain := by
  induction fuel generalizing input s with
  | zero => nofun
  | succ fuel ih =>
    have hread := (@readEvents_induction o (fun _ => True) input 0 none s (fun _ _ _ => trivial)
      (fun _ _ _ _ => trivial) (fun _ _ _ _ _ _ _ _ _ _ => trivial) hd (CacheOk.none _) trivial).1
    rw [pipeHeads]
    generalize readEvents o input 0 none s = r at hread ⊢
    obtain ⟨s', events, rest⟩ := r
    have hsort := (@sortEntries_devices (fun _ => True) (fun _ _ => True) (fun _ _ _ _ _ _ _ _ => trivial) o
      { s' with readSequence := s'.readSequence + 1 } [] hread (fun _ _ => trivial) (fun _ _ => trivial)
      trivial).1
    dsimp only
    generalize sortEntries o { s' with readSequence := s'.readSequence + 1 } = q at hsort ⊢
    obtain ⟨s₁, youngest⟩ := q
    split_ifs
    · nofun
    · nofun
    · have hshow := (@showLoop_induction o find false (fun _ _ => True) s₁.rbSort none s₁ []
        (fun _ _ _ _ _ _ _ _ => trivial) (fun _ _ _ _ _ _ _ _ _ _ _ => trivial) hsort (CacheOk.none _)
        trivial).1
      exact List.forall_mem_append.mpr ⟨showHeads_plain hsort (CacheOk.none _), ih hshow⟩

/-- **In a pipe** `check_sequence` is called for slots without a CPU map. -/
theorem doPipeHeads_plain (o : Opts) (find : Find) (names : Nat) (input : List (Option BlkIoTrace)) :
    ∀ h ∈ doPipeHeads o find names input, h.pdi.Plain := by
  have hinit : DevsOk (PipeState.init names).devices := DevsOk.init names
  have hlast := (@pipeLoop_devices (fun _ => True) (fun _ _ => True) (fun _ _ _ _ _ _ _ _ => trivial) o find
    (fun _ _ _ _ _ _ _ _ _ _ _ => trivial) names input (fun _ _ _ _ _ => trivial) trivial).devs
  rw [doPipeHeads]
  refine List.forall_mem_append.mpr ⟨pipeHeads_plain hinit, ?_⟩
  split_ifs
  · nofun
  · exact showHeads_plain hlast (CacheOk.none _)

theorem Reached.sized (h : Reached o find pdi ts) : Sized pdi := by
  cases h with
  | pipe h => exact (doPipeHeads_plain _ _ _ _ _ h).sized
  | file h => exact h.sized

/-- **`check_cpu_map`** is right just where the map fits. -/
theorem mapRight_iff (h : Reached o find pdi ts) (mem : ℕ → UInt64) :
    MapRight mem pdi ts ↔ MapFits mem pdi ts := by
  have hs := h.sized
  have hword := hs.div_lt
  have hsmall := hs.small
  constructor
  · rintro ⟨⟨map, hmap, hzero⟩, ret, hret, hiff⟩
    rw [newCpuMap, setWord] at hmap
    split_ifs at hmap with hpos
    obtain rfl := Option.some.inj hmap
    have hroom : 64 ≤ pdi.cpuMapMax := by omega
    have hclean : ∀ i, 0 < i → i < pdi.cpuMapMax / 64 → mem i = 0 := by
      intro i hi hlt
      rw [← hzero i hlt, Function.update_of_ne hi.ne']
    have hcpus : ∀ t ∈ ts, t.bit.cpu.toNat < pdi.cpuMapMax := by
      intro t ht
      by_contra hout
      rw [← hword] at hout
      have hnone := @mapTree_none ts _ (Function.update mem 0 0) (by omega) t ht hout
      rw [checkCpuMapIn, newCpuMap, setWord, if_pos hpos, Option.bind_some, hnone] at hret
      nomatch hret
    refine ⟨hroom, hclean, hcpus, fun hmissing => ?_⟩
    rw [checkCpuMapIn_eq hs hroom hclean hcpus, Option.some_inj] at hret
    rw [← checkCpuMap_iff hs, hret, hiff]
    exact hmissing
  · rintro ⟨hroom, hclean, hcpus, hdevices⟩
    have hpos : 0 < pdi.cpuMapMax / 64 := by omega
    refine ⟨⟨Function.update mem 0 0, if_pos hpos, fun i hi => ?_⟩, ?_⟩
    · by_cases hfirst : i = 0
      · rw [hfirst, Function.update_self]
      · rw [Function.update_of_ne hfirst]
        exact hclean i (Nat.pos_of_ne_zero hfirst) hi
    · refine ⟨_, checkCpuMapIn_eq hs hroom hclean hcpus, ?_⟩
      rw [checkCpuMap_iff hs]
      refine ⟨?_, hdevices⟩
      rintro ⟨cpu, hcpu, hhas, hnone⟩
      exact ⟨cpu, hcpu, hhas, fun t ht _ => hnone t ht⟩

/-- The map of one file. -/
theorem mapRight_file : MapRight (fun _ => 0) (PerDevInfo.cpuMarkOnline { dev := 8 } 0) [] := by
  have hmarked : Marked 8 (PerDevInfo.cpuMarkOnline { dev := 8 } 0) := .online .new (by decide)
  have hreached : Reached {} (fun _ _ _ => none) (PerDevInfo.cpuMarkOnline { dev := 8 } 0) [] := .file hmarked
  refine (mapRight_iff hreached _).mpr ⟨?_, ?_, ?_, ?_⟩
  · decide
  · intro i _ _
    rfl
  · nofun
  · rintro ⟨cpu, hcpu, hhas, -⟩
    exact ⟨cpu, hcpu, hhas, nofun⟩

/-- **In a pipe** it is never right. -/
theorem not_mapRight_pipe {names : Nat} {input : List (Option BlkIoTrace)} {h : Head}
    (hh : h ∈ doPipeHeads o find names input) (mem : ℕ → UInt64) : ¬ MapRight mem h.pdi h.rbSort := by
  have hplain := doPipeHeads_plain o find names input h hh
  rintro ⟨⟨map, hmap, -⟩, -⟩
  rw [hplain.1, newCpuMap, setWord] at hmap
  nomatch hmap

/-- The first record of a CPU in the pipe has sequence number 5. -/
def lateFirst : BlkIoTrace :=
  { magic := 0x65617407, sequence := 5, time := 1, sector := 0, bytes := 4096, action := 0x10001, pid := 1,
    device := 0x800000, cpu := 0, error := 0, pduLen := 0, pdu := [] }

/-- Then `check_cpu_map` is called, and clears a word that it does not have. -/
theorem not_mapRight : ∃ h ∈ doPipeHeads {} (fun _ _ _ => none) 0 [some lateFirst],
    h.ChecksMap ∧ ∀ mem, ¬ MapRight mem h.pdi h.rbSort := by
  have hany : (doPipeHeads {} (fun _ _ _ => none) 0 [some lateFirst]).any
      (fun h => decide h.ChecksMap) = true := by decide +kernel
  obtain ⟨h, hh, hchecks⟩ := List.any_eq_true.mp hany
  exact ⟨h, hh, of_decide_eq_true hchecks, fun mem => not_mapRight_pipe hh mem⟩

end Blktrace.Blkparse
