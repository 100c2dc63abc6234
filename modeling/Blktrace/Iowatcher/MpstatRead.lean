import Blktrace.Iowatcher.MpstatText

/-!
# `mpstat.c` on the output of `mpstat`

The records are counted, the numbers of a line are read, and those of a record are stored: all of them if
there is something behind the record, and all but those of its last line if not.
-/

namespace Blktrace.Iowatcher

open Lines

/-! ## The number of records -/

theorem NoHeader.suffix {line line' : List UInt8} (h : NoHeader line) (hsuffix : line' <:+ line) :
    NoHeader line' :=
  ⟨Lines.Plain.suffix h.plain hsuffix, fun v2 hends => h.ends v2 (hends.trans hsuffix)⟩

/-- The lines that are left of a record when `next_mpstat` has found it. -/
theorem cursorAt_front {lines : List CpuLine} (hne : lines ≠ []) (rest : List UInt8) :
    ∃ front : List (List UInt8), cursorAt lines rest = unlines 0x0a front ++ rest ∧
      ∀ line ∈ front, NoHeader line := by
  obtain ⟨l, ls, rfl⟩ := List.exists_cons_of_ne_nil hne
  refine ⟨l.text.tail :: ls.map CpuLine.text, ?_, List.forall_mem_cons.mpr ⟨?_, fun line hline => ?_⟩⟩
  · rw [cursorAt_cons, unlines_cons, List.append_assoc]
    rfl
  · exact l.noHeader.suffix (List.tail_suffix _)
  · obtain ⟨l', -, rfl⟩ := List.mem_map.mp hline
    exact l'.noHeader

/-- What is behind the first record. -/
def Listing.next (s : Listing) : Listing :=
  { s with
    records := s.records.tail
    lines_ne := fun r hr => s.lines_ne r (List.mem_of_mem_tail hr) }

/-- What is behind the last record. -/
def Listing.tail (s : Listing) : List UInt8 := unlines 0x0a s.behind ++ s.last

@[simp] theorem Listing.records_next (s : Listing) : s.next.records = s.records.tail := rfl

@[simp] theorem Listing.tail_next (s : Listing) : s.next.tail = s.tail := rfl

theorem nextMpstat_cons {s : Listing} {r : Record} {records : List Record} (hs : s.records = r :: records)
    {front : List (List UInt8)} (hfront : ∀ line ∈ front, NoHeader line) :
    nextMpstat (unlines 0x0a front ++ s.text) = some (cursorAt r.lines s.next.text) := by
  have htext : s.next.text = recordsText s.v2 records (unlines 0x0a s.behind ++ s.last) := by
    simp only [Listing.text, Listing.next, hs, List.tail_cons]
  rw [nextMpstat_text s hfront, hs, htext]

theorem nextMpstat_nil {s : Listing} (hs : s.records = []) {front : List (List UInt8)}
    (hfront : ∀ line ∈ front, NoHeader line) : nextMpstat (unlines 0x0a front ++ s.text) = none := by
  rw [nextMpstat_text s hfront, hs]

/-- **The count** of `find_last_mpstat_time` is that of the records. -/
theorem numMpstats_text {s : Listing} {fuel : ℕ} (hfuel : s.records.length < fuel)
    {front : List (List UInt8)} (hfront : ∀ line ∈ front, NoHeader line) :
    numMpstats fuel (unlines 0x0a front ++ s.text) = s.records.length := by
  induction fuel generalizing s front with
  | zero => exact absurd hfuel (Nat.not_lt_zero _)
  | succ fuel ih =>
    rw [numMpstats]
    cases hs : s.records with
    | nil => rw [nextMpstat_nil hs hfront]; rfl
    | cons r records =>
      have hnext : s.next.records = records := by rw [Listing.records_next, hs]; rfl
      have hne : r.lines ≠ [] := s.lines_ne r (hs ▸ List.mem_cons_self)
      obtain ⟨front', hcur, hfront'⟩ := cursorAt_front hne s.next.text
      rw [nextMpstat_cons hs hfront]
      dsimp only
      rw [hcur, ih ?_ hfront', hnext, List.length_cons]
      rw [hs, List.length_cons] at hfuel
      rw [hnext]
      omega

theorem length_recordsText (v2 : Bool) (records : List Record) (tail : List UInt8) :
    records.length ≤ (recordsText v2 records tail).length := by
  induction records with
  | nil => exact Nat.zero_le _
  | cons r records ih =>
    rw [recordsText_cons]
    simp only [List.length_append, List.length_cons]
    omega

/-- The records of a file. -/
def MpstatFile.listing (f : MpstatFile) : Listing where
  v2 := f.v2
  records := f.records
  behind := f.behind
  last := f.last
  lines_ne r hr := by
    rw [← List.length_pos_iff, f.lines_length r hr]
    exact Nat.succ_pos _
  noHeader_behind := f.noHeader_behind
  plain_last := f.plain_last

theorem MpstatFile.text_eq (f : MpstatFile) : f.text =
    unlines 0x0a [f.system ++ 0x28 :: (f.cpus ++ (cpuMark ++ f.banner))] ++ f.listing.text := by
  rw [unlines_cons, unlines_nil, List.append_assoc]
  rfl

theorem MpstatFile.noHeader_front (f : MpstatFile) :
    ∀ line ∈ [f.system ++ 0x28 :: (f.cpus ++ (cpuMark ++ f.banner))], NoHeader line := by
  intro line hline
  rw [List.mem_singleton.mp hline]
  exact f.noHeader_banner

/-- **`mpstat_seconds`** is the number of records. -/
theorem findLastMpstatTime_text (f : MpstatFile) :
    findLastMpstatTime f.text = Int32.ofNat f.records.length := by
  have hfuel : f.listing.records.length < f.text.length + 1 := by
    have hle : f.records.length ≤ _ := length_recordsText f.v2 f.records f.tail
    rw [f.text_eq, List.length_append]
    exact Nat.lt_succ_of_le (hle.trans (Nat.le_add_left _ _))
  have hcount := numMpstats_text hfuel f.noHeader_front
  rw [← f.text_eq] at hcount
  rw [findLastMpstatTime, hcount]
  rfl

/-! ## Numbers -/

/-- What cannot be more of a number. -/
def EndsNumber (rest : List UInt8) : Prop := ∀ b ∈ rest.head?, isDigit b = false ∧ b ∉ [0x65, 0x45]

theorem takeWhile_digits {ds rest : List UInt8} (hds : ∀ b ∈ ds, isDigit b = true)
    (hrest : ∀ b ∈ rest.head?, isDigit b = false) : (ds ++ rest).takeWhile isDigit = ds := by
  rw [List.takeWhile_append_of_pos hds]
  cases rest with
  | nil => rw [List.takeWhile_nil, List.append_nil]
  | cons b bs => rw [List.takeWhile_cons_of_neg (by simp [hrest b rfl]), List.append_nil]

theorem mantissa_cell (c : Cell) {rest : List UInt8} (hrest : EndsNumber rest) :
    mantissa 10 isDigit (c.body ++ rest) = some (c.value, rest) := by
  obtain ⟨hwhole, hcents⟩ := List.forall_mem_append.mp c.digits
  have hbody : c.body ++ rest = c.whole ++ 0x2e :: (c.cents ++ rest) := by
    rw [Cell.body, List.append_assoc, List.cons_append]
  have hfirst : (c.body ++ rest).takeWhile isDigit = c.whole := by
    rw [hbody]
    refine takeWhile_digits hwhole fun b hb => ?_
    obtain rfl : (0x2e : UInt8) = b := Option.some.inj hb
    rfl
  have hsecond : (c.cents ++ rest).takeWhile isDigit = c.cents :=
    takeWhile_digits hcents fun b hb => (hrest b hb).1
  have hdrop : (c.body ++ rest).drop c.whole.length = 0x2e :: (c.cents ++ rest) := by
    rw [hbody, List.drop_left]
  unfold mantissa
  dsimp only
  rw [hfirst, hdrop, List.head?_cons, List.tail_cons, beq_self_eq_true, if_pos rfl, if_pos rfl, hsecond,
    if_neg fun h => c.whole_ne h.1, List.drop_left]
  rfl

theorem exponent_none {rest : List UInt8} (hrest : EndsNumber rest) :
    exponent [0x65, 0x45] rest = (0, rest) := by
  cases rest with
  | nil => rfl
  | cons b bs =>
    unfold exponent
    dsimp only
    rw [if_neg]
    exact fun h => (hrest b rfl).2 h.1

/-- **`strtod`** reads the number of a cell, however many blanks are left of it. -/
theorem strtod_cell (c : Cell) (n : ℕ) {rest : List UInt8} (hrest : EndsNumber rest) :
    strtod (List.replicate n 0x20 ++ (c.body ++ rest)) = some (some c.value, rest) := by
  obtain ⟨b, bs, hwhole⟩ := List.exists_cons_of_ne_nil c.whole_ne
  have hcur : c.body ++ rest = b :: (bs ++ 0x2e :: (c.cents ++ rest)) := by
    simp only [Cell.body, hwhole, List.append_assoc, List.cons_append]
  have hdigit : ∀ d ∈ b :: bs, isDigit d = true := fun d hd =>
    c.digits d (List.mem_append_left _ (hwhole ▸ hd))
  have hb := hdigit b List.mem_cons_self
  have hspace : (List.replicate n 0x20 ++ (c.body ++ rest)).dropWhile isSpace = c.body ++ rest := by
    rw [List.dropWhile_append_of_pos, hcur, List.dropWhile_cons_of_neg (by simp [isSpace_digit hb])]
    intro d hd
    rw [List.eq_of_mem_replicate hd]
    rfl
  have hhead : ∀ d, isDigit d = false → ((c.body ++ rest).head? == some d) = false := by
    intro d hd
    rw [hcur, List.head?_cons]
    simpa using isDigit_ne hb hd
  -- the second character is a digit or the point
  have hsecond : ∀ d, isDigit d = false → d ≠ 0x2e → (c.body ++ rest)[1]? ≠ some d := by
    intro d hd hpoint
    rw [hcur, List.getElem?_cons_succ]
    cases bs with
    | nil => exact fun h => hpoint (Option.some.inj h).symm
    | cons d' ds =>
      have hd' := hdigit d' (List.mem_cons_of_mem _ List.mem_cons_self)
      exact fun h => isDigit_ne hd' hd (Option.some.inj h)
  unfold strtod
  dsimp only
  rw [hspace, hhead 0x2d rfl, hhead 0x2b rfl]
  simp only [Bool.or_self, Bool.false_eq_true, if_false]
  rw [if_neg fun h => h.2.elim (hsecond 0x78 rfl (by decide)) (hsecond 0x58 rfl (by decide)),
    mantissa_cell c hrest]
  dsimp only
  rw [exponent_none hrest, zpow_zero, mul_one]

example : strtod "   12.50 x".toUTF8.toList = some (some (25 / 2), " x".toUTF8.toList) := by decide +kernel

/-! ## A line -/

/-- What `read_mpstat_event` finds in a line. -/
def CpuLine.event (l : CpuLine) : MpstatEvent :=
  ⟨some l.user.value, some l.sys.value, some l.iowait.value, some l.irq.value, some l.soft.value⟩

theorem CpuLine.value_event (l : CpuLine) (graph : MpstatGraph) :
    l.event.value graph = some (l.value graph) := by
  cases graph <;> rfl

/-- The cursor is at a line, or behind its first character. -/
def AtLine (cur : List UInt8) (l : CpuLine) (after : List UInt8) : Prop :=
  ∃ passed ≤ 1, cur = l.text.drop passed ++ 0x0a :: after

theorem EndsNumber.of_cell (c : Cell) (rest : List UInt8) : EndsNumber (c.text ++ rest) := by
  intro b hb
  rw [Cell.text, List.replicate_succ, List.cons_append, List.cons_append, List.head?_cons] at hb
  obtain rfl := Option.some.inj hb
  decide

theorem EndsNumber.of_cells (cs : List Cell) (rest : List UInt8) :
    EndsNumber (cs.flatMap Cell.text ++ 0x0a :: rest) := by
  cases cs with
  | nil =>
    intro b hb
    obtain rfl : (0x0a : UInt8) = b := Option.some.inj hb
    decide
  | cons c cs =>
    rw [List.flatMap_cons, List.append_assoc]
    exact EndsNumber.of_cell c _

/-- The blanks before the first number, of which one may be passed over. -/
theorem AtLine.drop_front {cur : List UInt8} {l : CpuLine} {after : List UInt8} (h : AtLine cur l after) :
    ∃ n, cur.drop 16 = List.replicate n 0x20 ++ (l.user.body ++ (l.nice.text ++ (l.sys.text ++
      (l.iowait.text ++ (l.irq.text ++ (l.soft.text ++ (l.more.flatMap Cell.text ++ 0x0a :: after))))))) := by
  obtain ⟨passed, hpassed, rfl⟩ := h
  have hle : passed ≤ l.text.length := by
    rw [CpuLine.text, List.length_append, l.length_front]
    omega
  refine ⟨l.user.blanks + 1 - passed, ?_⟩
  have htext : l.text ++ 0x0a :: after = l.front ++ (List.replicate (l.user.blanks + 1) 0x20 ++
      (l.user.body ++ (l.nice.text ++ (l.sys.text ++ (l.iowait.text ++ (l.irq.text ++ (l.soft.text ++
        (l.more.flatMap Cell.text ++ 0x0a :: after)))))))) := by
    simp only [CpuLine.text, Cell.text, List.append_assoc]
  have hcut : (l.front ++ List.replicate (l.user.blanks + 1) 0x20).drop (passed + 16) =
      List.replicate (l.user.blanks + 1 - passed) (0x20 : UInt8) := by
    rw [Nat.add_comm, ← List.drop_drop, ← l.length_front, List.drop_left, List.drop_replicate]
  have hlong : passed + 16 ≤ (l.front ++ List.replicate (l.user.blanks + 1) (0x20 : UInt8)).length := by
    rw [List.length_append, List.length_replicate, l.length_front]
    omega
  rw [← List.drop_append_of_le_length hle, List.drop_drop, htext, ← List.append_assoc,
    List.drop_append_of_le_length hlong, hcut]

/-- **`read_mpstat_event`** finds the numbers of the line. -/
theorem readMpstatEvent_line {cur : List UInt8} {l : CpuLine} {after : List UInt8} (h : AtLine cur l after) :
    readMpstatEvent cur = some l.event := by
  obtain ⟨n, hcur⟩ := h.drop_front
  have hcell : ∀ (c : Cell) {rest : List UInt8}, EndsNumber rest →
      strtod (c.text ++ rest) = some (some c.value, rest) := by
    intro c rest hrest
    rw [Cell.text, List.append_assoc]
    exact strtod_cell c _ hrest
  unfold readMpstatEvent
  dsimp only
  rw [hcur, if_neg, strtod_cell l.user n (.of_cell l.nice _), Option.bind_some,
    hcell l.nice (.of_cell l.sys _), Option.bind_some, hcell l.sys (.of_cell l.iowait _), Option.bind_some,
    hcell l.iowait (.of_cell l.irq _), Option.bind_some, hcell l.irq (.of_cell l.soft _), Option.bind_some,
    hcell l.soft (.of_cells l.more _)]
  · rfl
  · intro hnil
    have hbody := (List.append_eq_nil_iff.mp (List.append_eq_nil_iff.mp hnil).2).1
    exact l.user.whole_ne (List.append_eq_nil_iff.mp hbody).1

/-- **`next_mpstat_line`** fails at the last line of all. -/
theorem nextMpstatLine_line {cur : List UInt8} {l : CpuLine} {after : List UInt8} (h : AtLine cur l after) :
    nextMpstatLine cur = if after = [] then none else some after := by
  obtain ⟨passed, -, rfl⟩ := h
  have hplain : PlainLine (l.text.drop passed) := Lines.Plain.suffix l.plain (List.drop_suffix _ _)
  have hline : (l.text.drop passed ++ 0x0a :: after).takeWhile (fun b => b != 0x0a && b != 0) =
      l.text.drop passed := by
    rw [List.takeWhile_append_of_pos, List.takeWhile_cons_of_neg (by decide), List.append_nil]
    intro b hb
    obtain ⟨hnewline, hzero⟩ := hplain b hb
    simp only [Bool.and_eq_true, bne_iff_ne]
    exact ⟨hnewline, by simpa using hzero⟩
  have hat : lineAt (l.text.drop passed ++ 0x0a :: after) = some (l.text.drop passed) := by
    unfold lineAt
    dsimp only
    rw [hline, if_pos]
    simp
  rw [nextMpstatLine, nextFioLine, hat]
  dsimp only
  rw [← List.drop_drop, List.drop_left, List.drop_one, List.tail_cons]

/-! ## What is stored -/

/-- The entry that is made of a value. -/
def Keeps (pair : GraphLinePair) (value : ℚ) : Prop := ∃ sum, sumOf (some value) = some sum ∧ pair = ⟨1, sum⟩

/-- There is room for the values of the line. -/
def CpuLine.Fits (l : CpuLine) : Prop := ∀ graph, (sumOf (some (l.value graph))).isSome

theorem MpstatGraph.index_lt (graph : MpstatGraph) : graph.index < mpstatGraphs := by cases graph <;> decide

theorem MpstatGraph.index_inj {graph graph' : MpstatGraph} (h : graph.index = graph'.index) :
    graph = graph' := by
  cases graph <;> cases graph' <;> first | rfl | cases h

section

variable {time : UInt32} {i : ℕ} {ev : MpstatEvent} {gld gld' : ℕ → GraphLineData}

/-- A call writes an entry of its array. -/
theorem addMpstatGld_spec {graph : MpstatGraph} (h : addMpstatGld time i ev gld graph = some gld') :
    (∃ sum, sumOf (ev.value graph) = some sum ∧ (gld' (i + graph.index)).data time = ⟨1, sum⟩) ∧
      ∀ k u, k ≠ i + graph.index ∨ u ≠ time → (gld' k).data u = (gld k).data u := by
  obtain ⟨sum, hsum, rfl⟩ := Option.map_eq_some_iff.mp h
  constructor
  · refine ⟨sum, hsum, ?_⟩
    rw [Function.update_self, GraphLineData.access]
    exact Function.update_self _ _ _
  · intro k u hne
    by_cases hk : k = i + graph.index
    · subst hk
      rw [Function.update_self, GraphLineData.access]
      exact Function.update_of_ne (hne.resolve_left (not_not_intro rfl)) _ _
    · rw [Function.update_of_ne hk]

/-- The calls for some graphs, each of which has an array of its own. -/
theorem addMpstatGlds_spec {graphs : List MpstatGraph} (hnodup : graphs.Nodup)
    (h : graphs.foldlM (addMpstatGld time i ev) gld = some gld') :
    (∀ graph ∈ graphs, ∃ sum, sumOf (ev.value graph) = some sum ∧
      (gld' (i + graph.index)).data time = ⟨1, sum⟩) ∧
      ∀ k u, (∀ graph ∈ graphs, k ≠ i + graph.index) ∨ u ≠ time → (gld' k).data u = (gld k).data u := by
  induction graphs generalizing gld with
  | nil =>
    obtain rfl : gld = gld' := Option.some.inj h
    exact ⟨nofun, fun _ _ _ => rfl⟩
  | cons graph graphs ih =>
    -- no graph behind this one has its array
    obtain ⟨hnew, hnodup⟩ := List.nodup_cons.mp hnodup
    rw [List.foldlM_cons] at h
    obtain ⟨mid, hmid, h⟩ := Option.bind_eq_some_iff.mp h
    obtain ⟨⟨sum, hsum, hentry⟩, hframe⟩ := addMpstatGld_spec hmid
    obtain ⟨hall, hrest⟩ := ih hnodup h
    refine ⟨List.forall_mem_cons.mpr ⟨⟨sum, hsum, ?_⟩, hall⟩, fun k u hne => ?_⟩
    · rw [hrest _ _ (.inl fun other hother heq => ?_), hentry]
      obtain rfl := MpstatGraph.index_inj (Nat.add_left_cancel heq)
      exact hnew hother
    · rw [hrest k u (hne.imp_left fun h other hother => h other (List.mem_cons_of_mem _ hother)),
        hframe k u (hne.imp_left fun h => h graph List.mem_cons_self)]

theorem addMpstat_spec {l : CpuLine} (h : addMpstat time i l.event gld = some gld') :
    (∀ graph, Keeps ((gld' (i + graph.index)).data time) (l.value graph)) ∧
      ∀ k u, k < i ∨ i + mpstatGraphs ≤ k ∨ u ≠ time → (gld' k).data u = (gld k).data u := by
  obtain ⟨hall, hframe⟩ := addMpstatGlds_spec (by decide) h
  constructor
  · intro graph
    have hmem : graph ∈ [MpstatGraph.sys, .irq, .soft, .user, .io] := by cases graph <;> decide
    obtain ⟨sum, hsum, hentry⟩ := hall graph hmem
    rw [CpuLine.value_event] at hsum
    exact ⟨sum, hsum, hentry⟩
  · intro k u hne
    refine hframe k u ?_
    rcases hne with hlt | hge | hne
    · exact .inl fun graph _ => by omega
    · exact .inl fun graph _ => by have := graph.index_lt; omega
    · exact .inr hne

theorem addMpstat_isSome {l : CpuLine} (hfits : l.Fits) : (addMpstat time i l.event gld).isSome := by
  have hone : ∀ graph (gld : ℕ → GraphLineData), (addMpstatGld time i l.event gld graph).isSome := by
    intro graph gld
    rw [addMpstatGld, CpuLine.value_event, Option.isSome_map]
    exact hfits graph
  have hall : ∀ (graphs : List MpstatGraph) (gld : ℕ → GraphLineData),
      (graphs.foldlM (addMpstatGld time i l.event) gld).isSome := by
    intro graphs
    induction graphs with
    | nil => intro gld; rfl
    | cons graph graphs ih =>
      intro gld
      obtain ⟨mid, hmid⟩ := Option.isSome_iff_exists.mp (hone graph gld)
      rw [List.foldlM_cons, hmid]
      exact ih mid
  exact hall _ gld

end

/-! ## A record -/

/-- The lines of a record that are left, in the order of their arrays. -/
def lineIndices (j count : ℕ) : List ℕ := (List.range' j count).map (· * mpstatGraphs)

theorem lineIndices_succ (j count : ℕ) :
    lineIndices j (count + 1) = j * mpstatGraphs :: lineIndices (j + 1) count := rfl

/-- The cursor is at lines and what is behind them, or one character further. -/
def AtLines (cur : List UInt8) (lines : List CpuLine) (after : List UInt8) : Prop :=
  ∃ passed ≤ 1, (lines = [] → passed = 0) ∧ cur = (unlines 0x0a (lines.map CpuLine.text) ++ after).drop passed

theorem AtLines.head {cur : List UInt8} {l : CpuLine} {lines : List CpuLine} {after : List UInt8}
    (h : AtLines cur (l :: lines) after) : AtLine cur l (unlines 0x0a (lines.map CpuLine.text) ++ after) := by
  obtain ⟨passed, hpassed, -, rfl⟩ := h
  refine ⟨passed, hpassed, ?_⟩
  have hle : passed ≤ l.text.length := by
    rw [CpuLine.text, List.length_append, l.length_front]
    omega
  rw [List.map_cons, unlines_cons, List.append_assoc, List.drop_append_of_le_length hle]
  rfl

theorem AtLines.of_tail (lines : List CpuLine) (after : List UInt8) :
    AtLines (unlines 0x0a (lines.map CpuLine.text) ++ after) lines after :=
  ⟨0, Nat.zero_le _, fun _ => rfl, rfl⟩

theorem AtLines.of_cursorAt {lines : List CpuLine} (hne : lines ≠ []) (after : List UInt8) :
    AtLines (cursorAt lines after) lines after :=
  ⟨1, le_refl _, fun h => absurd h hne, rfl⟩

/-- The samples of some lines are stored. -/
def KeepsLines (gld : ℕ → GraphLineData) (time : UInt32) (j : ℕ) (lines : List CpuLine) : Prop :=
  ∀ m l, lines[m]? = some l → ∀ graph : MpstatGraph,
    Keeps ((gld ((j + m) * mpstatGraphs + graph.index)).data time) (l.value graph)

/-- What a line does where something is behind it, and where nothing is. -/
theorem Reading.line_spec {time : UInt32} {i : ℕ} {r : Reading} {l : CpuLine} {after : List UInt8}
    (hat : AtLine r.cur l after) :
    r.line time i = if after = [] then some { r with done := true }
      else (addMpstat time i l.event r.gld).map fun gld => { r with cur := after, gld } := by
  rw [Reading.line, readMpstatEvent_line hat]
  dsimp only
  rw [nextMpstatLine_line hat]
  by_cases hafter : after = []
  · rw [if_pos hafter, if_pos hafter]
  · rw [if_neg hafter, if_neg hafter]

section

variable {time : UInt32} {j : ℕ} {r r' : Reading} {lines : List CpuLine} {after : List UInt8}

/-- A record with something behind it is stored. -/
theorem Reading.record_kept (hat : AtLines r.cur lines after) (hdone : r.done = false) (hafter : after ≠ [])
    (h : r.record time (lineIndices j lines.length) = some r') :
    r'.done = false ∧ r'.cur = after ∧ KeepsLines r'.gld time j lines ∧
      ∀ k u, k < j * mpstatGraphs ∨ u ≠ time → (r'.gld k).data u = (r.gld k).data u := by
  induction lines generalizing j r with
  | nil =>
    obtain rfl : r = r' := Option.some.inj h
    obtain ⟨passed, -, hpassed, hcur⟩ := hat
    rw [hpassed rfl] at hcur
    exact ⟨hdone, hcur, fun m l hl => (nomatch hl), fun _ _ _ => rfl⟩
  | cons l lines ih =>
    have hbehind : unlines 0x0a (lines.map CpuLine.text) ++ after ≠ [] :=
      List.append_ne_nil_of_right_ne_nil _ hafter
    rw [List.length_cons, lineIndices_succ, Reading.record, Reading.line_spec hat.head, if_neg hbehind] at h
    obtain ⟨mid, hmid, h⟩ := Option.bind_eq_some_iff.mp h
    obtain ⟨gld, hgld, rfl⟩ := Option.map_eq_some_iff.mp hmid
    obtain ⟨hstored, hframe⟩ := addMpstat_spec hgld
    rw [if_neg (ne_true_of_eq_false hdone)] at h
    obtain ⟨hdone', hcur, hkept, hframe'⟩ := ih (AtLines.of_tail lines after) (by exact hdone) h
    refine ⟨hdone', hcur, fun m l' hl' graph => ?_, fun k u hne => ?_⟩
    · cases m with
      | zero =>
        -- the arrays of the lines behind are further on
        obtain rfl := Option.some.inj hl'
        have hlt := graph.index_lt
        have hnext : (j + 1) * mpstatGraphs = j * mpstatGraphs + mpstatGraphs := Nat.succ_mul _ _
        rw [Nat.add_zero, hframe' _ _ (.inl (by omega))]
        exact hstored graph
      | succ m =>
        have hidx : j + (m + 1) = j + 1 + m := by omega
        rw [hidx]
        exact hkept m l' hl' graph
    · rw [hframe' k u (hne.imp_left fun hlt => by rw [Nat.add_mul]; omega),
        hframe k u (hne.imp_right fun h => .inr h)]

/-- The last line of a record with nothing behind it is dropped. -/
theorem Reading.record_dropped (hat : AtLines r.cur lines []) (hdone : r.done = false) (hne : lines ≠ [])
    (h : r.record time (lineIndices j lines.length) = some r') :
    r'.done = true ∧ ∀ k u, (j + (lines.length - 1)) * mpstatGraphs ≤ k ∨ u ≠ time →
      (r'.gld k).data u = (r.gld k).data u := by
  induction lines generalizing j r with
  | nil => exact absurd rfl hne
  | cons l lines ih =>
    rw [List.length_cons, lineIndices_succ, Reading.record, Reading.line_spec hat.head] at h
    cases lines with
    | nil =>
      have hnil : unlines 0x0a (([] : List CpuLine).map CpuLine.text) ++ [] = [] := rfl
      rw [if_pos hnil, Option.bind_some, if_pos rfl] at h
      obtain rfl := Option.some.inj h
      exact ⟨rfl, fun _ _ _ => rfl⟩
    | cons l' lines =>
      have hbehind : unlines 0x0a ((l' :: lines).map CpuLine.text) ++ [] ≠ [] := by
        rw [List.map_cons, unlines_cons, List.append_assoc]
        exact List.append_ne_nil_of_left_ne_nil l'.text_ne _
      rw [if_neg hbehind] at h
      obtain ⟨mid, hmid, h⟩ := Option.bind_eq_some_iff.mp h
      obtain ⟨gld, hgld, rfl⟩ := Option.map_eq_some_iff.mp hmid
      obtain ⟨-, hframe⟩ := addMpstat_spec hgld
      rw [if_neg (ne_true_of_eq_false hdone)] at h
      obtain ⟨hdone', hframe'⟩ := ih (AtLines.of_tail _ []) (by exact hdone) (List.cons_ne_nil _ _) h
      refine ⟨hdone', fun k u hku => ?_⟩
      rw [hframe' k u, hframe k u]
      · refine hku.elim (fun hle => .inr (.inl ?_)) fun h => .inr (.inr h)
        rw [List.length_cons, List.length_cons, Nat.add_mul] at hle
        have : (1 : ℕ) ≤ lines.length + 1 + 1 - 1 := by omega
        have := Nat.mul_le_mul_right mpstatGraphs this
        omega
      · refine hku.imp_left fun hle => ?_
        rw [List.length_cons, List.length_cons] at hle
        rw [List.length_cons]
        have hidx : j + 1 + (lines.length + 1 - 1) = j + (lines.length + 1 + 1 - 1) := by omega
        rw [hidx]
        exact hle

/-- There is an end to the reading of a record if there is room for its values. -/
theorem Reading.record_isSome (hat : AtLines r.cur lines after) (hdone : r.done = false)
    (hfits : ∀ l ∈ lines, l.Fits) : (r.record time (lineIndices j lines.length)).isSome := by
  induction lines generalizing j r with
  | nil => rfl
  | cons l lines ih =>
    obtain ⟨hl, hfits⟩ := List.forall_mem_cons.mp hfits
    rw [List.length_cons, lineIndices_succ, Reading.record, Reading.line_spec hat.head]
    by_cases hbehind : unlines 0x0a (lines.map CpuLine.text) ++ after = []
    · rw [if_pos hbehind]
      rfl
    · have hadd : (addMpstat time (j * mpstatGraphs) l.event r.gld).isSome := addMpstat_isSome hl
      obtain ⟨gld, hgld⟩ := Option.isSome_iff_exists.mp hadd
      rw [if_neg hbehind, hgld, Option.map_some, Option.bind_some, if_neg (ne_true_of_eq_false hdone)]
      exact ih (AtLines.of_tail lines after) hdone hfits

end

end Blktrace.Iowatcher
