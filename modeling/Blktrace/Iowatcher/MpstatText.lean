import Blktrace.Iowatcher.Mpstat

/-!
# The output of `mpstat`

A banner with the number of CPUs in it, and records: a header and a line for all CPUs and for each of them, at
a fixed place in the line the numbers. Between the records there may be lines of any kind, as long as they do
not end like a header, and so behind the last one.
-/

namespace Blktrace.Iowatcher

open Lines

/-! ## The format -/

/-- A number: blanks, digits, a point and digits. -/
structure Cell where
  blanks : ℕ
  whole : List UInt8
  cents : List UInt8
  digits : ∀ b ∈ whole ++ cents, isDigit b = true
  whole_ne : whole ≠ []

def Cell.body (c : Cell) : List UInt8 := c.whole ++ 0x2e :: c.cents

def Cell.text (c : Cell) : List UInt8 := List.replicate (c.blanks + 1) 0x20 ++ c.body

def Cell.value (c : Cell) : ℚ := digitsValue 10 (c.whole ++ c.cents) / 10 ^ c.cents.length

/-- A line without its newline. -/
def PlainLine (line : List UInt8) : Prop := Lines.Plain (· == 0) 0x0a line

instance : DecidablePred PlainLine := fun line =>
  decidable_of_iff (line.all (fun b => b != 0x0a && b != 0) = true) (by simp [PlainLine, Lines.Plain])

/-- A line that is no header. -/
structure NoHeader (line : List UInt8) : Prop where
  plain : PlainLine line
  ends : ∀ v2, ¬ headerText v2 <:+ line

/-- The line of a CPU, or of all of them: the time and the CPU in 16 characters, and the numbers. -/
structure CpuLine where
  front : List UInt8
  user : Cell
  nice : Cell
  sys : Cell
  iowait : Cell
  irq : Cell
  soft : Cell
  more : List Cell
  length_front : front.length = 16
  plain_front : PlainLine front

def CpuLine.text (l : CpuLine) : List UInt8 :=
  l.front ++ (l.user.text ++ (l.nice.text ++ (l.sys.text ++ (l.iowait.text ++ (l.irq.text ++ (l.soft.text ++
    l.more.flatMap Cell.text))))))

/-- The values that there are graphs of. -/
def CpuLine.value (l : CpuLine) : MpstatGraph → ℚ
  | .sys => l.sys.value
  | .irq => l.irq.value
  | .io => l.iowait.value
  | .soft => l.soft.value
  | .user => l.user.value

/-- A record, with the lines before its header. -/
structure Record where
  gap : List (List UInt8)
  stamp : List UInt8
  lines : List CpuLine
  noHeader_gap : ∀ line ∈ gap, NoHeader line
  plain_stamp : PlainLine stamp

def Record.texts (v2 : Bool) (r : Record) : List (List UInt8) :=
  r.gap ++ (r.stamp ++ headerText v2) :: r.lines.map CpuLine.text

/-- **The output of `mpstat`**: the banner, the records and what is behind the last of them. The number of
CPUs is an `int`. -/
structure MpstatFile where
  v2 : Bool
  system : List UInt8
  cpus : List UInt8
  banner : List UInt8
  records : List Record
  behind : List (List UInt8)
  last : List UInt8
  cpus_ne : cpus ≠ []
  cpus_digits : ∀ b ∈ cpus, isDigit b = true
  cpus_lt : digitsValue 10 cpus < 2 ^ 31
  unmarked : ¬ cpuMark <:+: system
  noHeader_banner : NoHeader (system ++ 0x28 :: (cpus ++ (cpuMark ++ banner)))
  lines_length : ∀ r ∈ records, r.lines.length = digitsValue 10 cpus + 1
  noHeader_behind : ∀ line ∈ behind, NoHeader line
  plain_last : PlainLine last

/-- The number of CPUs that the banner announces. -/
def MpstatFile.numCpus (f : MpstatFile) : ℕ := digitsValue 10 f.cpus

/-- What is behind the last record. -/
def MpstatFile.tail (f : MpstatFile) : List UInt8 := unlines 0x0a f.behind ++ f.last

/-- The text of some records, and what is behind them. -/
def recordsText (v2 : Bool) (records : List Record) (tail : List UInt8) : List UInt8 :=
  unlines 0x0a (records.flatMap (Record.texts v2)) ++ tail

def MpstatFile.text (f : MpstatFile) : List UInt8 :=
  (f.system ++ 0x28 :: (f.cpus ++ (cpuMark ++ f.banner))) ++ 0x0a :: recordsText f.v2 f.records f.tail

/-! ## Lines -/

theorem isDigit_iff (b : UInt8) : isDigit b = true ↔ 0x30 ≤ b.toNat ∧ b.toNat ≤ 0x39 := by
  simp only [isDigit, Bool.and_eq_true, decide_eq_true_iff, UInt8.le_iff_toNat_le]
  exact Iff.rfl

/-- A digit is none of the characters that stand beside the digits. -/
theorem isDigit_ne {b c : UInt8} (hb : isDigit b = true) (hc : isDigit c = false) : b ≠ c := by
  rintro rfl
  rw [hb] at hc
  nomatch hc

/-- A digit is no blank. -/
theorem isSpace_digit {b : UInt8} (hb : isDigit b = true) : isSpace b = false := by
  have hrange := (isDigit_iff b).mp hb
  rw [Bool.eq_false_iff]
  simp only [isSpace, Ne, Bool.or_eq_true, beq_iff_eq, Bool.and_eq_true, decide_eq_true_iff,
    UInt8.le_iff_toNat_le]
  rintro (rfl | ⟨-, hle⟩)
  · exact absurd hrange.1 (by decide)
  · have hthirteen : (0x0d : UInt8).toNat = 13 := rfl
    omega

theorem PlainLine.of_digits {ds : List UInt8} (h : ∀ b ∈ ds, isDigit b = true) : PlainLine ds := by
  intro b hb
  refine ⟨isDigit_ne (h b hb) (by decide), ?_⟩
  simpa using isDigit_ne (c := 0) (h b hb) (by decide)

theorem Cell.plain_body (c : Cell) : PlainLine c.body := by
  have hdigits := c.digits
  obtain ⟨hwhole, hcents⟩ := List.forall_mem_append.mp hdigits
  refine Lines.Plain.append (PlainLine.of_digits hwhole) (List.forall_mem_cons.mpr ⟨by decide, ?_⟩)
  exact PlainLine.of_digits hcents

theorem plain_blanks (n : ℕ) : PlainLine (List.replicate n 0x20) := by
  intro b hb
  rw [List.eq_of_mem_replicate hb]
  decide

theorem Cell.plain (c : Cell) : PlainLine c.text := Lines.Plain.append (plain_blanks _) c.plain_body

theorem CpuLine.plain (l : CpuLine) : PlainLine l.text := by
  have hmore : PlainLine (l.more.flatMap Cell.text) := by
    intro b hb
    obtain ⟨c, -, hc⟩ := List.mem_flatMap.mp hb
    exact c.plain b hc
  exact l.plain_front.append (l.user.plain.append (l.nice.plain.append (l.sys.plain.append
    (l.iowait.plain.append (l.irq.plain.append (l.soft.plain.append hmore))))))

/-- The last character of a header. -/
theorem headerText_suffix (v2 : Bool) : [0x65] <:+ headerText v2 := by
  have hlast : (headerText v2).getLast? = some 0x65 := by cases v2 <;> decide +kernel
  obtain ⟨before, hbefore⟩ := List.getLast?_eq_some_iff.mp hlast
  exact ⟨before, hbefore.symm⟩

theorem Cell.not_suffix (c : Cell) : ¬ [0x65] <:+ c.body := by
  intro h
  have hmem : (0x65 : UInt8) ∈ c.body := h.subset List.mem_cons_self
  rw [Cell.body, List.mem_append, List.mem_cons] at hmem
  have hdigit : (0x65 : UInt8) ∉ c.whole ++ c.cents := fun hin => absurd (c.digits _ hin) (by decide)
  rw [List.mem_append, not_or] at hdigit
  rcases hmem with hmem | hmem | hmem
  · exact hdigit.1 hmem
  · exact absurd hmem (by decide)
  · exact hdigit.2 hmem

/-- The line of a CPU ends with a digit, or with the point of the last number. -/
theorem CpuLine.noHeader (l : CpuLine) : NoHeader l.text := by
  refine ⟨l.plain, fun v2 h => ?_⟩
  have hend : [0x65] <:+ l.text := (headerText_suffix v2).trans h
  obtain ⟨c, init, hc⟩ : ∃ (c : Cell) (init : List UInt8), l.text = init ++ c.body := by
    rcases List.eq_nil_or_concat l.more with hnil | ⟨more, c, hmore⟩
    · refine ⟨l.soft, l.front ++ (l.user.text ++ (l.nice.text ++ (l.sys.text ++ (l.iowait.text ++
        (l.irq.text ++ List.replicate (l.soft.blanks + 1) 0x20))))), ?_⟩
      simp [CpuLine.text, hnil, Cell.text, List.append_assoc]
    · refine ⟨c, l.front ++ (l.user.text ++ (l.nice.text ++ (l.sys.text ++ (l.iowait.text ++ (l.irq.text ++
        (l.soft.text ++ (more.flatMap Cell.text ++ List.replicate (c.blanks + 1) 0x20))))))), ?_⟩
      simp [CpuLine.text, hmore, Cell.text, List.append_assoc]
  have hne : c.body ≠ [] := by
    rw [Cell.body]
    exact List.append_ne_nil_of_right_ne_nil _ (List.cons_ne_nil _ _)
  rw [hc] at hend
  -- the last character is in the last number
  obtain ⟨before, hbefore⟩ := hend
  have hlast := congrArg List.getLast? hbefore
  rw [List.getLast?_append, List.getLast?_append_of_ne_nil _ hne] at hlast
  refine c.not_suffix ?_
  obtain ⟨body, b, hbody⟩ := List.eq_nil_or_concat c.body |>.resolve_left hne
  rw [List.concat_eq_append] at hbody
  rw [hbody] at hlast ⊢
  simp at hlast
  subst hlast
  exact List.suffix_append _ _

/-! ## The banner -/

theorem foldl_digits {ds : List UInt8} (h : ∀ b ∈ ds, isDigit b = true) (v : ℕ) :
    ds.foldl (fun val b => 10 * val + (b.toNat - 0x30 : ℤ)) (v : ℤ) =
      (ds.foldl (fun val b => 10 * val + digitValue b) v : ℕ) := by
  induction ds generalizing v with
  | nil => rfl
  | cons b ds ih =>
    obtain ⟨hb, hds⟩ := List.forall_mem_cons.mp h
    have hrange := (isDigit_iff b).mp hb
    have hval : (10 * (v : ℤ) + (b.toNat - 0x30 : ℤ)) = ((10 * v + digitValue b : ℕ) : ℤ) := by
      rw [digitValue, if_pos hb]
      omega
    rw [List.foldl_cons, List.foldl_cons, hval]
    exact ih hds _

/-- `atoi` of digits. -/
theorem atoi_digits {ds : List UInt8} (hds : ∀ b ∈ ds, isDigit b = true) (hne : ds ≠ [])
    (hlt : digitsValue 10 ds < 2 ^ 31) : atoi ds = Int32.ofNat (digitsValue 10 ds) := by
  cases ds with
  | nil => exact absurd rfl hne
  | cons b bs =>
    have hb := hds b List.mem_cons_self
    have hspace := isSpace_digit hb
    have hminus : (b == 0x2d) = false := by simpa using isDigit_ne hb (c := 0x2d) (by decide)
    have hplus : (b == 0x2b) = false := by simpa using isDigit_ne hb (c := 0x2b) (by decide)
    have hall : (b :: bs).takeWhile isDigit = b :: bs := List.takeWhile_eq_self_iff.mpr hds
    have hval := foldl_digits hds 0
    have hdrop : (b :: bs).dropWhile isSpace = b :: bs := List.dropWhile_cons_of_neg (by simp [hspace])
    unfold atoi
    dsimp only
    rw [hdrop, List.head?_cons]
    have hnot : ∀ c : UInt8, (b == c) = false → (some b == some c) = false := by
      intro c hc
      simpa using hc
    rw [hnot _ hminus, hnot _ hplus]
    simp only [Bool.or_self, Bool.false_eq_true, if_false]
    rw [hall]
    rw [Nat.cast_zero] at hval
    rw [hval]
    change Int32.ofInt (max (-2 ^ 63) (min (2 ^ 63 - 1) (digitsValue 10 (b :: bs) : ℤ))) = _
    rw [min_eq_right (by omega), max_eq_right (by omega)]
    rfl

theorem strstr_banner (f : MpstatFile) : strstr f.text cpuMark =
    some (cpuMark ++ (f.banner ++ 0x0a :: recordsText f.v2 f.records f.tail)) := by
  have hplain := f.noHeader_banner.plain
  have htext : f.text = f.system ++ 0x28 :: (f.cpus ++ (cpuMark ++ (f.banner ++
      0x0a :: recordsText f.v2 f.records f.tail))) := by
    simp only [MpstatFile.text, List.append_assoc, List.cons_append]
  rw [strstr, htext, search_part (by decide +kernel) (by decide) (fun b hb => ?_) f.unmarked]
  · have hmark : cpuMark = 0x20 :: [0x43, 0x50, 0x55, 0x29] := by decide +kernel
    rw [hmark, search_skip, search_here (List.cons_ne_nil _ _)]
    intro b hb
    refine ⟨isDigit_ne (f.cpus_digits b hb) (by decide), ?_⟩
    simpa using isDigit_ne (c := 0) (f.cpus_digits b hb) (by decide)
  · exact (hplain b (List.mem_append_left _ hb)).2

/-- **The number of CPUs** is the one in the banner. -/
theorem countMpstatCpus_text (f : MpstatFile) : countMpstatCpus f.text = Int32.ofNat f.numCpus := by
  have hbracket : (0x28 : UInt8) ∉ f.cpus := fun hmem => absurd (f.cpus_digits _ hmem) (by decide)
  have hfront : f.text.take (f.text.length -
      (cpuMark ++ (f.banner ++ 0x0a :: recordsText f.v2 f.records f.tail)).length) =
        f.system ++ 0x28 :: f.cpus := by
    have htext : f.text = (f.system ++ 0x28 :: f.cpus) ++
        (cpuMark ++ (f.banner ++ 0x0a :: recordsText f.v2 f.records f.tail)) := by
      simp only [MpstatFile.text, List.append_assoc, List.cons_append]
    rw [htext, List.length_append, Nat.add_sub_cancel, List.take_left]
  have hlast : lastBracket (f.system ++ 0x28 :: f.cpus) = some f.cpus := by
    rw [lastBracket, if_pos (List.mem_append_right _ List.mem_cons_self), List.reverse_append,
      List.reverse_cons, List.append_assoc, List.takeWhile_append_of_pos, List.singleton_append,
      List.takeWhile_cons_of_neg (by decide), List.append_nil, List.reverse_reverse]
    intro b hb
    have hne : b ≠ 0x28 := fun heq => hbracket (heq ▸ List.mem_reverse.mp hb)
    simpa using hne
  rw [countMpstatCpus, strstr_banner]
  dsimp only
  rw [hfront, hlast]
  exact atoi_digits f.cpus_digits f.cpus_ne f.cpus_lt

/-! ## Records -/

theorem plain_header (v2 : Bool) : PlainLine (headerText v2) := by
  cases v2 <;> decide +kernel

/-- A header of the one kind does not end with one of the other. -/
theorem not_suffix_header (stamp : List UInt8) : ¬ headerText false <:+ stamp ++ headerText true := by
  intro h
  have hfalse : (headerText false).length = 75 := by decide +kernel
  have htrue : (headerText true).length = 83 := by decide +kernel
  obtain ⟨before, hbefore⟩ : headerText false <:+ headerText true :=
    List.suffix_of_suffix_length_le h (List.suffix_append _ _) (by omega)
  have hlen : before.length = 8 := by
    have hlen := congrArg List.length hbefore
    rw [List.length_append, hfalse, htrue] at hlen
    omega
  -- the first characters would have to be the same
  have hat : (headerText true)[8]? = (headerText false)[0]? := by
    rw [← hbefore, List.getElem?_append_right hlen.le, hlen]
  exact absurd hat (by decide +kernel)

theorem strstr_none {v2 : Bool} {lines : List (List UInt8)} {last : List UInt8}
    (hplain : ∀ line ∈ lines, PlainLine line) (hends : ∀ line ∈ lines, ¬ headerText v2 <:+ line)
    (hlast : PlainLine last) : strstr (unlines 0x0a lines ++ last) (recordHeader v2) = none := by
  rw [strstr, recordHeader, search_unlines (plain_header v2).notMem (by decide) hplain hends]
  exact search_unterminated hlast.notMem

/-- What comes behind a header. -/
theorem strstr_header {v2 : Bool} {lines : List (List UInt8)} {stamp rest : List UInt8}
    (hlines : ∀ line ∈ lines, NoHeader line) (hstamp : PlainLine stamp) :
    strstr (unlines 0x0a lines ++ ((stamp ++ headerText v2) ++ 0x0a :: rest)) (recordHeader v2) =
      some (recordHeader v2 ++ rest) := by
  rw [strstr, recordHeader, search_unlines (plain_header v2).notMem (by decide) (fun l hl => (hlines l hl).plain)
    (fun l hl => (hlines l hl).ends v2), List.append_assoc,
    search_found (plain_header v2).notMem (hstamp.append (plain_header v2)), List.append_assoc]
  rfl

/-- Records, and what is behind them. -/
structure Listing where
  v2 : Bool
  records : List Record
  behind : List (List UInt8)
  last : List UInt8
  lines_ne : ∀ r ∈ records, r.lines ≠ []
  noHeader_behind : ∀ line ∈ behind, NoHeader line
  plain_last : PlainLine last

def Listing.text (s : Listing) : List UInt8 := recordsText s.v2 s.records (unlines 0x0a s.behind ++ s.last)

theorem Record.noHeader_lines (r : Record) : ∀ line ∈ r.lines.map CpuLine.text, NoHeader line := by
  intro line hline
  obtain ⟨l, -, rfl⟩ := List.mem_map.mp hline
  exact l.noHeader

/-- In records of the second kind there is no header of the first. -/
theorem Record.texts_spec (r : Record) :
    ∀ line ∈ r.texts true, PlainLine line ∧ ¬ headerText false <:+ line := by
  intro line hline
  rw [Record.texts, List.mem_append, List.mem_cons] at hline
  rcases hline with hline | rfl | hline
  · exact ⟨(r.noHeader_gap line hline).plain, (r.noHeader_gap line hline).ends false⟩
  · exact ⟨r.plain_stamp.append (plain_header true), not_suffix_header r.stamp⟩
  · exact ⟨(r.noHeader_lines line hline).plain, (r.noHeader_lines line hline).ends false⟩

theorem recordsText_cons (v2 : Bool) (r : Record) (records : List Record) (tail : List UInt8) :
    recordsText v2 (r :: records) tail = unlines 0x0a r.gap ++ ((r.stamp ++ headerText v2) ++ 0x0a ::
      (unlines 0x0a (r.lines.map CpuLine.text) ++ recordsText v2 records tail)) := by
  simp only [recordsText, List.flatMap_cons, Record.texts, unlines_append, unlines_cons, List.append_assoc,
    List.cons_append]

/-- Where `next_mpstat` leaves the cursor: behind the first character of the lines. -/
def cursorAt (lines : List CpuLine) (rest : List UInt8) : List UInt8 :=
  (unlines 0x0a (lines.map CpuLine.text) ++ rest).drop 1

theorem CpuLine.text_ne (l : CpuLine) : l.text ≠ [] := by
  have hfront : l.front ≠ [] := fun hnil => absurd l.length_front (by rw [hnil]; decide)
  rw [CpuLine.text]
  exact List.append_ne_nil_of_left_ne_nil hfront _

theorem cursorAt_cons (l : CpuLine) (lines : List CpuLine) (rest : List UInt8) :
    cursorAt (l :: lines) rest = l.text.tail ++ 0x0a :: (unlines 0x0a (lines.map CpuLine.text) ++ rest) := by
  obtain ⟨b, bs, htext⟩ := List.exists_cons_of_ne_nil l.text_ne
  rw [cursorAt, List.map_cons, unlines_cons, htext]
  simp

theorem cursorAt_ne {lines : List CpuLine} (hne : lines ≠ []) (rest : List UInt8) :
    cursorAt lines rest ≠ [] := by
  obtain ⟨l, ls, rfl⟩ := List.exists_cons_of_ne_nil hne
  rw [cursorAt_cons]
  exact List.append_ne_nil_of_right_ne_nil _ (List.cons_ne_nil _ _)

theorem drop_header (v2 : Bool) (rest : List UInt8) :
    (recordHeader v2 ++ rest).drop (recordHeaderLen v2) = rest.drop 1 := by
  rw [recordHeaderLen, ← List.drop_drop, List.drop_left]

/-- **`next_mpstat`** passes over lines that are no headers. -/
theorem nextMpstat_text (s : Listing) {front : List (List UInt8)} (hfront : ∀ line ∈ front, NoHeader line) :
    nextMpstat (unlines 0x0a front ++ s.text) =
      match s.records with
      | [] => none
      | r :: records =>
        some (cursorAt r.lines (recordsText s.v2 records (unlines 0x0a s.behind ++ s.last))) := by
  obtain ⟨v2, records, behind, last, hlines, hbehind, hlast⟩ := s
  have hnone : ∀ v, (∀ line ∈ records.flatMap (Record.texts v2), PlainLine line ∧ ¬ headerText v <:+ line) →
      strstr (unlines 0x0a front ++ recordsText v2 records (unlines 0x0a behind ++ last)) (recordHeader v) =
        none := by
    intro v hv
    rw [recordsText, ← List.append_assoc, ← List.append_assoc, ← unlines_append, ← unlines_append]
    refine strstr_none (fun line hline => ?_) (fun line hline => ?_) hlast
    · rw [List.mem_append, List.mem_append] at hline
      rcases hline with (hline | hline) | hline
      · exact (hfront line hline).plain
      · exact (hv line hline).1
      · exact (hbehind line hline).plain
    · rw [List.mem_append, List.mem_append] at hline
      rcases hline with (hline | hline) | hline
      · exact (hfront line hline).ends v
      · exact (hv line hline).2
      · exact (hbehind line hline).ends v
  unfold nextMpstat Listing.text
  dsimp only
  cases records with
  | nil => rw [hnone false nofun, hnone true nofun]; rfl
  | cons r records =>
    have hquiet : ∀ line ∈ front ++ r.gap, NoHeader line :=
      List.forall_mem_append.mpr ⟨hfront, r.noHeader_gap⟩
    have hfound : strstr (unlines 0x0a front ++ recordsText v2 (r :: records) (unlines 0x0a behind ++ last))
        (recordHeader v2) = some (recordHeader v2 ++ (unlines 0x0a (r.lines.map CpuLine.text) ++
          recordsText v2 records (unlines 0x0a behind ++ last))) := by
      rw [recordsText_cons, ← List.append_assoc, ← unlines_append]
      exact strstr_header hquiet r.plain_stamp
    have hne := cursorAt_ne (hlines r List.mem_cons_self) (recordsText v2 records (unlines 0x0a behind ++ last))
    cases v2 with
    | false =>
      rw [hfound]
      dsimp only
      rw [drop_header, Option.bind_some]
      exact if_neg hne
    | true =>
      rw [hnone false fun line hline => ?_, hfound]
      · rw [Option.map_some, drop_header, Option.bind_some]
        exact if_neg hne
      · obtain ⟨r, -, hr⟩ := List.mem_flatMap.mp hline
        exact r.texts_spec line hr

end Blktrace.Iowatcher
