import Blktrace.Blkparse.FormatLang

/-!
# The formats of blkparse

The formats that the options say, and the default ones. What is printed without a format is what the
format of the manual would print, as long as no time was taken and the sequence number is an `int`.
-/

namespace Blktrace.Blkparse

open Printf

/-! ## The formats of the manual -/

/-- A field without a width, and one with. -/
def Token.plain (c : Char) : Token := .field c false none

def Token.wide (c : Char) (width : ℕ) : Token := .field c false (some width)

/-- `HEADER`. -/
def header : List Token :=
  [.plain 'D', .char ' ', .wide 'c' 2, .char ' ', .wide 's' 8, .char ' ', .wide 'T' 5, .char '.', .wide 't' 9,
    .char ' ', .wide 'p' 5, .char ' ', .wide 'a' 2, .char ' ', .wide 'd' 3, .char ' ']

example : renderAll header = "%D %2c %8s %5T.%9t %5p %2a %3d ".toList := by decide

/-- `"[%C]\n"`. -/
def nameFormat : List Token := [.char '[', .plain 'C', .char ']', .escape 'n']

/-- `"[%e]\n"`. -/
def errorFormat : List Token := [.char '[', .plain 'e', .char ']', .escape 'n']

/-- `"(%P) "`. -/
def pduFormat (l : Line) : List Token :=
  if l.pduBuf.2 = 0 then [] else [.char '(', .plain 'P', .char ')', .char ' ']

/-- `"%S + %n "`. -/
def rangeFormat : List Token :=
  [.plain 'S', .char ' ', .char '+', .char ' ', .plain 'n', .char ' ']

/-- The format of what is printed behind the header, if no time has been taken. -/
def bodyFormat (l : Line) : List Token :=
  match l.act with
  | .R | .C =>
    if l.bit.hasTc blkTcPc then pduFormat l ++ errorFormat
    else (if l.bit.tSec ≠ 0 then rangeFormat else [.plain 'S', .char ' ']) ++ errorFormat
  | .D | .I | .Q | .B =>
    if l.bit.hasTc blkTcPc then [.plain 'N', .char ' '] ++ pduFormat l ++ nameFormat
    else (if l.bit.tSec ≠ 0 then rangeFormat else []) ++ nameFormat
  | .M | .F | .G | .S => (if l.bit.tSec ≠ 0 then rangeFormat else []) ++ nameFormat
  | .P => nameFormat
  | .U | .UT => [.char '[', .plain 'C', .char ']', .char ' ', .plain 'U', .escape 'n']
  | .X => [.plain 'S', .char ' ', .char '/', .char ' ', .plain 'U', .char ' '] ++ nameFormat
  | .A => []

section

variable {env : TextEnv} {l : Line}

theorem printAll_append (toks toks' : List Token) :
    printAll env l (toks ++ toks') = (printAll env l toks).andThen (printAll env l toks') := by
  rw [printAll, List.map_append, Printed.all_append]
  rfl

/-- A sequence number that is no negative `int`. -/
theorem sdec_toInt32 {x : UInt32} (hx : x.toNat < 2 ^ 31) : sdec x.toInt32.toInt = udec x.toNat := by
  have hint : x.toInt32.toInt = x.toNat := BitVec.toInt_eq_toNat_of_lt (by
    show 2 * x.toNat < 2 ^ 32
    omega)
  rw [hint]
  rfl

theorem printAll_header (hsequence : l.bit.sequence.toNat < 2 ^ 31) :
    printAll env l header = .text (headerText env l) := by
  simp [printAll, header, Token.plain, Token.wide, Token.print, printFieldText, fieldText, headerText,
    sdec_toInt32 hsequence]

theorem printAll_nameFormat : printAll env l nameFormat = .text (nameLine env l) := by
  simp [printAll, nameFormat, Token.plain, Token.print, printFieldText, fieldText, nameLine, escaped]

theorem printAll_errorFormat : printAll env l errorFormat = .text (errorLine l) := by
  simp [printAll, errorFormat, Token.plain, Token.print, printFieldText, fieldText, errorLine, escaped]

theorem printAll_rangeFormat : printAll env l rangeFormat = .text (rangeText l.bit) := by
  simp [printAll, rangeFormat, Token.plain, Token.print, printFieldText, fieldText, rangeText]

/-- Nothing is there in parentheses where there is no payload. -/
theorem printAll_pduFormat : printAll env l (pduFormat l) =
    (dumpPduOf env l).map fun p => (pduText? p, false) := by
  unfold pduFormat
  split_ifs with hlen
  · rw [dumpPduOf, if_pos hlen]
    rfl
  · rw [dumpPduOf, if_neg hlen]
    simp only [printAll, Token.plain, List.map_cons, List.map_nil, Token.print, printFieldText, Printed.all_cons,
      Printed.all_nil, Printed.andThen_text_nil, Printed.text_andThen, dumpPduOf, if_neg hlen]
    split_ifs with hshort
    · rfl
    · cases dumpPduText env.pduP (l.pduBuf.1.take l.pduBuf.2) with
      | none => rfl
      | some p => simp [Printed.andThen, Printed.text, pduText?]

/-- Text, and then what is printed of a payload. -/
theorem text_andThen_map {γ : Type*} (s : List Char) (r : Option γ) (f : γ → List Char) :
    (Printed.text s).andThen (r.map fun x => (f x, false)) = r.map fun x => (s ++ f x, false) := by
  cases r <;> rfl

theorem map_andThen_text {γ : Type*} (r : Option γ) (f : γ → List Char) (s : List Char) :
    Printed.andThen (r.map fun x => (f x, false)) (.text s) = r.map fun x => (f x ++ s, false) := by
  cases r <;> rfl

theorem printAll_bodyFormat (hact : l.act ≠ .A) (helapsed : l.elapsed = noElapsed) :
    printAll env l (bodyFormat l) = bodyText env l := by
  have hrange : ∀ {toks : List Token} {s : List Char}, printAll env l toks = .text s →
      printAll env l (if l.bit.tSec ≠ 0 then rangeFormat else toks) =
        .text (if l.bit.tSec ≠ 0 then rangeText l.bit else s) := by
    intro toks s htoks
    split_ifs
    · exact printAll_rangeFormat
    · exact htoks
  have hnil : printAll env l [] = .text [] := rfl
  have hsector : printAll env l [.plain 'S', .char ' '] = .text (udec l.bit.sector.toNat ++ [' ']) := by
    simp [printAll, Token.plain, Token.print, printFieldText, fieldText]
  have hbytes : printAll env l [.plain 'N', .char ' '] = .text (udec l.bit.bytes.toNat ++ [' ']) := by
    simp [printAll, Token.plain, Token.print, printFieldText, fieldText]
  have htime : ¬ l.elapsed ≠ noElapsed := not_not.mpr helapsed
  unfold bodyFormat bodyText
  cases hl : l.act
  case A => exact absurd hl hact
  case R | C =>
    dsimp only
    by_cases hpc : l.bit.hasTc blkTcPc = true
    · rw [if_pos hpc, if_pos hpc, printAll_append, printAll_pduFormat, printAll_errorFormat, map_andThen_text]
    · rw [if_neg hpc, if_neg hpc, if_neg htime, printAll_append, hrange hsector, printAll_errorFormat,
        Printed.text_andThen]
  case D | I | Q | B =>
    dsimp only
    by_cases hpc : l.bit.hasTc blkTcPc = true
    · rw [if_pos hpc, if_pos hpc, printAll_append, printAll_append, hbytes, printAll_pduFormat,
        printAll_nameFormat, text_andThen_map, map_andThen_text]
    · rw [if_neg hpc, if_neg hpc, if_neg htime, printAll_append, hrange hnil, printAll_nameFormat,
        Printed.text_andThen]
  case M | F | G | S =>
    dsimp only
    rw [printAll_append, hrange hnil, printAll_nameFormat, Printed.text_andThen]
  case P => exact printAll_nameFormat
  case U | UT =>
    simp only [printAll, Token.plain, List.map_cons, List.map_nil, Token.print, printFieldText, fieldText,
      Printed.all_cons, Printed.all_nil, Printed.andThen_text_nil]
    cases getPduInt l.bit.pdu with
    | none => rfl
    | some v => simp [Printed.andThen, Printed.text, escaped]
  case X =>
    rw [printAll_append, printAll_nameFormat]
    simp only [printAll, Token.plain, List.map_cons, List.map_nil, Token.print, printFieldText, fieldText,
      Printed.all_cons, Printed.all_nil, Printed.andThen_text_nil]
    cases getPduInt l.bit.pdu with
    | none => rfl
    | some v => simp [Printed.andThen, Printed.text]

end

/-! ## The options -/

/-- `-f` and `-F`. -/
inductive FormatOption
  | all (option : List Char)
  | one (option : List Char)

/-- `VALID_SPECS`. -/
def validSpecs : List Char :=
  ['A', 'B', 'C', 'D', 'F', 'G', 'I', 'M', 'P', 'Q', 'R', 'S', 'T', 'U', 'W', 'X']

/-- `override_format`, by the first character of the action. -/
abbrev Overrides := Char → Option (List Char)

/-- `set_all_format_specs`. -/
def setAllFormatSpecs (fmts : Overrides) (option : List Char) : Overrides :=
  validSpecs.foldl (fun fmts p => if (fmts p).isNone then Function.update fmts p (some option) else fmts) fmts

/-- `add_format_spec`. -/
def addFormatSpec (fmts : Overrides) : List Char → Option Overrides
  | spec :: ',' :: option => if spec ∈ validSpecs then some (Function.update fmts spec (some option)) else none
  | _ => none

def FormatOption.apply (fmts : Overrides) : FormatOption → Option Overrides
  | all option => some (setAllFormatSpecs fmts option)
  | one option => addFormatSpec fmts option

/-- The options of a command line, one after the other. -/
def handleFormats (opts : List FormatOption) : Option Overrides :=
  opts.foldlM FormatOption.apply fun _ => none

/-- What an option says of one action, and what it says of all. -/
def FormatOption.ofOne (spec : Char) : FormatOption → Option (List Char)
  | one (spec' :: ',' :: option) => if spec' = spec then some option else none
  | _ => none

def FormatOption.ofAll : FormatOption → Option (List Char)
  | all option => some option
  | one _ => none

/-- The last `-F` for an action. -/
def lastOne (spec : Char) (opts : List FormatOption) : Option (List Char) :=
  (opts.filterMap (FormatOption.ofOne spec)).getLast?

/-- The first `-f`. -/
def firstAll (opts : List FormatOption) : Option (List Char) := (opts.filterMap FormatOption.ofAll).head?

theorem lastOne_append (spec : Char) (opts : List FormatOption) (opt : FormatOption) :
    lastOne spec (opts ++ [opt]) = (opt.ofOne spec).or (lastOne spec opts) := by
  unfold lastOne
  rw [List.filterMap_append]
  cases h : opt.ofOne spec with
  | none => simp [h]
  | some fmt => simp [h]

theorem firstAll_append (opts : List FormatOption) (opt : FormatOption) :
    firstAll (opts ++ [opt]) = (firstAll opts).or opt.ofAll := by
  unfold firstAll
  rw [List.filterMap_append]
  cases h : opt.ofAll with
  | none => simp [h]
  | some fmt => simp [h]

theorem setAllFormatSpecs_eq (fmts : Overrides) (option : List Char) {spec : Char} (hspec : spec ∈ validSpecs) :
    setAllFormatSpecs fmts option spec = (fmts spec).or (some option) := by
  have hloop : ∀ (specs : List Char) (fmts : Overrides), spec ∈ specs ∨ (fmts spec).isSome →
      specs.foldl (fun fmts p => if (fmts p).isNone then Function.update fmts p (some option) else fmts)
        fmts spec = (fmts spec).or (some option) := by
    intro specs
    induction specs with
    | nil =>
      intro fmts h
      obtain ⟨fmt, hfmt⟩ := Option.isSome_iff_exists.mp (h.resolve_left List.not_mem_nil)
      rw [List.foldl_nil, hfmt]
      rfl
    | cons p specs ih =>
      intro fmts h
      rw [List.foldl_cons]
      by_cases hp : p = spec
      · subst hp
        cases hfmt : fmts p with
        | none =>
          rw [if_pos (by rfl), ih _ (.inr (by rw [Function.update_self]; rfl)), Function.update_self]
          rfl
        | some fmt =>
          rw [if_neg (by simp), ih _ (.inr (by rw [hfmt]; rfl)), hfmt]
      · have hrest : spec ∈ specs ∨ (fmts spec).isSome := h.imp_left fun h =>
          (List.mem_cons.mp h).resolve_left (Ne.symm hp)
        split_ifs with hnone
        · have hsame : Function.update fmts p (some option) spec = fmts spec :=
            Function.update_of_ne (Ne.symm hp) _ _
          rw [ih _ (by rwa [hsame]), hsame]
        · exact ih _ hrest
  exact hloop validSpecs fmts (.inl hspec)

/-- An option that is accepted. -/
theorem addFormatSpec_some {fmts fmts' : Overrides} {option : List Char}
    (h : addFormatSpec fmts option = some fmts') : ∃ spec option', option = spec :: ',' :: option' ∧
      fmts' = Function.update fmts spec (some option') := by
  unfold addFormatSpec at h
  split at h
  · split_ifs at h
    exact ⟨_, _, rfl, (Option.some.inj h).symm⟩
  · cases h

/-- **The formats of a command line**: the last `-F` for the action, or else the first `-f`. -/
theorem handleFormats_eq {opts : List FormatOption} {fmts : Overrides} (h : handleFormats opts = some fmts)
    {spec : Char} (hspec : spec ∈ validSpecs) : fmts spec = (lastOne spec opts).or (firstAll opts) := by
  induction opts using List.reverseRecOn generalizing fmts with
  | nil =>
    obtain rfl := Option.some.inj h
    rfl
  | append_singleton opts opt ih =>
    rw [handleFormats, List.foldlM_append] at h
    obtain ⟨fmts', hopts, hlast⟩ := Option.bind_eq_some_iff.mp h
    have happly : FormatOption.apply fmts' opt = some fmts := by simpa using hlast
    rw [lastOne_append, firstAll_append]
    have hold := ih hopts
    cases opt with
    | all option =>
      obtain rfl := Option.some.inj happly
      rw [setAllFormatSpecs_eq _ _ hspec, hold, Option.or_assoc]
      rfl
    | one option =>
      show fmts spec = ((FormatOption.one option).ofOne spec |>.or (lastOne spec opts)).or
        ((firstAll opts).or none)
      rw [Option.or_none, Option.or_assoc, ← hold]
      obtain ⟨spec', option', rfl, rfl⟩ := addFormatSpec_some happly
      rw [FormatOption.ofOne]
      split_ifs with hsame
      · rw [hsame, Function.update_self]
        rfl
      · rw [Function.update_of_ne (Ne.symm hsame)]
        rfl

/-- `*act`, of which there is always a format to be had. -/
def specOf (act : Act) : Char := Char.ofNat act.spec.toNat

theorem specOf_mem (act : Act) : specOf act ∈ validSpecs := by
  cases act <;> decide

/-! ## What is printed -/

/-- What is said of one action by the options of a command line. -/
theorem processFmt_eq {opts : List FormatOption} {fmts : Overrides} (h : handleFormats opts = some fmts)
    (act : Act) :
    match (lastOne (specOf act) opts).or (firstAll opts) with
    | none => ∀ env l, l.act = act → processFmtText env fmts l = processDefaultText env l
    | some fmt =>
      (∃ toks ending, (∀ tok ∈ toks, tok.Valid) ∧ ∀ env l, l.act = act →
        processFmtText env fmts l = (printAll env l toks).andThen (Ending.print ending)) ∧
      ∀ toks, (∀ tok ∈ toks, tok.Valid) → fmt = renderAll toks → ∀ env l, l.act = act →
        processFmtText env fmts l = printAll env l toks := by
  have hfmts := handleFormats_eq h (specOf_mem act)
  cases hfmt : (lastOne (specOf act) opts).or (firstAll opts) with
  | none =>
    intro env l hact
    rw [hfmt] at hfmts
    rw [processFmtText, hact, show fmts (Char.ofNat act.spec.toNat) = none from hfmts]
  | some fmt =>
    rw [hfmt] at hfmts
    have hformat : ∀ env l, l.act = act → processFmtText env fmts l = formatText env l .text fmt := by
      intro env l hact
      rw [processFmtText, hact, show fmts (Char.ofNat act.spec.toNat) = some fmt from hfmts]
    refine ⟨?_, fun toks htoks hrender env l hact => ?_⟩
    · obtain ⟨toks, ending, htoks, hprint⟩ := tokenized .text trivial fmt
      exact ⟨toks, ending, htoks, fun env l hact => (hformat env l hact).trans (hprint env l)⟩
    · have hall := formatText_renderAll env l htoks []
      rw [List.append_nil, ← hrender] at hall
      rw [hformat env l hact, hall]
      exact Printed.andThen_text_nil _

/-- The formats of the manual are tokens. -/
theorem valid_bodyFormat (l : Line) : ∀ tok ∈ bodyFormat l, tok.Valid := by
  have hpdu : ∀ tok ∈ pduFormat l, tok.Valid := by
    unfold pduFormat
    split_ifs
    · decide
    · decide
  have hrange : ∀ {toks : List Token}, (∀ tok ∈ toks, tok.Valid) →
      ∀ tok ∈ if l.bit.tSec ≠ 0 then rangeFormat else toks, tok.Valid := by
    intro toks htoks
    split_ifs
    · decide
    · exact htoks
  have hname : ∀ tok ∈ nameFormat, tok.Valid := by decide
  have herror : ∀ tok ∈ errorFormat, tok.Valid := by decide
  unfold bodyFormat
  cases l.act
  case R | C =>
    dsimp only
    by_cases hpc : l.bit.hasTc blkTcPc = true
    · rw [if_pos hpc]
      exact List.forall_mem_append.mpr ⟨hpdu, herror⟩
    · rw [if_neg hpc]
      exact List.forall_mem_append.mpr ⟨hrange (by decide), herror⟩
  case D | I | Q | B =>
    dsimp only
    by_cases hpc : l.bit.hasTc blkTcPc = true
    · rw [if_pos hpc]
      exact List.forall_mem_append.mpr ⟨List.forall_mem_append.mpr ⟨by decide, hpdu⟩, hname⟩
    · rw [if_neg hpc]
      exact List.forall_mem_append.mpr ⟨hrange (by decide), hname⟩
  case M | F | G | S => exact List.forall_mem_append.mpr ⟨hrange (by decide), hname⟩
  all_goals
    dsimp only
    decide

/-- **The default is what the manual says**: a line without an elapsed time, of an action other than a
remap, is printed as by a `-F` with the documented format. -/
theorem default_documented {fmts : Overrides} {opts : List FormatOption} (h : handleFormats opts = some fmts)
    (env : TextEnv) {l : Line} (hact : l.act ≠ .A) (helapsed : l.elapsed = noElapsed)
    (hsequence : l.bit.sequence.toNat < 2 ^ 31)
    (hfmt : (lastOne (specOf l.act) opts).or (firstAll opts) = some (renderAll (header ++ bodyFormat l))) :
    processFmtText env fmts l = processDefaultText env l := by
  have hvalid : ∀ tok ∈ header ++ bodyFormat l, tok.Valid :=
    List.forall_mem_append.mpr ⟨by decide, valid_bodyFormat l⟩
  have hdefault : processDefaultText env l = printAll env l (header ++ bodyFormat l) := by
    rw [printAll_append, printAll_header hsequence, printAll_bodyFormat hact helapsed]
    unfold processDefaultText
    split
    · exact absurd ‹_› hact
    · rfl
  have htokens := processFmt_eq h l.act
  rw [hfmt] at htokens
  rw [htokens.2 _ hvalid rfl env l rfl, hdefault]

/-! ### A format for completions -/

/-- `-f "%5T.%9t\n" -F "C,%D %2c %8s %5T.%9t %5p %2a %3d %S + %n [%e]\n"`. -/
def twoFormats : List FormatOption :=
  [.all (renderAll [.wide 'T' 5, .char '.', .wide 't' 9, .escape 'n']),
    .one ('C' :: ',' :: renderAll (header ++ (rangeFormat ++ errorFormat)))]

/-- Eight sectors that are read. -/
def readDone : Line where
  act := .C
  bit := ⟨0, 17, 3000000042, 2048, 4096, 0x10008, 77, 0x800001, 1, 0, 0, []⟩
  elapsed := noElapsed

def plainEnv : TextEnv where
  cpu := 1
  processName := fun _ => none
  printTime := fun _ => []
  pduP := List.replicate 4096 nul

theorem default_documented_completion : ∃ fmts, handleFormats twoFormats = some fmts ∧
    processFmtText plainEnv fmts readDone = processDefaultText plainEnv readDone := by
  obtain ⟨fmts, hfmts⟩ : ∃ fmts, handleFormats twoFormats = some fmts := ⟨_, rfl⟩
  refine ⟨fmts, hfmts, ?_⟩
  exact default_documented hfmts plainEnv (by decide) rfl (by decide) (by decide)

end Blktrace.Blkparse
