import Blktrace.Blkparse.FormatText

/-!
# The language of formats

A format is a list of tokens: characters, escapes, and fields with a width. `process_fmt` finds the
tokens of what is written of them, and prints one after the other; and every string is some tokens, with
an ending.
-/

namespace Blktrace.Blkparse

open Printf

namespace Printed

@[simp] theorem text_andThen (s s' : List Char) : (text s).andThen (text s') = text (s ++ s') := rfl

@[simp] theorem text_nil_andThen (r : Printed) : (text []).andThen r = r := by
  cases r <;> rfl

@[simp] theorem andThen_text_nil (r : Printed) : r.andThen (text []) = r := by
  cases r with
  | none => rfl
  | some r =>
    obtain ⟨s, exits⟩ := r
    cases exits with
    | true => rfl
    | false => simp [andThen, text]

theorem andThen_assoc (r₁ r₂ r₃ : Printed) :
    (r₁.andThen r₂).andThen r₃ = r₁.andThen (r₂.andThen r₃) := by
  cases r₁ with
  | none => rfl
  | some r₁ =>
    obtain ⟨s₁, exits₁⟩ := r₁
    cases exits₁ with
    | true => rfl
    | false =>
      cases r₂ with
      | none => rfl
      | some r₂ =>
        obtain ⟨s₂, exits₂⟩ := r₂
        cases exits₂ with
        | true => rfl
        | false =>
          cases r₃ with
          | none => rfl
          | some r₃ => simp [andThen]

/-- One after the other. -/
def all (rs : List Printed) : Printed := rs.foldr andThen (text [])

@[simp] theorem all_nil : all [] = text [] := rfl

@[simp] theorem all_cons (r : Printed) (rs : List Printed) : all (r :: rs) = r.andThen (all rs) := rfl

theorem all_append (rs rs' : List Printed) : all (rs ++ rs') = (all rs).andThen (all rs') := by
  induction rs with
  | nil => simp
  | cons r rs ih => rw [List.cons_append, all_cons, all_cons, ih, andThen_assoc]

end Printed

/-! ## Tokens -/

inductive Token
  | char (c : Char)
  | percent
  | escape (c : Char)
  | field (field : Char) (minus : Bool) (width : Option ℕ)
deriving DecidableEq

namespace Token

/-- How a token is written. -/
def render : Token → List Char
  | char c => [c]
  | percent => ['%', '%']
  | escape c => ['\\', c]
  | field c minus width => '%' :: (if minus then ['-'] else []) ++ (width.elim [] udec) ++ [c]

/-- A token that is found again where it is written. -/
def Valid : Token → Prop
  | char c => c ≠ '%' ∧ c ≠ '\\'
  | percent => True
  | escape c => (escaped c).isSome
  | field c minus width => c.isDigit = false ∧ (width = none → minus = false → c ≠ '%' ∧ c ≠ '-')

instance : DecidablePred Valid := fun tok => by
  cases tok
  all_goals
    unfold Valid
    infer_instance

/-- What is printed for a token. -/
def print (env : TextEnv) (l : Line) : Token → Printed
  | char c => .text [c]
  | percent => .text ['%']
  | escape c => .text (escaped c).toList
  | field c minus width => printFieldText env l c minus width.isSome (width.getD 0)

end Token

/-- What is written of a list of tokens. -/
def renderAll (toks : List Token) : List Char := toks.flatMap Token.render

/-- And printed. -/
def printAll (env : TextEnv) (l : Line) (toks : List Token) : Printed :=
  Printed.all (toks.map (Token.print env l))

section

variable (env : TextEnv) (l : Line)

/-- The digits of a width. -/
theorem formatText_digits (minus hasW : Bool) (width : ℕ) {ds : List Char}
    (hds : ∀ d ∈ ds, d.isDigit = true) (hne : ds ≠ []) (p : List Char) :
    formatText env l (.field minus hasW width) (ds ++ p) =
      formatText env l (.field minus true (Nat.ofDigitChars 10 ds width)) p := by
  induction ds generalizing hasW width with
  | nil => exact absurd rfl hne
  | cons d ds ih =>
    obtain ⟨hd, hds⟩ := List.forall_mem_cons.mp hds
    rw [List.cons_append, formatText, if_pos hd, Nat.ofDigitChars_cons]
    cases ds with
    | nil => rfl
    | cons d' ds => exact ih true _ hds (List.cons_ne_nil _ _)

/-- A field behind its width. -/
theorem formatText_field {c : Char} (hc : c.isDigit = false) (minus hasW : Bool) (width : ℕ) (p : List Char) :
    formatText env l (.field minus hasW width) (c :: p) =
      (printFieldText env l c minus hasW width).andThen (formatText env l .text p) := by
  rw [formatText, if_neg (by simp [hc])]

/-- A digit is none of the characters that mean something behind a `%`. -/
theorem ne_of_isDigit {d : Char} (hd : d.isDigit = true) : d ≠ '%' ∧ d ≠ '-' := by
  constructor
  · rintro rfl
    exact absurd hd (by decide)
  · rintro rfl
    exact absurd hd (by decide)

/-- **One token.** -/
theorem formatText_token {tok : Token} (htok : tok.Valid) (p : List Char) :
    formatText env l .text (tok.render ++ p) = (tok.print env l).andThen (formatText env l .text p) := by
  cases tok with
  | char c =>
    obtain ⟨hpercent, hescape⟩ := htok
    show formatText env l .text (c :: p) = _
    rw [formatText, if_neg hpercent, if_neg hescape]
    rfl
  | percent => rfl
  | escape c =>
    obtain ⟨e, he⟩ := Option.isSome_iff_exists.mp htok
    show formatText env l .text ('\\' :: c :: p) = _
    rw [formatText, if_neg (by decide), if_pos rfl, formatText, he]
    show _ = (Printed.text (escaped c).toList).andThen _
    rw [he]
    rfl
  | field c minus width =>
    obtain ⟨hc, hplain⟩ := htok
    have hpercent : ∀ q, formatText env l .text ('%' :: q) = formatText env l .percent q := fun q => by
      rw [formatText, if_pos rfl]
    simp only [Token.render, List.cons_append, List.append_assoc, List.nil_append]
    rw [hpercent, Token.print]
    cases minus with
    | true =>
      have hminus : ∀ q, formatText env l .percent ('-' :: q) = formatText env l (.field true false 0) q :=
        fun q => by rw [formatText, if_neg (by decide), if_pos rfl]
      rw [if_pos rfl, List.singleton_append, hminus]
      cases width with
      | none => exact formatText_field env l hc true false 0 p
      | some w =>
        rw [Option.elim_some, formatText_digits env l true false 0 (fun d hd => isDigit_of_mem_udec hd)
          (udec_ne_nil w), ofDigitChars_udec]
        exact formatText_field env l hc true true w p
    | false =>
      rw [if_neg Bool.false_ne_true, List.nil_append]
      cases width with
      | none =>
        obtain ⟨hne, hne'⟩ := hplain rfl rfl
        rw [Option.elim_none, List.nil_append, formatText, if_neg hne, if_neg hne', if_neg (by simp [hc])]
        rfl
      | some w =>
        -- the first digit is found behind the `%`, and the others behind it
        have hfirst : ∀ d q, d.isDigit = true → formatText env l .percent (d :: q) =
            formatText env l (.field false false 0) (d :: q) := by
          intro d q hd
          obtain ⟨hne, hne'⟩ := ne_of_isDigit hd
          rw [formatText, if_neg hne, if_neg hne', if_pos hd, formatText, if_pos hd, Nat.mul_zero, Nat.zero_add]
        have hdigits : formatText env l .percent (udec w ++ c :: p) =
            formatText env l (.field false false 0) (udec w ++ c :: p) := by
          cases hw : udec w with
          | nil => exact absurd hw (udec_ne_nil w)
          | cons d ds =>
            have hd : d ∈ udec w := by rw [hw]; exact List.mem_cons_self
            exact hfirst d _ (isDigit_of_mem_udec hd)
        rw [Option.elim_some, hdigits, formatText_digits env l false false 0
          (fun d hd => isDigit_of_mem_udec hd) (udec_ne_nil w), ofDigitChars_udec]
        exact formatText_field env l hc false true w p

/-- Tokens, and whatever follows them. -/
theorem formatText_renderAll {toks : List Token} (htoks : ∀ tok ∈ toks, tok.Valid) (p : List Char) :
    formatText env l .text (renderAll toks ++ p) =
      (printAll env l toks).andThen (formatText env l .text p) := by
  induction toks with
  | nil => simp [renderAll, printAll]
  | cons tok toks ih =>
    obtain ⟨htok, htoks⟩ := List.forall_mem_cons.mp htoks
    have hrender : renderAll (tok :: toks) = tok.render ++ renderAll toks := List.flatMap_cons ..
    rw [hrender, List.append_assoc, formatText_token env l htok, ih htoks, ← Printed.andThen_assoc]
    rfl

end

/-! ### Every string is a format -/

/-- How a format ends behind its tokens: with nothing, with a `%`, or with an escape that is none. -/
inductive Ending
  | done | percent | bad

def Ending.print : Ending → Printed
  | done => .text []
  | percent => .text ['%']
  | bad => some ([], true)

/-- A place that a format leads to. -/
def FmtPos.Reached : FmtPos → Prop
  | .field minus hasW width => (minus = true ∨ hasW = true) ∧ (hasW = false → width = 0)
  | _ => True

/-- From a place on there are tokens, whatever they print. -/
def Tokenized (pos : FmtPos) (p : List Char) : Prop :=
  ∃ toks ending, (∀ tok ∈ toks, tok.Valid) ∧
    ∀ env l, formatText env l pos p = (printAll env l toks).andThen (Ending.print ending)

theorem Tokenized.of_end {pos : FmtPos} {p : List Char} (ending : Ending)
    (h : ∀ env l, formatText env l pos p = ending.print) : Tokenized pos p := by
  refine ⟨[], ending, List.forall_mem_nil _, fun env l => ?_⟩
  rw [h]
  exact (Printed.text_nil_andThen _).symm

theorem Tokenized.cons {pos : FmtPos} {p q : List Char} (hrest : Tokenized .text q) (tok : Token)
    (htok : tok.Valid)
    (h : ∀ env l, formatText env l pos p = (tok.print env l).andThen (formatText env l .text q)) :
    Tokenized pos p := by
  obtain ⟨toks, ending, htoks, hprint⟩ := hrest
  refine ⟨tok :: toks, ending, List.forall_mem_cons.mpr ⟨htok, htoks⟩, fun env l => ?_⟩
  rw [h, hprint, ← Printed.andThen_assoc]
  rfl

theorem Tokenized.congr {pos pos' : FmtPos} {p q : List Char} (hrest : Tokenized pos' q)
    (h : ∀ env l, formatText env l pos p = formatText env l pos' q) : Tokenized pos p := by
  obtain ⟨toks, ending, htoks, hprint⟩ := hrest
  exact ⟨toks, ending, htoks, fun env l => (h env l).trans (hprint env l)⟩

/-- The loop of `process_fmt` from any place on. -/
theorem tokenized (pos : FmtPos) (hpos : pos.Reached) (p : List Char) : Tokenized pos p := by
  induction p generalizing pos with
  | nil =>
    cases pos with
    | text => exact .of_end .done fun _ _ => rfl
    | percent => exact .of_end .percent fun _ _ => rfl
    | escape => exact .of_end .bad fun _ _ => rfl
    | field minus hasW width => exact .of_end .done fun _ _ => rfl
  | cons c p ih =>
    have hrest : Tokenized .text p := ih .text trivial
    cases pos with
    | text =>
      by_cases hpercent : c = '%'
      · exact (ih .percent trivial).congr fun _ _ => by rw [formatText, if_pos hpercent]
      by_cases hescape : c = '\\'
      · exact (ih .escape trivial).congr fun _ _ => by
          rw [formatText, if_neg hpercent, if_pos hescape]
      · exact hrest.cons (.char c) ⟨hpercent, hescape⟩ fun _ _ => by
          rw [formatText, if_neg hpercent, if_neg hescape]
          rfl
    | percent =>
      by_cases hpercent : c = '%'
      · exact hrest.cons .percent trivial fun _ _ => by
          rw [formatText, if_pos hpercent]
          rfl
      by_cases hminus : c = '-'
      · exact (ih (.field true false 0) ⟨.inl rfl, fun _ => rfl⟩).congr fun _ _ => by
          rw [formatText, if_neg hpercent, if_pos hminus]
      by_cases hdigit : c.isDigit = true
      · exact (ih (.field false true (c.toNat - '0'.toNat)) ⟨.inr rfl, fun h => by cases h⟩).congr
          fun _ _ => by rw [formatText, if_neg hpercent, if_neg hminus, if_pos hdigit]
      · refine hrest.cons (.field c false none) ⟨by simpa using hdigit, fun _ _ => ⟨hpercent, hminus⟩⟩
          fun _ _ => ?_
        rw [formatText, if_neg hpercent, if_neg hminus, if_neg hdigit]
        rfl
    | escape =>
      cases hescaped : escaped c with
      | none => exact .of_end .bad fun _ _ => by rw [formatText, hescaped]; rfl
      | some e =>
        refine hrest.cons (.escape c) (by rw [Token.Valid, hescaped]; rfl) fun _ _ => ?_
        rw [formatText, hescaped, Token.print, hescaped]
        rfl
    | field minus hasW width =>
      by_cases hdigit : c.isDigit = true
      · exact (ih (.field minus true _) ⟨.inr rfl, fun h => by cases h⟩).congr fun _ _ => by
          rw [formatText, if_pos hdigit]
      obtain ⟨hreached, hzero⟩ := hpos
      have hc : c.isDigit = false := by simpa using hdigit
      cases hasW with
      | true =>
        exact hrest.cons (.field c minus (some width)) ⟨hc, fun h => by cases h⟩ fun env l =>
          formatText_field env l hc minus true width p
      | false =>
        have hminus : minus = true := hreached.resolve_right Bool.false_ne_true
        refine hrest.cons (.field c minus none) ⟨hc, fun _ h => ?_⟩ fun env l => ?_
        · rw [hminus] at h
          cases h
        · rw [formatText_field env l hc, hzero rfl]
          rfl

end Blktrace.Blkparse
