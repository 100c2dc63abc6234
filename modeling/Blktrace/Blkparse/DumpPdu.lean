import Mathlib.Data.List.Basic
import Mathlib.Tactic.Common
import Mathlib.Tactic.IntervalCases

/-!
# The text of `dump_pdu`

The payload of a packet command in hex, into a buffer of 4096 characters, up to where only zeroes follow.
Neither the buffer nor the block of zeroes is as long as a payload may be.
-/

namespace Blktrace.Blkparse

/-! ## The code -/

def nul : Char := Char.ofNat 0

/-- `char p[4096]`, and `len`. -/
structure PduText where
  p : List Char
  len : ℕ

/-- `"%02x"`. -/
def hex2 (b : UInt8) : List Char := [Nat.digitChar (b.toNat / 16), Nat.digitChar (b.toNat % 16)]

/-- `sprintf(p + len, text)`: the terminator is written too, or `none` where that is beyond the end. -/
def PduText.sprintf (out : PduText) (text : List Char) : Option PduText :=
  if out.len + text.length < out.p.length then
    some ⟨out.p.take out.len ++ text ++ nul :: out.p.drop (out.len + text.length + 1), out.len + text.length⟩
  else none

/-- `pdu_rest_is_zero`: `none` where more is compared than the block of zeroes has. -/
def pduRestIsZero (pdu : List UInt8) : Option Bool :=
  if pdu.length ≤ 4096 then some (pdu.all (· == 0)) else none

/-- The loop of `dump_pdu`, from byte `i` on. -/
def dumpPduFrom : ℕ → List UInt8 → PduText → Option PduText
  | _, [], out => some out
  | i, b :: rest, out => do
    let out ← if i = 0 then some out else out.sprintf [' ']
    let out ← out.sprintf (hex2 b)
    if b = 0 then
      if ← pduRestIsZero (b :: rest) then out.sprintf [' ', '.', '.'] else dumpPduFrom (i + 1) rest out
    else dumpPduFrom (i + 1) rest out

/-- The string in a buffer. -/
def cString (p : List Char) : List Char := p.takeWhile (· != nul)

/-- `dump_pdu` of a payload, with what the buffer had before: the string that it returns. -/
def dumpPduText (p : List Char) (pdu : List UInt8) : Option (List Char) :=
  (dumpPduFrom 0 pdu ⟨p, 0⟩).map fun out => cString out.p

/-! ## The text -/

/-- The first byte from which everything is zero. -/
def zerosFrom : List UInt8 → Option ℕ
  | [] => none
  | b :: rest => if (b :: rest).all (· == 0) then some 0 else (zerosFrom rest).map (· + 1)

/-- The bytes in hex, with spaces between them. -/
def hexText (bs : List UInt8) : List Char := [' '].intercalate (bs.map hex2)

/-- The bytes up to the first from which everything is zero, and `..` then. -/
def pduText (pdu : List UInt8) : List Char :=
  match zerosFrom pdu with
  | some k => hexText (pdu.take (k + 1)) ++ [' ', '.', '.']
  | none => hexText pdu

/-- The characters of the text, with the terminator: three for a byte, and three for `..`. -/
def pduTextSize (pdu : List UInt8) : ℕ :=
  match zerosFrom pdu with
  | some k => 3 * (k + 1) + 3
  | none => 3 * pdu.length

/-- The text is not too long for the buffer, and what comes from the first zero byte on not for the block. -/
structure PduFits (pdu : List UInt8) : Prop where
  text : pduTextSize pdu ≤ 4096
  zeros : (pdu.dropWhile (· != 0)).length ≤ 4096

/-- What the loop writes for the bytes after the first. -/
def tailText : List UInt8 → List Char
  | [] => []
  | b :: rest => ' ' :: hex2 b ++ if (b :: rest).all (· == 0) then [' ', '.', '.'] else tailText rest

theorem hexText_cons (b : UInt8) (bs : List UInt8) :
    hexText (b :: bs) = hex2 b ++ bs.flatMap fun b => ' ' :: hex2 b := by
  induction bs generalizing b with
  | nil => simp [hexText, List.intercalate]
  | cons c bs ih =>
    have h := ih c
    rw [hexText] at h ⊢
    rw [List.map_cons, List.map_cons, List.intercalate_cons_cons, ← List.map_cons, h]
    simp

theorem tailText_eq (bs : List UInt8) : tailText bs =
    match zerosFrom bs with
    | some k => ((bs.take (k + 1)).flatMap fun b => ' ' :: hex2 b) ++ [' ', '.', '.']
    | none => bs.flatMap fun b => ' ' :: hex2 b := by
  induction bs with
  | nil => rfl
  | cons b rest ih =>
    rw [tailText, zerosFrom]
    split_ifs with hzero
    · simp
    · rw [ih]
      cases zerosFrom rest with
      | none => simp
      | some k => simp

theorem pduText_cons (b : UInt8) (rest : List UInt8) : pduText (b :: rest) =
    hex2 b ++ if (b :: rest).all (· == 0) then [' ', '.', '.'] else tailText rest := by
  rw [pduText, zerosFrom, tailText_eq]
  split_ifs with hzero
  · simp [hexText_cons]
  · cases zerosFrom rest with
    | none => simp [hexText_cons]
    | some k => simp [hexText_cons]

theorem length_tailText (bs : List UInt8) : (tailText bs).length = pduTextSize bs := by
  induction bs with
  | nil => rfl
  | cons b rest ih =>
    rw [tailText, pduTextSize, zerosFrom, List.length_append, List.length_cons]
    split_ifs with hzero
    · rfl
    · rw [ih, pduTextSize]
      cases zerosFrom rest with
      | none => simp [hex2]; omega
      | some k => simp [hex2]; omega

/-! ## The buffer -/

/-- `p` has the text `t`, terminated, and `len` is its length. -/
structure PduText.Holds (out : PduText) (t : List Char) : Prop where
  len : out.len = t.length
  size : out.p.length = 4096
  text : ∃ tail, out.p = t ++ nul :: tail

/-- One `sprintf` after the text `t`. -/
theorem PduText.sprintf_holds {out : PduText} {t text : List Char} (hlen : out.len = t.length)
    (hsize : out.p.length = 4096) (htake : out.p.take t.length = t) (hroom : t.length + text.length < 4096) :
    ∃ out', out.sprintf text = some out' ∧ out'.Holds (t ++ text) := by
  refine ⟨_, if_pos (by rw [hlen, hsize]; exact hroom), ?_, ?_, ?_⟩
  · show out.len + text.length = _
    rw [hlen, List.length_append]
  · simp only [List.length_append, List.length_take, List.length_cons, List.length_drop, hsize, hlen]
    omega
  · rw [hlen, htake]
    exact ⟨_, rfl⟩

theorem PduText.sprintf_none {out : PduText} {text : List Char} (h : out.p.length ≤ out.len + text.length) :
    out.sprintf text = none :=
  if_neg (Nat.not_lt.mpr h)

theorem PduText.Holds.take {out : PduText} {t : List Char} (h : out.Holds t) : out.p.take t.length = t := by
  obtain ⟨tail, heq⟩ := h.text
  rw [heq, List.take_left]

theorem PduText.Holds.length_lt {out : PduText} {t : List Char} (h : out.Holds t) : t.length < 4096 := by
  obtain ⟨tail, heq⟩ := h.text
  rw [← h.size, heq, List.length_append, List.length_cons]
  omega

theorem PduText.Holds.sprintf {out : PduText} {t text : List Char} (h : out.Holds t)
    (hroom : t.length + text.length < 4096) : ∃ out', out.sprintf text = some out' ∧ out'.Holds (t ++ text) :=
  PduText.sprintf_holds h.len h.size h.take hroom

theorem PduText.Holds.full {out : PduText} {t text : List Char} (h : out.Holds t)
    (hfull : 4096 ≤ t.length + text.length) : out.sprintf text = none :=
  PduText.sprintf_none (by rw [h.size, h.len]; exact hfull)

/-! ## The loop -/

/-- What the bytes after the first give. -/
def restText (b : UInt8) (rest : List UInt8) : List Char :=
  if (b :: rest).all (· == 0) then [' ', '.', '.'] else tailText rest

/-- After `n` characters there is room for `text`, and the comparisons for `bs` stay in the block. -/
def Fits (n : ℕ) (text : List Char) (bs : List UInt8) : Prop :=
  n + text.length < 4096 ∧ (bs.dropWhile (· != 0)).length ≤ 4096

/-- `r` is the text, where it fits, and otherwise the loop goes out of bounds. -/
def Writes (r : Option PduText) (t text : List Char) (bs : List UInt8) : Prop :=
  (Fits t.length text bs → ∃ out, r = some out ∧ out.Holds (t ++ text)) ∧ (¬ Fits t.length text bs → r = none)

/-- What was written already counts as text. -/
theorem Writes.prepend {r : Option PduText} {t a text : List Char} {bs : List UInt8}
    (h : Writes r (t ++ a) text bs) : Writes r t (a ++ text) bs := by
  have hfits : Fits t.length (a ++ text) bs ↔ Fits (t ++ a).length text bs := by
    rw [Fits, Fits, List.length_append, List.length_append, Nat.add_assoc]
  rw [Writes, hfits, ← List.append_assoc]
  exact h

/-- What the loop does behind the two digits of a byte. -/
theorem writes_rest {b : UInt8} {rest : List UInt8} {out : PduText} {t : List Char} {i : ℕ} (hout : out.Holds t)
    (ih : Writes (dumpPduFrom (i + 1) rest out) t (tailText rest) rest) :
    Writes (if b = 0 then do
        if ← pduRestIsZero (b :: rest) then out.sprintf [' ', '.', '.'] else dumpPduFrom (i + 1) rest out
      else dumpPduFrom (i + 1) rest out) t (restText b rest) (b :: rest) := by
  by_cases hb : b = 0
  case neg =>
    have htext : restText b rest = tailText rest := if_neg (by simp [hb])
    have hfits : Fits t.length (restText b rest) (b :: rest) ↔ Fits t.length (tailText rest) rest := by
      simp [Fits, htext, hb]
    rw [if_neg hb, Writes, hfits, htext]
    exact ih
  case pos =>
    subst hb
    rw [if_pos rfl]
    by_cases hzeros : (0 :: rest : List UInt8).length ≤ 4096
    case neg =>
      have hnone : pduRestIsZero (0 :: rest) = none := if_neg hzeros
      rw [hnone]
      exact ⟨fun h => absurd h.2 (by simpa using hzeros), fun _ => rfl⟩
    case pos =>
      have hsome : pduRestIsZero (0 :: rest) = some ((0 :: rest : List UInt8).all (· == 0)) := if_pos hzeros
      have hshort : (rest.dropWhile (· != 0)).length ≤ 4096 :=
        Nat.le_trans (List.dropWhile_suffix _).length_le (Nat.le_trans (Nat.le_succ _) hzeros)
      rw [hsome]
      show Writes (if (0 :: rest : List UInt8).all (· == 0) = true then _ else _) _ _ _
      unfold restText
      split_ifs with hall
      · refine ⟨fun h => hout.sprintf h.1, fun h => hout.full ?_⟩
        by_contra hroom
        exact h ⟨Nat.not_le.mp hroom, by simpa using hzeros⟩
      · refine ⟨fun h => ih.1 ⟨h.1, hshort⟩, fun h => ih.2 fun hfits => h ⟨hfits.1, by simpa using hzeros⟩⟩

/-- **The loop** after the first byte: it writes the rest of the text just if that fits. -/
theorem dumpPduFrom_writes (bs : List UInt8) {i : ℕ} {out : PduText} {t : List Char} (hout : out.Holds t) :
    Writes (dumpPduFrom (i + 1) bs out) t (tailText bs) bs := by
  induction bs generalizing i out t with
  | nil =>
    refine ⟨fun _ => ⟨out, rfl, ?_⟩, fun h => absurd ⟨hout.length_lt, Nat.zero_le _⟩ h⟩
    rwa [tailText, List.append_nil]
  | cons b rest ih =>
    have hlong : (tailText (b :: rest)).length = 3 + (restText b rest).length := by
      simp [tailText, restText, hex2]
      omega
    have hrun : dumpPduFrom (i + 1) (b :: rest) out = (out.sprintf [' ']).bind fun out =>
        (out.sprintf (hex2 b)).bind fun out => if b = 0 then do
          if ← pduRestIsZero (b :: rest) then out.sprintf [' ', '.', '.'] else dumpPduFrom (i + 1 + 1) rest out
        else dumpPduFrom (i + 1 + 1) rest out := rfl
    by_cases hroom : t.length + 3 < 4096
    case pos =>
      obtain ⟨out₁, hspace, hout₁⟩ := hout.sprintf (show t.length + [' '].length < 4096 by simp; omega)
      obtain ⟨out₂, hdigits, hout₂⟩ := hout₁.sprintf (show _ + (hex2 b).length < 4096 by simp [hex2]; omega)
      have h := writes_rest (b := b) hout₂ (ih (i := i + 1) hout₂)
      rw [List.append_assoc] at h
      rw [hrun, hspace, Option.bind_some, hdigits]
      exact h.prepend
    case neg =>
      refine ⟨fun h => absurd h.1 (by omega), fun _ => ?_⟩
      by_cases hspace : t.length + 1 < 4096
      case pos =>
        obtain ⟨out₁, hwritten, hout₁⟩ := hout.sprintf (show t.length + [' '].length < 4096 from hspace)
        have hfull : out₁.sprintf (hex2 b) = none := hout₁.full (by simp [hex2]; omega)
        rw [hrun, hwritten, Option.bind_some, hfull]
        rfl
      case neg =>
        rw [hrun, hout.full (show 4096 ≤ t.length + [' '].length from Nat.not_lt.mp hspace)]
        rfl

/-! ## The whole payload -/

theorem digitChar_ne_nul {n : ℕ} (h : n < 16) : (Nat.digitChar n != nul) = true := by
  interval_cases n <;> rfl

theorem hex2_ne_nul (b : UInt8) : ∀ c ∈ hex2 b, (c != nul) = true := by
  have hb : b.toNat < 256 := b.toNat_lt
  intro c hc
  simp only [hex2, List.mem_cons, List.not_mem_nil, or_false] at hc
  obtain rfl | rfl := hc
  · exact digitChar_ne_nul (by omega)
  · exact digitChar_ne_nul (by omega)

theorem tailText_ne_nul (bs : List UInt8) : ∀ c ∈ tailText bs, (c != nul) = true := by
  induction bs with
  | nil => exact nofun
  | cons b rest ih =>
    intro c hc
    rw [tailText, List.cons_append, List.mem_cons, List.mem_append] at hc
    obtain rfl | hc | hc := hc
    · rfl
    · exact hex2_ne_nul b c hc
    · split_ifs at hc
      · simp only [List.mem_cons, List.not_mem_nil, or_false] at hc
        obtain rfl | rfl | rfl := hc <;> rfl
      · exact ih c hc

theorem pduText_ne_nul (pdu : List UInt8) : ∀ c ∈ pduText pdu, (c != nul) = true := by
  cases pdu with
  | nil => exact nofun
  | cons b rest =>
    intro c hc
    apply tailText_ne_nul (b :: rest)
    rw [pduText_cons] at hc
    exact List.mem_cons_of_mem _ hc

/-- A buffer that holds a text with no NUL reads as the text. -/
theorem PduText.Holds.cString {out : PduText} {t : List Char} (h : out.Holds t)
    (ht : ∀ c ∈ t, (c != nul) = true) : cString out.p = t := by
  obtain ⟨tail, heq⟩ := h.text
  rw [heq, Blkparse.cString, List.takeWhile_append_of_pos ht, List.takeWhile_cons_of_neg (by simp),
    List.append_nil]

theorem dumpPduFrom_zero {p : List Char} (b : UInt8) (rest : List UInt8) (hp : p.length = 4096) :
    Writes (dumpPduFrom 0 (b :: rest) ⟨p, 0⟩) [] (pduText (b :: rest)) (b :: rest) := by
  have hfirst : ∃ out, (⟨p, 0⟩ : PduText).sprintf (hex2 b) = some out ∧ out.Holds ([] ++ hex2 b) := by
    apply PduText.sprintf_holds rfl hp rfl
    simp [hex2]
  obtain ⟨out, hdigits, hout⟩ := hfirst
  have hrun : dumpPduFrom 0 (b :: rest) ⟨p, 0⟩ = ((⟨p, 0⟩ : PduText).sprintf (hex2 b)).bind fun out =>
      if b = 0 then do
        if ← pduRestIsZero (b :: rest) then out.sprintf [' ', '.', '.'] else dumpPduFrom (0 + 1) rest out
      else dumpPduFrom (0 + 1) rest out := rfl
  have h := writes_rest (b := b) hout (dumpPduFrom_writes rest (i := 0) hout)
  rw [hrun, hdigits, pduText_cons]
  exact h.prepend

theorem fits_pduText (b : UInt8) (rest : List UInt8) :
    Fits 0 (pduText (b :: rest)) (b :: rest) ↔ PduFits (b :: rest) := by
  have hsize : (pduText (b :: rest)).length + 1 = pduTextSize (b :: rest) := by
    rw [← length_tailText, pduText_cons]
    rfl
  constructor
  · rintro ⟨htext, hzeros⟩
    exact ⟨by omega, hzeros⟩
  · rintro ⟨htext, hzeros⟩
    exact ⟨by omega, hzeros⟩

theorem dumpPduText_none {p : List Char} {b : UInt8} {rest : List UInt8} (hp : p.length = 4096)
    (h : ¬ PduFits (b :: rest)) : dumpPduText p (b :: rest) = none := by
  rw [dumpPduText, (dumpPduFrom_zero b rest hp).2 fun hfits => h ((fits_pduText b rest).mp hfits)]
  rfl

/-- **`dump_pdu`** stays in the buffer and in the block of zeroes, and returns the text, just if both are large
enough for the payload. -/
theorem dumpPduText_iff {p : List Char} {pdu : List UInt8} (hp : p.length = 4096) (hpdu : pdu ≠ []) :
    dumpPduText p pdu = some (pduText pdu) ↔ PduFits pdu := by
  obtain ⟨b, rest, rfl⟩ := List.exists_cons_of_ne_nil hpdu
  constructor
  · intro h
    by_contra hlong
    rw [dumpPduText_none hp hlong] at h
    exact absurd h nofun
  · intro h
    obtain ⟨out, hrun, hout⟩ := (dumpPduFrom_zero b rest hp).1 ((fits_pduText b rest).mpr h)
    rw [dumpPduText, hrun, Option.map_some, hout.cString (pduText_ne_nul _)]
    rfl

/-- A command with zeroes at its end. -/
theorem dumpPduText_inquiry :
    dumpPduText (List.replicate 4096 nul) [0x12, 0, 0, 0, 36, 0, 0] = some (pduText [0x12, 0, 0, 0, 36, 0, 0]) := by
  apply (dumpPduText_iff List.length_replicate (List.cons_ne_nil _ _)).mpr
  exact ⟨by decide, by decide⟩

/-- 1366 bytes that are not zero. -/
theorem dumpPduText_overflow :
    dumpPduText (List.replicate 4096 nul) (List.replicate 1366 1) = none := by
  have hzeros : ∀ n : ℕ, zerosFrom (List.replicate n 1) = none := by
    intro n
    induction n with
    | zero => rfl
    | succ n ih =>
      rw [List.replicate_succ, zerosFrom, ih, if_neg (by simp)]
      rfl
  apply dumpPduText_none List.length_replicate
  rintro ⟨htext, -⟩
  rw [← List.replicate_succ] at htext
  simp only [pduTextSize, hzeros, List.length_replicate] at htext
  omega

end Blktrace.Blkparse
