import Mathlib.Data.List.Basic
import Mathlib.Data.List.Infix

/-!
# The search for the end of a line

A pattern that ends with the separator of the lines, and has no other, can only be found where a line ends
with it. So a search through lines passes over those that do not end with the pattern, and stops in the first
that does.
-/

namespace Lines

variable {α : Type*}

/-- Lines, each with its separator. -/
def unlines (sep : α) (lines : List (List α)) : List α := lines.flatMap fun line => line ++ [sep]

@[simp] theorem unlines_nil (sep : α) : unlines sep [] = [] := rfl

@[simp] theorem unlines_cons (sep : α) (line : List α) (lines : List (List α)) :
    unlines sep (line :: lines) = line ++ sep :: unlines sep lines := by
  rw [unlines, List.flatMap_cons, List.append_assoc]
  rfl

@[simp] theorem unlines_append (sep : α) (lines lines' : List (List α)) :
    unlines sep (lines ++ lines') = unlines sep lines ++ unlines sep lines' := List.flatMap_append

/-- A line has no separator in it, and the string does not end there. -/
def Plain (stop : α → Bool) (sep : α) (line : List α) : Prop := ∀ a ∈ line, a ≠ sep ∧ stop a = false

variable {stop : α → Bool} {sep : α} {body line rest text : List α}

theorem Plain.notMem (h : Plain stop sep line) : sep ∉ line := fun hmem => (h sep hmem).1 rfl

theorem Plain.append {line' : List α} (h : Plain stop sep line) (h' : Plain stop sep line') :
    Plain stop sep (line ++ line') := List.forall_mem_append.mpr ⟨h, h'⟩

theorem Plain.suffix {line' : List α} (h : Plain stop sep line) (hends : line' <:+ line) :
    Plain stop sep line' := fun a ha => h a (hends.subset ha)

variable [DecidableEq α]

/-- What is left of a string from the first place on where the pattern is found. The string is at its end
where `stop` says so. -/
def search (stop : α → Bool) (pat : List α) : List α → Option (List α)
  | [] => if pat = [] then some [] else none
  | a :: as => if pat.isPrefixOf (a :: as) then some (a :: as) else if stop a then none else search stop pat as

/-- The pattern is found at the beginning of a line just if it is the line. -/
theorem isPrefixOf_line (hbody : sep ∉ body) (hline : sep ∉ line) :
    (body ++ [sep]).isPrefixOf (line ++ sep :: rest) = true ↔ body = line := by
  rw [List.isPrefixOf_iff_prefix]
  constructor
  · rintro ⟨after, heq⟩
    rw [List.append_assoc, List.singleton_append] at heq
    -- the first separator is at the end of both
    have htake := congrArg (List.takeWhile (· ≠ sep)) heq
    have hfront : ∀ l after : List α, sep ∉ l → (l ++ sep :: after).takeWhile (· ≠ sep) = l := by
      intro l after hl
      rw [List.takeWhile_append_of_pos, List.takeWhile_cons_of_neg (by simp), List.append_nil]
      intro a ha
      have hne : a ≠ sep := fun hsame => hl (hsame ▸ ha)
      exact decide_eq_true hne
    rwa [hfront body after hbody, hfront line rest hline] at htake
  · rintro rfl
    exact ⟨rest, by rw [List.append_assoc, List.singleton_append]⟩

/-- **A line that does not end with the pattern** is passed over. -/
theorem search_line (hbody : sep ∉ body) (hline : Plain stop sep line) (hstop : stop sep = false)
    (hquiet : ¬ body <:+ line) :
    search stop (body ++ [sep]) (line ++ sep :: rest) = search stop (body ++ [sep]) rest := by
  induction line with
  | nil =>
    have hne : body ≠ [] := fun hnil => hquiet (hnil ▸ List.suffix_rfl)
    rw [List.nil_append, search, if_neg, if_neg (by simp [hstop])]
    have hpre : (body ++ [sep]).isPrefixOf (sep :: rest) = true ↔ body = [] :=
      isPrefixOf_line hbody List.not_mem_nil
    exact fun h => hne (hpre.mp h)
  | cons a line ih =>
    obtain ⟨ha, hline'⟩ := List.forall_mem_cons.mp hline
    have hne : body ≠ a :: line := fun heq => hquiet (heq ▸ List.suffix_rfl)
    have hquiet' : ¬ body <:+ line := fun hends => hquiet (hends.trans (List.suffix_cons a line))
    have hpre : (body ++ [sep]).isPrefixOf (a :: (line ++ sep :: rest)) = true ↔ body = a :: line :=
      isPrefixOf_line hbody hline.notMem
    rw [List.cons_append, search, if_neg fun h => hne (hpre.mp h), if_neg (by simp [ha.2])]
    exact ih hline' hquiet'

/-- **A line that ends with the pattern** is where it is found. -/
theorem search_found (hbody : sep ∉ body) {front : List α} (hline : Plain stop sep (front ++ body)) :
    search stop (body ++ [sep]) (front ++ (body ++ sep :: rest)) = some (body ++ sep :: rest) := by
  induction front with
  | nil =>
    have hpre : (body ++ [sep]).isPrefixOf (body ++ sep :: rest) = true := (isPrefixOf_line hbody hbody).mpr rfl
    rw [List.nil_append]
    cases hcase : body ++ sep :: rest with
    | nil => simp at hcase
    | cons a as =>
      rw [hcase] at hpre
      rw [search, if_pos hpre]
  | cons a front ih =>
    obtain ⟨ha, hline'⟩ := List.forall_mem_cons.mp hline
    have hpre : (body ++ [sep]).isPrefixOf (a :: (front ++ body ++ sep :: rest)) = true ↔
        body = a :: (front ++ body) := isPrefixOf_line hbody hline.notMem
    have hne : body ≠ a :: (front ++ body) := by
      intro heq
      have hlen := congrArg List.length heq
      simp only [List.length_cons, List.length_append] at hlen
      omega
    rw [List.append_assoc] at hpre
    rw [List.cons_append, search, if_neg fun h => hne (hpre.mp h), if_neg (by simp [ha.2])]
    exact ih hline'

/-- It is not found where there is no separator. -/
theorem search_unterminated (htext : sep ∉ text) : search stop (body ++ [sep]) text = none := by
  induction text with
  | nil => simp [search]
  | cons a text ih =>
    obtain ⟨ha, htext'⟩ := not_or.mp (List.mem_cons.not.mp htext)
    have hpre : (body ++ [sep]).isPrefixOf (a :: text) = false := by
      rw [Bool.eq_false_iff, Ne, List.isPrefixOf_iff_prefix]
      intro hbegins
      exact htext (hbegins.subset (List.mem_append_right _ List.mem_cons_self))
    rw [search, hpre, ih htext']
    simp

/-- **Lines that do not end with the pattern** are passed over. -/
theorem search_unlines (hbody : sep ∉ body) (hstop : stop sep = false) {lines : List (List α)}
    (hplain : ∀ line ∈ lines, Plain stop sep line) (hquiet : ∀ line ∈ lines, ¬ body <:+ line) :
    search stop (body ++ [sep]) (unlines sep lines ++ rest) = search stop (body ++ [sep]) rest := by
  induction lines with
  | nil => rfl
  | cons line lines ih =>
    obtain ⟨hline, hplain⟩ := List.forall_mem_cons.mp hplain
    obtain ⟨hend, hquiet⟩ := List.forall_mem_cons.mp hquiet
    rw [unlines_cons, List.append_assoc, List.cons_append, search_line hbody hline hstop hend]
    exact ih hplain hquiet

/-! ## Other patterns -/

section

variable {pat front : List α} {a : α}

/-- The pattern is found where the string begins with it. -/
theorem search_here (hne : pat ≠ []) : search stop pat (pat ++ rest) = some (pat ++ rest) := by
  have hpre : pat.isPrefixOf (pat ++ rest) = true :=
    List.isPrefixOf_iff_prefix.mpr (List.prefix_append pat rest)
  cases hcase : pat ++ rest with
  | nil => exact absurd (List.append_eq_nil_iff.mp hcase).1 hne
  | cons b bs =>
    rw [hcase] at hpre
    rw [search, if_pos hpre]

/-- A character that the pattern does not have parts what is before it from what is behind. -/
theorem search_part (ha : a ∉ pat) (hstop : stop a = false) (hfront : ∀ b ∈ front, stop b = false)
    (hnot : ¬ pat <:+: front) : search stop pat (front ++ a :: rest) = search stop pat rest := by
  have hcut : ∀ u : List α, ¬ pat <:+: u → pat.isPrefixOf (u ++ a :: rest) = false := by
    intro u hu
    rw [Bool.eq_false_iff, Ne, List.isPrefixOf_iff_prefix]
    intro hbegins
    rcases le_or_gt pat.length u.length with hle | hlt
    · exact hu (List.prefix_of_prefix_length_le hbegins (List.prefix_append u _) hle).isInfix
    · have hlong : u ++ [a] <+: pat := by
        refine List.prefix_of_prefix_length_le ⟨rest, ?_⟩ hbegins ?_
        · rw [List.append_assoc, List.singleton_append]
        · rw [List.length_append, List.length_singleton]
          omega
      exact ha (hlong.subset (List.mem_append_right _ List.mem_cons_self))
  induction front with
  | nil =>
    have hpre := hcut [] hnot
    rw [List.nil_append] at hpre ⊢
    rw [search, hpre, hstop]
    simp
  | cons b front ih =>
    obtain ⟨hb, hfront⟩ := List.forall_mem_cons.mp hfront
    have hpre := hcut (b :: front) hnot
    rw [List.cons_append] at hpre ⊢
    rw [search, hpre, hb]
    exact ih hfront fun hinside => hnot (hinside.trans (List.suffix_cons b front).isInfix)

/-- What the pattern does not begin with is passed over. -/
theorem search_skip (hfront : ∀ b ∈ front, b ≠ a ∧ stop b = false) :
    search stop (a :: pat) (front ++ rest) = search stop (a :: pat) rest := by
  induction front with
  | nil => rfl
  | cons b front ih =>
    obtain ⟨⟨hne, hb⟩, hfront⟩ := List.forall_mem_cons.mp hfront
    have hpre : (a :: pat).isPrefixOf (b :: (front ++ rest)) = false := by
      rw [Bool.eq_false_iff, Ne, List.isPrefixOf_iff_prefix, List.cons_prefix_cons]
      exact fun h => hne h.1.symm
    rw [List.cons_append, search, hpre, hb]
    exact ih hfront

end

/-- What is found is no longer than what was searched. -/
theorem length_search {pat found : List α} (h : search stop pat text = some found) :
    found.length ≤ text.length := by
  induction text with
  | nil =>
    rw [search] at h
    split_ifs at h
    obtain rfl := Option.some.inj h
    exact le_refl _
  | cons a text ih =>
    rw [search] at h
    split_ifs at h
    · obtain rfl := Option.some.inj h
      exact le_refl _
    · exact (ih h).trans (Nat.le_succ _)

end Lines
