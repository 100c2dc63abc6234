import Mathlib.Data.List.Infix
import Mathlib.Tactic.Cases

/-!
# Frames whose head says how long they are

A stream of frames is cut anywhere. However it is cut, there is one longest prefix of whole frames
in what has come so far: whole frames with a rest behind them that holds none.
-/

/-- A head of fixed length, from which the length of the frame is read. -/
structure Framing (β : Type*) where
  head : ℕ
  size : List β → ℕ
  head_pos : 0 < head
  head_le : ∀ bs, head ≤ size bs
  size_append : ∀ {bs : List β} (cs : List β), head ≤ bs.length → size (bs ++ cs) = size bs

namespace Framing

variable {β : Type*} (F : Framing β)

/-- `n` whole frames, one after another. -/
inductive Whole : ℕ → List β → Prop
  | nil : Whole 0 []
  | cons {n : ℕ} {f bs : List β} (hf : F.size f = f.length) (h : Whole n bs) :
    Whole (n + 1) (f ++ bs)

/-- No whole frame stands in front. -/
def Short (bs : List β) : Prop := bs.length < F.head ∨ bs.length < F.size bs

/-- `a` is what the whole frames in front of `bs` come to, and they are `n`. -/
structure Longest (bs a : List β) (n : ℕ) : Prop where
  isPrefix : a <+: bs
  whole : F.Whole n a
  longest : ∀ m p, p <+: bs → F.Whole m p → p.length ≤ a.length ∧ m ≤ n

variable {F}

theorem Whole.append {m n : ℕ} {as bs : List β} (ha : F.Whole m as) (hb : F.Whole n bs) :
    F.Whole (m + n) (as ++ bs) := by
  induction ha with
  | nil => simpa using hb
  | cons hf _ ih =>
    rw [List.append_assoc, Nat.add_right_comm]
    exact .cons hf ih

theorem Whole.eq_nil {as : List β} (h : F.Whole 0 as) : as = [] := by
  cases h
  rfl

theorem Whole.single {f : List β} (hf : F.size f = f.length) : F.Whole 1 f := by
  simpa using Whole.cons hf .nil

theorem short_nil : F.Short [] := .inl F.head_pos

theorem head_le_length {f : List β} (hf : F.size f = f.length) : F.head ≤ f.length :=
  hf ▸ F.head_le f

/-- Two frames in front of the same bytes are the same. -/
theorem frame_unique {f g as bs : List β} (hf : F.size f = f.length) (hg : F.size g = g.length)
    (h : f ++ as = g ++ bs) : f = g ∧ as = bs := by
  have hlen : f.length = g.length := by
    have hfa := F.size_append as (head_le_length hf)
    have hgb := F.size_append bs (head_le_length hg)
    rw [← hf, ← hg, ← hfa, ← hgb, h]
  exact List.append_inj h hlen

/-- Where no whole frame stands, none begins. -/
theorem Short.not_frame {f bs : List β} (hs : F.Short (f ++ bs)) : F.size f ≠ f.length := by
  intro hf
  have hsize := F.size_append bs (head_le_length hf)
  have hhead := head_le_length hf
  rw [Short, hsize, hf, List.length_append] at hs
  omega

/-- **Whole frames and a rest**: the frames are the longest prefix of such. -/
theorem Whole.longest {n : ℕ} {as rest : List β} (h : F.Whole n as) (hs : F.Short rest) :
    F.Longest (as ++ rest) as n where
  isPrefix := List.prefix_append _ _
  whole := h
  longest := by
    intro m p hp hw
    induction hw generalizing n as with
    | nil => exact ⟨Nat.zero_le _, Nat.zero_le _⟩
    | @cons m f bs hf _ ih =>
      obtain ⟨tail, htail⟩ := hp
      rw [List.append_assoc] at htail
      cases h with
      | nil =>
        rw [List.nil_append] at htail
        rw [← htail] at hs
        exact absurd hf hs.not_frame
      | @cons n g cs hg hcs =>
        rw [List.append_assoc] at htail
        obtain ⟨rfl, hrest⟩ := frame_unique hf hg htail
        obtain ⟨hlen, hcount⟩ := ih hcs ⟨tail, hrest⟩
        rw [List.length_append, List.length_append]
        omega

/-- The prefix and its number of frames are determined. -/
theorem Longest.unique {bs as as' : List β} {n n' : ℕ} (h : F.Longest bs as n)
    (h' : F.Longest bs as' n') : as = as' ∧ n = n' := by
  obtain ⟨hle, hcount⟩ := h.longest n' as' h'.isPrefix h'.whole
  obtain ⟨hle', hcount'⟩ := h'.longest n as h.isPrefix h.whole
  refine ⟨?_, le_antisymm hcount' hcount⟩
  exact (List.prefix_of_prefix_length_le h.isPrefix h'.isPrefix hle').eq_of_length
    (le_antisymm hle' hle)

end Framing
