import Mathlib.Data.List.Basic

/-!
# Reports in sections

A section of a report writes lines, and may change the state that the report is about. It is not disturbed by
the sections before it if they keep all of the state that its lines depend on.
-/

namespace Sections

/-- What writes lines. -/
abbrev Printer (σ ω : Type*) := σ → σ × List ω

variable {σ τ ω α β κ : Type*}

/-! ## Sections made of others -/

def skip : Printer σ ω := fun s => (s, [])

/-- Lines about the state, which stays. -/
def write (lines : σ → List ω) : Printer σ ω := fun s => (s, lines s)

/-- Another state, and no lines. -/
def update (f : σ → σ) : Printer σ ω := fun s => (f s, [])

/-- Nothing where the condition does not hold. -/
def onlyIf (c : σ → Prop) [DecidablePred c] (p : Printer σ ω) : Printer σ ω :=
  fun s => if c s then p s else skip s

/-- One after the other. -/
def seq (p q : Printer σ ω) : Printer σ ω := fun s => ((q (p s).1).1, (p s).2 ++ (q (p s).1).2)

/-- A callback, for one after the other. -/
def each (f : α → Printer σ ω) : List α → Printer σ ω
  | [] => skip
  | a :: as => seq (f a) (each f as)

/-- With a state of its own, that is dropped at the end. -/
def withLocal (init : τ) (p : Printer (σ × τ) ω) : Printer σ ω := fun s => ((p (s, init)).1.1, (p (s, init)).2)

/-! ## What a section keeps -/

/-- What is in the view stays. -/
def Preserves (v : σ → β) (p : Printer σ ω) : Prop := ∀ s, v (p s).1 = v s

namespace Preserves

variable {v : σ → β} {p q : Printer σ ω}

theorem write (lines : σ → List ω) : Preserves v (write lines) := fun _ => rfl

theorem update {f : σ → σ} (h : ∀ s, v (f s) = v s) : Preserves v (update f : Printer σ ω) := h

theorem onlyIf {c : σ → Prop} [DecidablePred c] (h : Preserves v p) : Preserves v (onlyIf c p) := by
  intro s
  rw [Sections.onlyIf]
  split_ifs
  · exact h s
  · rfl

theorem seq (hp : Preserves v p) (hq : Preserves v q) : Preserves v (seq p q) := fun s => (hq _).trans (hp s)

theorem each {f : α → Printer σ ω} (h : ∀ a, Preserves v (f a)) (as : List α) : Preserves v (each f as) := by
  induction as with
  | nil => exact fun _ => rfl
  | cons a as ih => exact (h a).seq ih

/-- Only the state of its own changes. -/
theorem withLocal {init : τ} {p : Printer (σ × τ) ω} (h : Preserves Prod.fst p) :
    Preserves v (withLocal init p) := fun s => congrArg v (h (s, init))

end Preserves

/-! ## What a section looks at

A view of the state takes away from it. -/

/-- The view takes away nothing that is looked at: the lines are the same without it, and so is what
is in the view afterwards. -/
def SeesOnly (v : σ → σ) (p : Printer σ ω) : Prop :=
  ∀ s, (p (v s)).2 = (p s).2 ∧ v (p (v s)).1 = v (p s).1

namespace SeesOnly

variable {v w : σ → σ} {p q : Printer σ ω}

/-- States with the same view have the same lines, and the same view afterwards. -/
theorem congr (h : SeesOnly v p) {s s' : σ} (hv : v s = v s') : (p s).2 = (p s').2 ∧ v (p s).1 = v (p s').1 := by
  obtain ⟨hlines, hstate⟩ := h s
  obtain ⟨hlines', hstate'⟩ := h s'
  rw [hv] at hlines hstate
  exact ⟨hlines.symm.trans hlines', hstate.symm.trans hstate'⟩

theorem of_preserves (hkeep : Preserves v p) (hv : ∀ s, v (v s) = v s) (h : ∀ s, (p (v s)).2 = (p s).2) :
    SeesOnly v p := by
  intro s
  rw [hkeep, hkeep, hv]
  exact ⟨h s, rfl⟩

theorem write {lines : σ → List ω} (hv : ∀ s, v (v s) = v s) (h : ∀ s, lines (v s) = lines s) :
    SeesOnly v (write lines) := of_preserves (.write lines) hv h

theorem update {f : σ → σ} (h : ∀ s, v (f (v s)) = v (f s)) : SeesOnly v (update f : Printer σ ω) :=
  fun s => ⟨rfl, h s⟩

theorem onlyIf {c : σ → Prop} [DecidablePred c] (hc : ∀ s, c (v s) ↔ c s) (hv : ∀ s, v (v s) = v s)
    (h : SeesOnly v p) : SeesOnly v (onlyIf c p) := by
  intro s
  rw [Sections.onlyIf, Sections.onlyIf, if_congr (hc s) rfl rfl]
  split_ifs
  · exact h s
  · exact ⟨rfl, hv s⟩

theorem seq (hp : SeesOnly v p) (hq : SeesOnly v q) : SeesOnly v (seq p q) := by
  intro s
  obtain ⟨hlines, hstate⟩ := hp s
  obtain ⟨hlines', hstate'⟩ := hq.congr hstate
  exact ⟨congrArg₂ (· ++ ·) hlines hlines', hstate'⟩

theorem each {f : α → Printer σ ω} (hv : ∀ s, v (v s) = v s) (h : ∀ a, SeesOnly v (f a)) (as : List α) :
    SeesOnly v (each f as) := by
  induction as with
  | nil => exact fun s => ⟨rfl, hv s⟩
  | cons a as ih => exact (h a).seq ih

/-- What a change of the state makes anew is not looked at. -/
theorem seq_update {f : σ → σ} (hf : ∀ s, w (f (v s)) = w (f s)) (hp : SeesOnly w p) (s : σ) :
    (Sections.seq (Sections.update f) p (v s)).2 = (Sections.seq (Sections.update f) p s).2 := (hp.congr (hf s)).1

end SeesOnly

/-! ## Sections one after the other -/

section

variable (print : κ → Printer σ ω)

/-- The state after sections. -/
def after (ks : List κ) (s : σ) : σ := ks.foldl (fun s k => (print k s).1) s

/-- Sections, each with its lines. -/
def outputs : List κ → σ → List (κ × List ω)
  | [], _ => []
  | k :: ks, s => (k, (print k s).2) :: outputs ks (print k s).1

variable {print}

/-- **The lines of a section** are those it writes after the ones before it. -/
theorem mem_outputs {ks : List κ} {s : σ} {k : κ} {lines : List ω} : (k, lines) ∈ outputs print ks s ↔
    ∃ pre post, ks = pre ++ k :: post ∧ lines = (print k (after print pre s)).2 := by
  induction ks generalizing s with
  | nil => simp [outputs]
  | cons k' ks ih =>
    rw [outputs, List.mem_cons, ih, Prod.mk.injEq]
    constructor
    · rintro (⟨rfl, rfl⟩ | ⟨pre, post, rfl, rfl⟩)
      · exact ⟨[], ks, rfl, rfl⟩
      · exact ⟨k' :: pre, post, rfl, rfl⟩
    · rintro ⟨pre, post, hks, rfl⟩
      cases pre with
      | nil =>
        obtain ⟨rfl, rfl⟩ := List.cons.inj hks
        exact Or.inl ⟨rfl, rfl⟩
      | cons first pre =>
        obtain ⟨rfl, rfl⟩ := List.cons.inj hks
        exact Or.inr ⟨pre, post, rfl, rfl⟩

theorem after_preserves {v : σ → σ} {ks : List κ} (h : ∀ k ∈ ks, Preserves v (print k)) (s : σ) :
    v (after print ks s) = v s := by
  induction ks generalizing s with
  | nil => rfl
  | cons k ks ih =>
    rw [List.forall_mem_cons] at h
    exact (ih h.2 _).trans (h.1 s)

/-- **The frame rule**: a section is not disturbed by others that keep what it looks at. -/
theorem SeesOnly.undisturbed {v : σ → σ} {k : κ} (hk : SeesOnly v (print k)) {ks : List κ}
    (h : ∀ k' ∈ ks, Preserves v (print k')) (s : σ) : (print k (after print ks s)).2 = (print k s).2 :=
  (hk.congr (after_preserves h s)).1

end

end Sections
