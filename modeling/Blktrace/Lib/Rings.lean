import Mathlib.Data.List.Cycle
import Mathlib.Logic.Function.Basic

/-!
# Rings

Cells lie in memory so that each points to the next one, and that points back to it. Where this goes round, the
cells are a ring, and a ring is the same from whichever cell one looks at it. All that is ever done to rings is to
make two cells neighbours: two such changes put a cell into a ring, one takes it out.
-/

namespace Rings

variable {κ : Type*}

/-- Where the cells point. -/
@[ext] structure Links (κ : Type*) where
  next : κ → κ
  prev : κ → κ

namespace Links

/-- Two cells are neighbours. -/
def Joined (s : Links κ) (x y : κ) : Prop := s.next x = y ∧ s.prev y = x

/-- The cells of `c` are a ring. -/
def Ring (s : Links κ) (c : Cycle κ) : Prop := c.Nodup ∧ c.Chain s.Joined

/-- The two cells are made neighbours. -/
def join [DecidableEq κ] (x y : κ) (s : Links κ) : Links κ :=
  ⟨Function.update s.next x y, Function.update s.prev y x⟩

variable {s : Links κ} {x y e : κ} {l m : List κ}

theorem ring_cons : s.Ring ↑(x :: l) ↔ (x :: l).Nodup ∧ (x :: (l ++ [x])).IsChain s.Joined := Iff.rfl

/-- The ring as it looks from another of its cells. -/
theorem Ring.turn (h : s.Ring ↑(x :: (l ++ y :: m))) : s.Ring ↑(y :: (m ++ x :: l)) := by
  have hturn : ((y :: (m ++ x :: l) : List κ) : Cycle κ) = ↑(x :: (l ++ y :: m)) :=
    Cycle.coe_eq_coe.mpr (@List.isRotated_append κ (y :: m) (x :: l))
  rwa [hturn]

/-- Only the links of its cells make a ring. -/
theorem Ring.congr {s' : Links κ} {c : Cycle κ} (h : s.Ring c) (hnext : ∀ a ∈ c, s'.next a = s.next a)
    (hprev : ∀ a ∈ c, s'.prev a = s.prev a) : s'.Ring c := by
  refine ⟨h.1, ?_⟩
  induction c using Cycle.induction_on with
  | nil => exact Cycle.Chain.nil _
  | cons x l _ =>
    have hmem : ∀ a ∈ x :: (l ++ [x]), a ∈ ((x :: l : List κ) : Cycle κ) := by
      intro a ha
      rw [Cycle.mem_coe_iff]
      simpa [or_comm] using ha
    refine List.IsChain.imp_of_mem_imp (fun a b ha hb hjoined => ?_) ((Cycle.chain_coe_cons _ x l).mp h.2)
    exact ⟨(hnext a (hmem a ha)).trans hjoined.1, (hprev b (hmem b hb)).trans hjoined.2⟩

/-- From any cell of a ring one gets round it. -/
theorem Ring.at_mem {c : Cycle κ} (h : s.Ring c) (hx : x ∈ c) : ∃ l, c = ↑(x :: l) := by
  induction c using Cycle.induction_on with
  | nil => exact absurd hx (Cycle.notMem_nil x)
  | cons a l _ =>
    rcases List.mem_cons.mp (Cycle.mem_coe_iff.mp hx) with rfl | hl
    · exact ⟨l, rfl⟩
    · obtain ⟨l₁, l₂, rfl⟩ := List.append_of_mem hl
      exact ⟨l₂ ++ a :: l₁, Cycle.coe_eq_coe.mpr (@List.isRotated_append κ (a :: l₁) (x :: l₂))⟩

/-! ## What the links of a ring are -/

theorem Ring.next_eq (h : s.Ring ↑(x :: l)) : s.next x = l.headD x := by
  cases l with
  | nil => exact (List.isChain_pair.mp h.2).1
  | cons a l => exact (List.isChain_cons_cons.mp h.2).1.1

theorem Ring.prev_eq (h : s.Ring ↑(x :: l)) : s.prev x = l.getLastD x := by
  rcases List.eq_nil_or_concat l with rfl | ⟨l, a, rfl⟩
  · exact (List.isChain_pair.mp h.2).2
  · rw [List.concat_eq_append] at h ⊢
    rw [List.getLastD_concat]
    have hring := h.turn
    rw [List.nil_append] at hring
    exact (List.isChain_cons_cons.mp hring.2).1.2

theorem Ring.next_mid (h : s.Ring ↑(x :: (l ++ y :: m))) : s.next y = m.headD x := by
  rw [h.turn.next_eq]
  cases m <;> rfl

theorem Ring.prev_mid (h : s.Ring ↑(x :: (l ++ y :: m))) : s.prev y = l.getLastD x := by
  rw [h.turn.prev_eq, List.getLastD_eq_getLast?, List.getLast?_append, List.getLast?_cons,
    Option.some_or, Option.getD_some, List.getLastD_eq_getLast?]

theorem Ring.next_mem {c : Cycle κ} (h : s.Ring c) (hx : x ∈ c) : s.next x ∈ c := by
  obtain ⟨l, rfl⟩ := h.at_mem hx
  rw [h.next_eq, Cycle.mem_coe_iff]
  cases l with
  | nil => exact List.mem_cons_self
  | cons a l => exact List.mem_cons_of_mem x List.mem_cons_self

theorem Ring.prev_mem {c : Cycle κ} (h : s.Ring c) (hx : x ∈ c) : s.prev x ∈ c := by
  obtain ⟨l, rfl⟩ := h.at_mem hx
  rw [h.prev_eq, Cycle.mem_coe_iff]
  exact List.mem_of_getLast? (by rw [List.getLast?_cons, List.getLastD_eq_getLast?])

theorem getLastD_notMem_dropLast (h : (x :: l).Nodup) : l.getLastD x ∉ (x :: l).dropLast := by
  rcases List.eq_nil_or_concat l with rfl | ⟨l, a, rfl⟩
  · exact List.not_mem_nil
  · rw [List.concat_eq_append] at h ⊢
    rw [List.getLastD_concat, ← List.cons_append, List.dropLast_concat]
    rw [← List.cons_append, List.nodup_append] at h
    exact fun hmem => h.2.2 a hmem a (List.mem_singleton_self a) rfl

theorem getLast?_cons_eq : (x :: l).getLast? = some (l.getLastD x) := by
  rw [List.getLast?_cons, List.getLastD_eq_getLast?]

variable [DecidableEq κ]

/-! ## Two cells are made neighbours -/

theorem joined_join : (s.join x y).Joined x y :=
  ⟨Function.update_self .., Function.update_self ..⟩

theorem Joined.join {a b : κ} (h : s.Joined a b) (ha : a ≠ x) (hb : b ≠ y) : (s.join x y).Joined a b :=
  ⟨(Function.update_of_ne ha ..).trans h.1, (Function.update_of_ne hb ..).trans h.2⟩

/-- Cells in a row stay so, unless it is the link from `x` or the link back from `y` that they need. -/
theorem isChain_join (h : l.IsChain s.Joined) (hx : x ∉ l.dropLast) (hy : y ∉ l.tail) :
    l.IsChain (s.join x y).Joined := by
  induction l with
  | nil => exact .nil
  | cons a l ih =>
    cases l with
    | nil => exact .singleton a
    | cons b l =>
      obtain ⟨hjoined, hrest⟩ := List.isChain_cons_cons.mp h
      rw [List.dropLast_cons_cons, List.mem_cons, not_or] at hx
      rw [List.tail_cons, List.mem_cons, not_or] at hy
      refine List.isChain_cons_cons.mpr ⟨hjoined.join (Ne.symm hx.1) (Ne.symm hy.1), ih hrest hx.2 ?_⟩
      exact hy.2

/-- A ring that neither cell is in stays as it is. -/
theorem Ring.frame {c : Cycle κ} (h : s.Ring c) (hx : x ∉ c) (hy : y ∉ c) : (s.join x y).Ring c :=
  h.congr (fun _ ha => Function.update_of_ne (ne_of_mem_of_not_mem ha hx) ..)
    fun _ ha => Function.update_of_ne (ne_of_mem_of_not_mem ha hy) ..

/-! ## What is done to rings -/

/-- A cell comes between two others. -/
def add (e p n : κ) (s : Links κ) : Links κ := (s.join e n).join p e

/-- A cell is taken out from between its neighbours. -/
def remove (e : κ) (s : Links κ) : Links κ := s.join (s.prev e) (s.next e)

/-- A cell takes another's place. -/
def replace (e n : κ) (s : Links κ) : Links κ :=
  (s.join n (s.next e)).join ((s.join n (s.next e)).prev e) n

/-- The ring of `y`, all but this cell, comes into that of `x`, right behind it. -/
def splice (y x : κ) (s : Links κ) : Links κ := (s.join x (s.next y)).join (s.prev y) (s.next x)

theorem ring_self : (s.join x x).Ring ↑[x] :=
  ⟨List.nodup_singleton x, List.isChain_pair.mpr joined_join⟩

theorem join_comm {a b : κ} (ha : x ≠ a) (hb : y ≠ b) : (s.join x y).join a b = (s.join a b).join x y :=
  Links.ext (Function.update_comm ha ..) (Function.update_comm hb ..)

/-- Cells in a row come into a ring, behind one of its cells. -/
theorem Ring.add_row (h : s.Ring ↑(x :: l)) (hrow : (y :: m).IsChain s.Joined)
    (hnodup : (x :: (y :: m ++ l)).Nodup) :
    ((s.join x y).join (m.getLastD y) (s.next x)).Ring ↑(x :: (y :: m ++ l)) := by
  refine ⟨hnodup, ?_⟩
  obtain ⟨hx, hrest⟩ := List.nodup_cons.mp hnodup
  obtain ⟨hym, hl, hdisjoint⟩ := List.nodup_append'.mp hrest
  rw [List.mem_append, not_or] at hx
  obtain ⟨hxm, hxl⟩ := hx
  have hchain := ring_cons.mp h |>.2
  obtain ⟨r, hr⟩ : ∃ r, l ++ [x] = s.next x :: r := by
    rw [h.next_eq]
    cases l with
    | nil => exact ⟨[], rfl⟩
    | cons a l => exact ⟨l ++ [x], rfl⟩
  have hring : (l ++ [x]).Nodup := List.nodup_append_comm.mp (List.nodup_cons.mpr ⟨hxl, hl⟩)
  have hat : s.next x ∈ l ++ [x] := hr ▸ List.mem_cons_self
  have hapart : ∀ a ∈ y :: m, a ∉ l ++ [x] := fun a ha hmem => by
    rcases List.mem_append.mp hmem with hmem | hmem
    · exact hdisjoint ha hmem
    · exact hxm (List.mem_singleton.mp hmem ▸ ha)
  have hlast : m.getLastD y ∈ y :: m := List.mem_of_getLast? getLast?_cons_eq
  -- what was next to the cell stays a row, and so does the new one
  have hold : (l ++ [x]).IsChain ((s.join x y).join (m.getLastD y) (s.next x)).Joined := by
    refine isChain_join (isChain_join (List.isChain_of_isChain_cons hchain) ?_ ?_) ?_ ?_
    · rwa [List.dropLast_concat]
    · exact fun hmem => hapart y List.mem_cons_self (List.mem_of_mem_tail hmem)
    · exact fun hmem => hapart _ hlast (List.mem_of_mem_dropLast hmem)
    · rw [hr] at hring ⊢
      exact (List.nodup_cons.mp hring).1
  have hnew : (y :: m).IsChain ((s.join x y).join (m.getLastD y) (s.next x)).Joined := by
    refine isChain_join (isChain_join hrow ?_ ?_) ?_ ?_
    · exact fun hmem => hxm (List.mem_of_mem_dropLast hmem)
    · exact (List.nodup_cons.mp hym).1
    · exact getLastD_notMem_dropLast hym
    · exact fun hmem => hapart _ (List.mem_cons_of_mem y hmem) hat
  show (x :: (y :: m ++ l ++ [x])).IsChain _
  rw [List.append_assoc]
  refine List.isChain_cons_cons.mpr ⟨joined_join.join ?_ ?_, List.isChain_append.mpr ⟨hnew, hold, ?_⟩⟩
  · exact fun h => hxm (h ▸ hlast)
  · exact fun h => hapart y List.mem_cons_self (h ▸ hat)
  · intro a ha b hb
    rw [getLast?_cons_eq, Option.mem_some_iff] at ha
    rw [hr, List.head?_cons, Option.mem_some_iff] at hb
    rw [← ha, ← hb]
    exact joined_join

theorem Ring.add_after (h : s.Ring ↑(x :: l)) (he : e ∉ x :: l) : (s.add e x (s.next x)).Ring ↑(x :: e :: l) := by
  rw [List.mem_cons, not_or] at he
  have hne : s.next x ≠ e := by
    rw [h.next_eq]
    cases l with
    | nil => exact Ne.symm he.1
    | cons a l => exact (List.ne_of_not_mem_cons he.2).symm
  rw [add, join_comm he.1 hne]
  exact h.add_row (List.isChain_singleton e) (by simpa [and_assoc, he] using ⟨Ne.symm he.1, List.nodup_cons.mp h.1⟩)

theorem Ring.add_before (h : s.Ring ↑(x :: l)) (he : e ∉ x :: l) :
    (s.add e (s.prev x) x).Ring ↑(x :: (l ++ [e])) := by
  rcases List.eq_nil_or_concat l with rfl | ⟨l, p, rfl⟩
  · have hprev : s.prev x = x := h.prev_eq
    have hnext : s.next x = x := h.next_eq
    have hadd := h.add_after he
    rw [hnext] at hadd
    rwa [hprev]
  · rw [List.concat_eq_append] at h he ⊢
    have hadd := h.turn.add_after (e := e) (by simpa [or_comm, or_assoc, or_left_comm] using he)
    rw [h.turn.next_eq] at hadd
    rw [h.prev_eq, List.getLastD_concat, List.append_assoc]
    exact hadd.turn (l := [e])

/-- A row is closed to a ring, by a cell before it where there is one. -/
theorem isChain_close (hrow : (y :: m).IsChain s.Joined) (hnodup : (y :: m).Nodup) (hx : x ∉ m) :
    (y :: (m ++ [x])).IsChain (s.join (m.getLastD y) x).Joined := by
  rw [← List.cons_append]
  refine List.isChain_append.mpr ⟨isChain_join hrow (getLastD_notMem_dropLast hnodup) hx, .singleton x, ?_⟩
  intro a ha b hb
  rw [getLast?_cons_eq, Option.mem_some_iff] at ha
  rw [List.head?_cons, Option.mem_some_iff] at hb
  rw [← ha, ← hb]
  exact joined_join

theorem Ring.remove (h : s.Ring ↑(e :: l)) : (s.remove e).Ring ↑l := by
  cases l with
  | nil => exact ⟨List.nodup_nil, Cycle.Chain.nil _⟩
  | cons a l =>
    have hnodup : (a :: l).Nodup := (List.nodup_cons.mp h.1).2
    rw [Links.remove, h.next_eq, h.prev_eq, List.getLastD_cons]
    refine ⟨hnodup, isChain_close ?_ hnodup (List.nodup_cons.mp hnodup).1⟩
    exact (List.isChain_append.mp (List.isChain_of_isChain_cons h.2)).1

theorem Ring.remove_mid (h : s.Ring ↑(x :: (l ++ e :: m))) : (s.remove e).Ring ↑(x :: (l ++ m)) := by
  have hturn : ((x :: (l ++ m) : List κ) : Cycle κ) = ↑(m ++ x :: l) :=
    Cycle.coe_eq_coe.mpr (@List.isRotated_append κ (x :: l) m)
  rw [hturn]
  exact h.turn.remove

theorem Ring.replace (h : s.Ring ↑(x :: l)) (he : e ∉ x :: l) : (s.replace x e).Ring ↑(e :: l) := by
  rw [Links.replace, h.next_eq]
  cases l with
  | nil =>
    -- the old cell is alone, and is its own neighbour: its link back has just been overwritten
    rw [List.headD_nil, show (s.join e x).prev x = e from Function.update_self ..]
    exact ⟨List.nodup_singleton e, List.isChain_pair.mpr joined_join⟩
  | cons a l =>
    obtain ⟨hx, hnodup⟩ := List.nodup_cons.mp h.1
    rw [List.mem_cons, not_or] at he
    have hprev : (s.join e a).prev x = l.getLastD a := by
      rw [← List.getLastD_cons (a := x) (b := a), ← h.prev_eq]
      exact Function.update_of_ne (List.ne_of_not_mem_cons hx) ..
    rw [List.headD_cons, hprev]
    have hrow : (a :: l).IsChain (s.join e a).Joined :=
      isChain_join (List.isChain_append.mp (List.isChain_of_isChain_cons h.2)).1
        (fun hmem => he.2 (List.mem_of_mem_dropLast hmem)) (List.nodup_cons.mp hnodup).1
    refine ⟨List.nodup_cons.mpr ⟨he.2, hnodup⟩, List.isChain_cons_cons.mpr ⟨joined_join.join ?_ ?_, ?_⟩⟩
    · exact fun heq => he.2 (heq ▸ List.mem_of_getLast? getLast?_cons_eq)
    · exact fun heq => he.2 (heq ▸ List.mem_cons_self)
    · exact isChain_close hrow hnodup fun hmem => he.2 (List.mem_cons_of_mem a hmem)

theorem Ring.replace_map {c : Cycle κ} (h : s.Ring c) (hx : x ∈ c) (he : e ∉ c) :
    (s.replace x e).Ring (c.map fun a => if a = x then e else a) := by
  obtain ⟨l, rfl⟩ := h.at_mem hx
  have hl : l.map (fun a => if a = x then e else a) = l :=
    (List.map_congr_left fun a ha => if_neg (ne_of_mem_of_not_mem ha (List.nodup_cons.mp h.1).1)).trans l.map_id
  rw [Cycle.map_coe, List.map_cons, if_pos rfl, hl]
  exact h.replace fun hmem => he (Cycle.mem_coe_iff.mpr hmem)

theorem Ring.splice (hy : s.Ring ↑(y :: m)) (hx : s.Ring ↑(x :: l)) (hm : m ≠ [])
    (hdisjoint : (y :: m).Disjoint (x :: l)) : (s.splice y x).Ring ↑(x :: (m ++ l)) := by
  obtain ⟨a, m, rfl⟩ := List.exists_cons_of_ne_nil hm
  rw [Links.splice, hy.next_eq, hy.prev_eq, List.getLastD_cons]
  refine hx.add_row ?_ (List.nodup_middle.mp (List.nodup_append'.mpr ⟨(List.nodup_cons.mp hy.1).2, hx.1, ?_⟩))
  · exact (List.isChain_append.mp (List.isChain_of_isChain_cons hy.2)).1
  · exact fun c hc => hdisjoint (List.mem_cons_of_mem y hc)

/-! ## Other rings -/

section

variable {c d : Cycle κ}

theorem Ring.frame_add_after (hc : s.Ring c) (hd : s.Ring d) (hapart : ∀ a ∈ d, a ∉ c) (hx : x ∈ d)
    (he : e ∉ c) : (s.add e x (s.next x)).Ring c :=
  (hc.frame he (hapart _ (hd.next_mem hx))).frame (hapart x hx) he

theorem Ring.frame_add_before (hc : s.Ring c) (hd : s.Ring d) (hapart : ∀ a ∈ d, a ∉ c) (hx : x ∈ d)
    (he : e ∉ c) : (s.add e (s.prev x) x).Ring c :=
  (hc.frame he (hapart x hx)).frame (hapart _ (hd.prev_mem hx)) he

theorem Ring.frame_remove (hc : s.Ring c) (hd : s.Ring d) (hapart : ∀ a ∈ d, a ∉ c) (he : e ∈ d) :
    (s.remove e).Ring c :=
  hc.frame (hapart _ (hd.prev_mem he)) (hapart _ (hd.next_mem he))

theorem Ring.frame_replace (hc : s.Ring c) (hd : s.Ring d) (hapart : ∀ a ∈ d, a ∉ c) (hx : x ∈ d)
    (he : e ∉ c) : (s.replace x e).Ring c := by
  refine (hc.frame he (hapart _ (hd.next_mem hx))).frame ?_ he
  show Function.update s.prev (s.next x) e x ∉ c
  rw [Function.update_apply]
  split_ifs
  · exact he
  · exact hapart _ (hd.prev_mem hx)

theorem Ring.frame_splice (hc : s.Ring c) (hy : s.Ring ↑(y :: m)) (hx : s.Ring ↑(x :: l))
    (hym : ∀ a ∈ y :: m, a ∉ c) (hxl : ∀ a ∈ x :: l, a ∉ c) : (s.splice y x).Ring c :=
  have hy_mem : y ∈ ((y :: m : List κ) : Cycle κ) := Cycle.mem_coe_iff.mpr List.mem_cons_self
  have hx_mem : x ∈ ((x :: l : List κ) : Cycle κ) := Cycle.mem_coe_iff.mpr List.mem_cons_self
  (hc.frame (hxl x List.mem_cons_self) (hym _ (Cycle.mem_coe_iff.mp (hy.next_mem hy_mem)))).frame
    (hym _ (Cycle.mem_coe_iff.mp (hy.prev_mem hy_mem))) (hxl _ (Cycle.mem_coe_iff.mp (hx.next_mem hx_mem)))

end

end Links

end Rings
