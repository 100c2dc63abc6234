import Blktrace.Lib.Tallies

/-!
# `btt`: completions per second

`rstats.c`. A line comes out when a completion is the first of a later second, and the last one when the
accumulator is freed. A time is a rational number that is not negative, and the counters are natural numbers.
-/

namespace Blktrace.Btt

open Tallies

/-- `struct rstat`, and the lines of its two files: the second, `ios` and `nblks`. (In the second file the
blocks are turned into megabytes.) -/
structure Rstat where
  ios : ℕ := 0
  nblks : ℕ := 0
  baseSec : ℤ := -1
  rows : List (Row ℤ) := []

/-- `(long long)cur`. -/
def secOf (cur : ℚ≥0) : ℤ := ⌊cur⌋₊

namespace Rstat

/-- `rstat_emit`. -/
def emit (rsip : Rstat) (cur : ℚ≥0) : Rstat where
  ios := 0
  nblks := 0
  baseSec := secOf cur
  rows := rsip.rows ++ [⟨rsip.baseSec, rsip.ios, rsip.nblks⟩]

/-- `__add`. -/
def add (rsip : Rstat) (cur : ℚ≥0) (nblks : ℕ) : Rstat :=
  let rsip :=
    if rsip.baseSec < 0 then { rsip with baseSec := secOf cur }
    else if 1 ≤ secOf cur - rsip.baseSec then rsip.emit cur
    else rsip
  { rsip with ios := rsip.ios + 1, nblks := rsip.nblks + nblks }

end Rstat

/-- What `rstat_add` is given. The handle is that of a device, if it has one. -/
structure Completion where
  handle : Option UInt32
  cur : ℚ≥0
  nblks : ℕ

def Completion.sec (c : Completion) : ℤ := secOf c.cur

/-- The accumulators of the devices that have one, and `sys_info`, at `none`. -/
abbrev Rstats := Option UInt32 → Rstat

/-- `rstat_add`. -/
def rstatAdd (rs : Rstats) (c : Completion) : Rstats :=
  let rs := if c.handle ≠ none then Function.update rs c.handle ((rs c.handle).add c.cur c.nblks) else rs
  Function.update rs none ((rs none).add c.cur c.nblks)

/-- One completion after the other. -/
def rstatAdds (cs : List Completion) : Rstats := cs.foldl rstatAdd fun _ => {}

/-- The lines that are there after `rstat_free`. -/
def rstatRows (cs : List Completion) (lastTSeen : ℚ≥0) (handle : Option UInt32) : List (Row ℤ) :=
  ((rstatAdds cs handle).emit lastTSeen).rows

/-- An accumulator is for the completions of its device, and `sys_info` for all. -/
def Completion.Added (handle : Option UInt32) (c : Completion) : Prop := handle = none ∨ c.handle = handle

instance (handle : Option UInt32) (c : Completion) : Decidable (c.Added handle) :=
  inferInstanceAs (Decidable (_ ∨ _))

/-! ## One accumulator -/

namespace Rstat

theorem add_first (cur : ℚ≥0) (nblks : ℕ) : add {} cur nblks = ⟨1, nblks, secOf cur, []⟩ := by
  simp [add]

/-- A later second begins, and the line of the one before comes out. -/
theorem add_later {rsip : Rstat} (hpos : 0 ≤ rsip.baseSec) {cur : ℚ≥0} (hlt : rsip.baseSec < secOf cur)
    (nblks : ℕ) : rsip.add cur nblks =
      ⟨1, nblks, secOf cur, rsip.rows ++ [⟨rsip.baseSec, rsip.ios, rsip.nblks⟩]⟩ := by
  have hle : 1 ≤ secOf cur - rsip.baseSec := Int.sub_pos.mpr hlt
  simp [add, emit, not_lt.mpr hpos, hle]

theorem add_same {rsip : Rstat} (hpos : 0 ≤ rsip.baseSec) {cur : ℚ≥0} (heq : secOf cur = rsip.baseSec)
    (nblks : ℕ) : rsip.add cur nblks =
      ⟨rsip.ios + 1, rsip.nblks + nblks, rsip.baseSec, rsip.rows⟩ := by
  simp [add, not_lt.mpr hpos, heq]

/-- A second has begun, and the lines, with the one to come, have the completions so far. -/
structure Counts (rsip : Rstat) (cs : List Completion) : Prop where
  tallied : Tallied Completion.sec Completion.nblks (rsip.rows ++ [⟨rsip.baseSec, rsip.ios, rsip.nblks⟩]) cs
  base : ∃ c ∈ cs, c.sec = rsip.baseSec

/-- The first completion. -/
theorem counts_first (c : Completion) : Counts (add {} c.cur c.nblks) [c] := by
  rw [add_first]
  exact ⟨(Tallied.nil Completion.sec Completion.nblks).append_new nofun, c, List.mem_singleton_self c, rfl⟩

/-- A completion that does not come before the others. -/
theorem Counts.add {rsip : Rstat} {cs : List Completion} (h : Counts rsip cs) {c : Completion}
    (hlast : ∀ a ∈ cs, a.sec ≤ c.sec) : Counts (rsip.add c.cur c.nblks) (cs ++ [c]) := by
  obtain ⟨a, ha, hbase⟩ := h.base
  have hpos : 0 ≤ rsip.baseSec := by
    rw [← hbase]
    exact Int.natCast_nonneg _
  have hle : rsip.baseSec ≤ c.sec := hbase ▸ hlast a ha
  have hmem : c ∈ cs ++ [c] := List.mem_append_right _ (List.mem_singleton_self c)
  rcases hle.lt_or_eq with hlt | heq
  · rw [add_later hpos hlt]
    refine ⟨h.tallied.append_new fun row hrow => ?_, c, hmem, rfl⟩
    rcases List.mem_append.mp hrow with hrow | hrow
    · exact ((List.pairwise_append.mp h.tallied.sorted).2.2 row hrow _ (List.mem_singleton_self _)).trans hlt
    · rw [List.mem_singleton.mp hrow]
      exact hlt
  · rw [add_same hpos heq.symm]
    have htallied := h.tallied
    rw [heq] at htallied ⊢
    exact ⟨htallied.append_last, c, hmem, rfl⟩

theorem secOf_mono {a b : ℚ≥0} (h : a ≤ b) : secOf a ≤ secOf b := Nat.cast_le.mpr (Nat.floor_mono h)

/-- What an accumulator has after some completions: nothing yet, or all of them. -/
theorem counts_foldl {cs : List Completion} (h : cs.Pairwise fun a b => a.cur ≤ b.cur) :
    (cs = [] ∧ cs.foldl (fun rsip c => rsip.add c.cur c.nblks) ({} : Rstat) = {}) ∨
      Counts (cs.foldl (fun rsip c => rsip.add c.cur c.nblks) {}) cs := by
  induction cs using List.reverseRecOn with
  | nil => exact .inl ⟨rfl, rfl⟩
  | append_singleton cs c ih =>
    obtain ⟨hcs, -, hlast⟩ := List.pairwise_append.mp h
    rw [List.foldl_append, List.foldl_cons, List.foldl_nil]
    right
    rcases ih hcs with ⟨rfl, -⟩ | hcounts
    · exact counts_first c
    · exact hcounts.add fun a ha => secOf_mono (hlast a ha c (List.mem_singleton_self c))

/-- **One accumulator**: the lines and the one to come have all completions. -/
theorem tallied_foldl {cs : List Completion} (h : cs.Pairwise fun a b => a.cur ≤ b.cur) (lastTSeen : ℚ≥0) :
    Tallied Completion.sec Completion.nblks
      ((cs.foldl (fun rsip c => rsip.add c.cur c.nblks) ({} : Rstat)).emit lastTSeen).rows cs := by
  rcases counts_foldl h with ⟨rfl, -⟩ | hcounts
  · refine ⟨List.pairwise_singleton _ _, fun row hrow => ?_, nofun⟩
    rw [List.mem_singleton.mp hrow]
    rfl
  · exact hcounts.tallied

end Rstat

/-! ## All of them -/

/-- An accumulator takes no notice of a completion that it is not for. -/
theorem rstatAdd_apply (rs : Rstats) (c : Completion) (handle : Option UInt32) : rstatAdd rs c handle =
    if c.Added handle then (rs handle).add c.cur c.nblks else rs handle := by
  rw [rstatAdd]
  cases handle with
  | none =>
    rw [Function.update_self, if_pos (show c.Added none from .inl rfl)]
    split_ifs with hhandle
    · rw [Function.update_of_ne (Ne.symm hhandle)]
    · rfl
  | some device =>
    rw [Function.update_of_ne (Option.some_ne_none device)]
    by_cases hdevice : c.handle = some device
    · rw [if_pos (by rw [hdevice]; exact Option.some_ne_none device), hdevice, Function.update_self,
        if_pos (show c.Added (some device) from .inr hdevice)]
    · rw [if_neg (show ¬ c.Added (some device) from not_or.mpr ⟨Option.some_ne_none device, hdevice⟩)]
      split_ifs
      · rw [Function.update_of_ne (Ne.symm hdevice)]
      · rfl

theorem rstatAdds_eq (cs : List Completion) (handle : Option UInt32) : rstatAdds cs handle =
    (cs.filter fun c => c.Added handle).foldl (fun rsip c => rsip.add c.cur c.nblks) {} := by
  induction cs using List.reverseRecOn with
  | nil => rfl
  | append_singleton cs c ih =>
    have hstep : rstatAdds (cs ++ [c]) handle = rstatAdd (rstatAdds cs) c handle := by
      rw [rstatAdds, List.foldl_append]
      rfl
    rw [hstep, rstatAdd_apply, List.filter_append, List.foldl_append]
    by_cases hadded : c.Added handle
    · rw [if_pos hadded, List.filter_cons_of_pos (by simpa using hadded), ih]
      rfl
    · rw [if_neg hadded, List.filter_cons_of_neg (by simpa using hadded), ih]
      rfl

/-- **Completions per second**: the seconds of the lines go up, a line has the number of completions in its
second and their blocks, and each completion is in just one line. -/
theorem rstatRows_spec (cs : List Completion) (h : cs.Pairwise fun a b => a.cur ≤ b.cur) (lastTSeen : ℚ≥0)
    (handle : Option UInt32) :
    (rstatRows cs lastTSeen handle).Pairwise (fun a b => a.key < b.key) ∧
      (∀ row ∈ rstatRows cs lastTSeen handle,
        row.count = (cs.filter fun c => c.Added handle).countP (fun c => secOf c.cur = row.key) ∧
        row.weight =
          (((cs.filter fun c => c.Added handle).filter fun c => secOf c.cur = row.key).map Completion.nblks).sum) ∧
      (∀ c ∈ cs.filter fun c => c.Added handle,
        ∃! row, row ∈ rstatRows cs lastTSeen handle ∧ row.key = secOf c.cur) ∧
      ((rstatRows cs lastTSeen handle).map Row.count).sum = (cs.filter fun c => c.Added handle).length ∧
      ((rstatRows cs lastTSeen handle).map Row.weight).sum =
        ((cs.filter fun c => c.Added handle).map Completion.nblks).sum := by
  have htallied : Tallied Completion.sec Completion.nblks (rstatRows cs lastTSeen handle)
      (cs.filter fun c => c.Added handle) := by
    rw [rstatRows, rstatAdds_eq]
    exact Rstat.tallied_foldl (h.sublist List.filter_sublist) lastTSeen
  refine ⟨htallied.sorted, fun row hrow => ⟨?_, ?_⟩, fun c hc => htallied.once hc, htallied.sums⟩
  · exact congrArg Row.count (htallied.row_eq row hrow)
  · exact congrArg Row.weight (htallied.row_eq row hrow)

/-- Three completions, the last of them after some seconds. -/
theorem rstatRows_spec_three :
    ((rstatRows [⟨none, 1, 8⟩, ⟨none, 1, 16⟩, ⟨some 1, 4, 8⟩] 4 none).map Row.count).sum = 3 := by
  have hcur : List.Pairwise (fun a b : Completion => a.cur ≤ b.cur)
      [⟨none, 1, 8⟩, ⟨none, 1, 16⟩, ⟨some 1, 4, 8⟩] := by
    norm_num [List.pairwise_cons]
  exact (rstatRows_spec _ hcur 4 none).2.2.2.1

end Blktrace.Btt
