import Mathlib.Data.List.TakeWhile
import Mathlib.Logic.Function.Basic
import Mathlib.Tactic.Cases

/-!
# `btreplay.c`: device maps

`read_map_devs` enters the addresses of its own arrays, not what it has read into them. All entries of a
file are therefore one and the same, and when `map_dev` looks at them the arrays are long gone: what is
found in their place is `later`, of which nothing is known.

A file is its bytes. That memory runs out is not modelled.
-/

namespace Blktrace.Btreplay

/-! ## Text -/

/-- `isspace`. -/
def isSpace (c : UInt8) : Bool := c == 0x20 || (decide (0x09 ≤ c) && decide (c ≤ 0x0d))

/-- The words that `%s` takes off a text, one after the other. -/
def words (text : List UInt8) : List (List UInt8) := (text.splitOnP isSpace).filter (· ≠ [])

/-- The string that an array holds. -/
def cString (bytes : List UInt8) : List UInt8 := bytes.takeWhile (· ≠ 0)

/-! ## The maps -/

/-- `from_dev` and `to_dev` of each call of `read_map_devs`. -/
structure Arrays where
  fromDev : ℕ → List UInt8 := fun _ => []
  toDev : ℕ → List UInt8 := fun _ => []

/-- `struct map_dev`. A pointer is the call whose array it points to. -/
structure MapDev where
  fromDev : ℕ
  toDev : ℕ
deriving DecidableEq, Repr

/-- `map_devs`, what the arrays hold, and how many calls there were. -/
structure Maps where
  mapDevs : List MapDev := []
  mem : Arrays := {}
  calls : ℕ := 0

/-- The word and a zero behind it fit the array. -/
def fitsArray (word : List UInt8) : Bool := decide (word.length < 256)

/-- The loop of `read_map_devs`, `none` where `fscanf` writes behind an array. -/
def readMapLoop (s : Maps) : List (List UInt8) → Option Maps
  | [] => some s
  | [w] =>
    if fitsArray w then
      some { s with mem := { s.mem with fromDev := Function.update s.mem.fromDev s.calls w } }
    else none
  | w :: w' :: ws =>
    if fitsArray w && fitsArray w' then
      readMapLoop
        { s with
          mapDevs := s.mapDevs ++ [⟨s.calls, s.calls⟩]
          mem :=
            { fromDev := Function.update s.mem.fromDev s.calls w
              toDev := Function.update s.mem.toDev s.calls w' } } ws
    else none

/-- `read_map_devs`. -/
def readMapDevs (s : Maps) (file : List UInt8) : Option Maps :=
  (readMapLoop s (words file)).map fun s => { s with calls := s.calls + 1 }

/-- The files of all `-M`. -/
def readMaps (files : List (List UInt8)) : Option Maps := files.foldlM readMapDevs {}

/-- `map_dev`, with what it returns a pointer to. -/
def mapDev (mem : Arrays) (mapDevs : List MapDev) (fromDev : List UInt8) : List UInt8 :=
  match mapDevs.find? fun mdp => cString (mem.fromDev mdp.fromDev) = fromDev with
  | some mdp => cString (mem.toDev mdp.toDev)
  | none => fromDev

/-! ## What the maps say -/

/-- The pairs of a file. -/
def pairs : List (List UInt8) → List (List UInt8 × List UInt8)
  | w :: w' :: ws => (cString w, cString w') :: pairs ws
  | _ => []

/-- The name that the first pair of a name maps it to. -/
def mapped (ps : List (List UInt8 × List UInt8)) (name : List UInt8) : List UInt8 :=
  ((ps.find? fun p => p.1 = name).map Prod.snd).getD name

/-- Every device is mapped as the files say, with `later` where the arrays were. -/
def MapsRight (later : Arrays) (files : List (List UInt8)) : Prop :=
  ∃ s, readMaps files = some s ∧
    ∀ name, mapDev later s.mapDevs name = mapped (files.flatMap fun file => pairs (words file)) name

/-- No file has a pair in it, nor a name that is too long. -/
def NoPairs (files : List (List UInt8)) : Prop :=
  ∀ file ∈ files, pairs (words file) = [] ∧ ∀ w ∈ words file, fitsArray w = true

/-! ## Reading -/

/-- **A file** has an entry made for each of its pairs, unless a name is too long. -/
theorem readMapLoop_spec (s : Maps) (ws : List (List UInt8)) :
    match readMapLoop s ws with
    | some s' => (∀ w ∈ ws, fitsArray w = true) ∧
        s'.mapDevs.length = s.mapDevs.length + (pairs ws).length
    | none => ∃ w ∈ ws, fitsArray w = false := by
  induction ws using pairs.induct generalizing s with
  | case1 w w' ws ih =>
    rw [readMapLoop]
    cases hw : fitsArray w with
    | false => exact ⟨w, List.mem_cons_self, hw⟩
    | true =>
      cases hw' : fitsArray w' with
      | false => exact ⟨w', List.mem_cons_of_mem _ List.mem_cons_self, hw'⟩
      | true =>
        rw [if_pos (by rfl)]
        have hrest := ih { s with
          mapDevs := s.mapDevs ++ [⟨s.calls, s.calls⟩]
          mem :=
            { fromDev := Function.update s.mem.fromDev s.calls w
              toDev := Function.update s.mem.toDev s.calls w' } }
        split at hrest
        · obtain ⟨hall, hlen⟩ := hrest
          refine ⟨List.forall_mem_cons.mpr ⟨hw, List.forall_mem_cons.mpr ⟨hw', hall⟩⟩, ?_⟩
          rw [hlen, List.length_append, pairs, List.length_singleton, List.length_cons]
          exact (Nat.add_right_comm _ _ _).trans (Nat.add_assoc _ _ _)
        · obtain ⟨v, hv, hlong⟩ := hrest
          exact ⟨v, List.mem_cons_of_mem _ (List.mem_cons_of_mem _ hv), hlong⟩
  | case2 ws hshort =>
    match ws with
    | [] => exact ⟨nofun, rfl⟩
    | [w] =>
      rw [readMapLoop]
      cases hw : fitsArray w with
      | false => exact ⟨w, List.mem_cons_self, hw⟩
      | true => exact ⟨List.forall_mem_singleton.mpr hw, rfl⟩
    | w :: w' :: ws => exact absurd rfl (hshort w w' ws)

/-- All files, from a state on. -/
theorem foldlM_readMapDevs {files : List (List UInt8)} {s s' : Maps}
    (h : files.foldlM readMapDevs s = some s') :
    (∀ file ∈ files, ∀ w ∈ words file, fitsArray w = true) ∧
      s'.mapDevs.length =
        s.mapDevs.length + (files.flatMap fun file => pairs (words file)).length := by
  induction files generalizing s with
  | nil =>
    obtain rfl := Option.some.inj h
    exact ⟨nofun, rfl⟩
  | cons file files ih =>
    rw [List.foldlM_cons] at h
    obtain ⟨s₁, hs₁, hrest⟩ := Option.bind_eq_some_iff.mp h
    obtain ⟨s₂, hs₂, rfl⟩ := Option.map_eq_some_iff.mp hs₁
    have hfile := readMapLoop_spec s (words file)
    rw [hs₂] at hfile
    obtain ⟨hall, hlen⟩ := ih hrest
    refine ⟨List.forall_mem_cons.mpr ⟨hfile.1, hall⟩, ?_⟩
    rw [hlen, List.flatMap_cons, List.length_append, ← Nat.add_assoc]
    exact congrArg (· + _) hfile.2

/-- Names that are not too long are read to the end. -/
theorem foldlM_readMapDevs_isSome {files : List (List UInt8)} (s : Maps)
    (h : ∀ file ∈ files, ∀ w ∈ words file, fitsArray w = true) :
    ∃ s', files.foldlM readMapDevs s = some s' := by
  induction files generalizing s with
  | nil => exact ⟨s, rfl⟩
  | cons file files ih =>
    obtain ⟨hfile, hfiles⟩ := List.forall_mem_cons.mp h
    have hread := readMapLoop_spec s (words file)
    cases hloop : readMapLoop s (words file) with
    | none =>
      rw [hloop] at hread
      obtain ⟨w, hw, hlong⟩ := hread
      exact absurd (hfile w hw) (by rw [hlong]; exact Bool.false_ne_true)
    | some s₁ =>
      obtain ⟨s', hs'⟩ := ih hfiles (s := { s₁ with calls := s₁.calls + 1 })
      refine ⟨s', ?_⟩
      rw [List.foldlM_cons, readMapDevs, hloop]
      exact hs'

/-! ## Looking up -/

theorem mapDev_nil (mem : Arrays) (name : List UInt8) : mapDev mem [] name = name := rfl

theorem mapped_nil (name : List UInt8) : mapped [] name = name := rfl

/-- Where something stands in all arrays, it is what the first entry says. -/
theorem mapDev_cons (mdp : MapDev) (mdps : List MapDev) (mem : Arrays) :
    mapDev mem (mdp :: mdps) (cString (mem.fromDev mdp.fromDev)) = cString (mem.toDev mdp.toDev) := by
  rw [mapDev, List.find?_cons_of_pos (by simp)]

theorem mapped_cons (p : List UInt8 × List UInt8) (ps : List (List UInt8 × List UInt8)) :
    mapped (p :: ps) p.1 = p.2 := by
  rw [mapped, List.find?_cons_of_pos (by simp)]
  rfl

theorem cString_cString (bytes : List UInt8) : cString (cString bytes) = cString bytes :=
  List.takeWhile_idem

/-- The first name of a pair is a string. -/
theorem cString_of_mem_pairs {ws : List (List UInt8)} {p : List UInt8 × List UInt8} (h : p ∈ pairs ws) :
    cString p.1 = p.1 := by
  induction ws using pairs.induct with
  | case1 w w' ws ih =>
    rcases List.mem_cons.mp h with rfl | h
    · exact cString_cString w
    · exact ih h
  | case2 ws hshort =>
    have hnil : pairs ws = [] := by
      unfold pairs
      split
      · exact absurd rfl (hshort _ _ _)
      · rfl
    rw [hnil] at h
    nomatch h

/-- **The maps are right**, whatever stands where the arrays were, just if there are none. -/
theorem maps_iff (files : List (List UInt8)) :
    (∀ later, MapsRight later files) ↔ NoPairs files := by
  constructor
  · intro hright
    obtain ⟨s, hs, -⟩ := hright {}
    obtain ⟨hfits, hlen⟩ := foldlM_readMapDevs hs
    suffices hnil : files.flatMap (fun file => pairs (words file)) = [] from
      fun file hfile => ⟨List.flatMap_eq_nil_iff.mp hnil file hfile, hfits file hfile⟩
    cases hpairs : files.flatMap fun file => pairs (words file) with
    | nil => rfl
    | cons p ps =>
      have hp : cString p.1 = p.1 := by
        have hmem : p ∈ files.flatMap fun file => pairs (words file) := hpairs ▸ List.mem_cons_self
        obtain ⟨file, -, hp⟩ := List.mem_flatMap.mp hmem
        exact cString_of_mem_pairs hp
      -- the first name stands in every `from_dev`, and another than it is mapped to in every `to_dev`
      let other : List UInt8 := if p.2 = [] then [1] else []
      obtain ⟨s', hs', hall⟩ := hright ⟨fun _ => p.1, fun _ => other⟩
      obtain rfl := Option.some.inj (hs.symm.trans hs')
      cases hdevs : s.mapDevs with
      | nil =>
        rw [hdevs, hpairs] at hlen
        exact absurd hlen (by simp)
      | cons mdp mdps =>
        have hfirst := mapDev_cons mdp mdps ⟨fun _ => p.1, fun _ => other⟩
        dsimp only at hfirst
        rw [hp, ← hdevs, hall, hpairs, mapped_cons] at hfirst
        revert hfirst
        by_cases hempty : p.2 = []
        · simp [other, hempty, cString]
        · simp [other, hempty, cString]
  · intro hnone later
    obtain ⟨s, hs⟩ := foldlM_readMapDevs_isSome {} fun file hfile => (hnone file hfile).2
    obtain ⟨-, hlen⟩ := foldlM_readMapDevs hs
    have hnil : files.flatMap (fun file => pairs (words file)) = [] :=
      List.flatMap_eq_nil_iff.mpr fun file hfile => (hnone file hfile).1
    refine ⟨s, hs, fun name => ?_⟩
    rw [hnil] at hlen ⊢
    rw [List.eq_nil_of_length_eq_zero hlen]
    exact (mapDev_nil later name).trans (mapped_nil name).symm

/-- The entries of one file say the same of all names that they map at all. -/
theorem mapDev_replicate (n : ℕ) (mdp : MapDev) (mem : Arrays) (name : List UInt8) :
    mapDev mem (List.replicate n mdp) name = name ∨ name = cString (mem.fromDev mdp.fromDev) := by
  rw [or_iff_not_imp_right]
  intro hne
  rw [mapDev, List.find?_eq_none.mpr]
  intro m hm
  rw [List.eq_of_mem_replicate hm]
  simpa using Ne.symm hne

/-- `sda sdb` and `sdc sdd`. -/
def twoPairs : List UInt8 :=
  [115, 100, 97, 32, 115, 100, 98, 10, 115, 100, 99, 32, 115, 100, 100, 10]

/-- Whatever stands where the arrays were, one of the two names is not mapped. -/
theorem not_maps : ¬ ∃ later, MapsRight later [twoPairs] := by
  rintro ⟨later, s, hs, hall⟩
  have hdevs : (readMaps [twoPairs]).map Maps.mapDevs = some (List.replicate 2 ⟨0, 0⟩) := by decide
  rw [hs] at hdevs
  have hsda : mapped ([twoPairs].flatMap fun file => pairs (words file)) [115, 100, 97] =
      [115, 100, 98] := by decide
  have hsdc : mapped ([twoPairs].flatMap fun file => pairs (words file)) [115, 100, 99] =
      [115, 100, 100] := by decide
  have hfirst := mapDev_replicate 2 ⟨0, 0⟩ later [115, 100, 97]
  have hsecond := mapDev_replicate 2 ⟨0, 0⟩ later [115, 100, 99]
  rw [← Option.some.inj hdevs, hall] at hfirst hsecond
  rw [hsda] at hfirst
  rw [hsdc] at hsecond
  rcases hfirst with h | hfirst
  · exact absurd h (by decide)
  · rcases hsecond with h | hsecond
    · exact absurd h (by decide)
    · exact absurd (hfirst.trans hsecond.symm) (by decide)

end Blktrace.Btreplay
