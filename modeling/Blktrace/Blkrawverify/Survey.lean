import Blktrace.Blkrawverify.Process

/-!
# What the verifier sees of a file

A file of good records, in the byte order that is decided or can still be, is seen as these records,
and a file that is seen as records to its end consists of them.
-/

namespace Blktrace.Blkrawverify

open Blkparse (lookNative)

theorem Good.whole {cpu : UInt32} {t : BlkIoTrace} (h : Good cpu t) : Whole t :=
  ⟨h.complete, h.valid⟩

theorem survey_image {native : Option Bool} {n : Bool} (hn : Admits native n) {t : BlkIoTrace}
    (h : Whole t) (fuel : ℕ) (rest : List UInt8) :
    survey (fuel + 1) native (t.image (!n) ++ rest) =
      (.record t :: (survey fuel (some n) rest).1, (survey fuel (some n) rest).2) := by
  have hsize := recordSize_image n h.complete rest
  have hlen : (t.image (!n) ++ rest).length = traceSize + t.pdu.length + rest.length := by
    rw [List.length_append, length_image]
  obtain ⟨hmagic, hversion⟩ := verifyTrace_eq_false.mp h.valid
  have hne : t.image (!n) ++ rest ≠ [] := by
    intro hnil
    rw [hnil] at hlen
    unfold traceSize at hlen
    simp at hlen
    omega
  rw [survey, if_neg hne, if_neg (by omega)]
  simp only [lookNative_image hn h.valid, Option.getD_some, recordAt_image n h.complete, hmagic,
    hversion, hsize, List.drop_left]
  rw [if_neg (by simp), if_neg (by simp), if_neg (by simp)]

/-- **A file of whole records**, and what comes after them. -/
theorem survey_fileOf {native : Option Bool} {n : Bool} (hn : Admits native n) {ts : List BlkIoTrace}
    (h : ∀ t ∈ ts, Whole t) (fuel : ℕ) (rest : List UInt8) :
    ∃ native', Admits native' n ∧ survey (fuel + ts.length) native (fileOf (!n) ts ++ rest) =
      (ts.map .record ++ (survey fuel native' rest).1, (survey fuel native' rest).2) := by
  induction ts generalizing native with
  | nil => exact ⟨native, hn, rfl⟩
  | cons t ts ih =>
    have hsome : Admits (some n) n := fun b hb => (Option.some.inj hb).symm
    obtain ⟨native', hn', heq⟩ := ih hsome fun u hu => h u (List.mem_cons_of_mem t hu)
    refine ⟨native', hn', ?_⟩
    rw [List.length_cons, ← Nat.add_assoc, fileOf_cons, List.append_assoc,
      survey_image hn (h t List.mem_cons_self), heq]
    rfl

/-- What does not fit in the file is not asked for. -/
theorem survey_fuel {fuel fuel' : ℕ} {native : Option Bool} {file : List UInt8}
    (h : file.length ≤ fuel) (h' : file.length ≤ fuel') :
    survey fuel native file = survey fuel' native file := by
  induction fuel generalizing fuel' native file with
  | zero =>
    obtain rfl := List.length_eq_zero_iff.mp (Nat.le_zero.mp h)
    cases fuel' <;> rfl
  | succ fuel ih =>
    cases fuel' with
    | zero =>
      obtain rfl := List.length_eq_zero_iff.mp (Nat.le_zero.mp h')
      rfl
    | succ fuel' =>
      have hdrop : ∀ k, traceSize ≤ k → (file.drop k).length ≤ fuel ∧ (file.drop k).length ≤ fuel' := by
        intro k hk
        rw [List.length_drop]
        unfold traceSize at hk
        omega
      have hrec : ∀ k native, traceSize ≤ k →
          survey fuel native (file.drop k) = survey fuel' native (file.drop k) :=
        fun k native hk => ih (hdrop k hk).1 (hdrop k hk).2
      unfold survey
      simp only [hrec _ _ (le_refl traceSize), hrec _ _ (Nat.le_add_right _ _), recordSize]
      rfl

/-! ## Back from what is seen -/

/-- Where a record of the right magic is seen the byte order is decided. -/
theorem lookNative_of_magic {native : Option Bool} {file : List UInt8}
    (h : checkMagic (recordAt ((lookNative native (loadTrace file).magic).getD true) file).magic = true) :
    lookNative native (loadTrace file).magic =
      some ((lookNative native (loadTrace file).magic).getD true) := by
  cases hlook : lookNative native (loadTrace file).magic with
  | some b => rfl
  | none =>
    rw [hlook] at h
    have hplain : checkMagic (loadTrace file).magic = true := h
    cases native with
    | some b => nomatch hlook
    | none =>
      rw [lookNative, checkDataEndianness, if_pos hplain] at hlook
      nomatch hlook

/-- **A file that is seen as records to its end** consists of them. -/
theorem file_of_survey {fuel : ℕ} {native : Option Bool} {file : List UInt8} {ts : List BlkIoTrace}
    (hfuel : file.length ≤ fuel) (h : survey fuel native file = (ts.map .record, .eof)) :
    ∃ n, Admits native n ∧ file = fileOf (!n) ts ∧ ∀ t ∈ ts, Whole t := by
  induction fuel generalizing native file ts with
  | zero =>
    obtain rfl := List.length_eq_zero_iff.mp (Nat.le_zero.mp hfuel)
    obtain rfl := List.map_eq_nil_iff.mp (congrArg Prod.fst h).symm
    refine ⟨native.getD true, ?_, rfl, by simp⟩
    rintro b hb
    rw [Option.mem_def.mp hb, Option.getD_some]
  | succ fuel ih =>
    unfold survey at h
    by_cases hnil : file = []
    · rw [if_pos hnil] at h
      obtain rfl := List.map_eq_nil_iff.mp (congrArg Prod.fst h).symm
      refine ⟨native.getD true, ?_, hnil, by simp⟩
      rintro b hb
      rw [Option.mem_def.mp hb, Option.getD_some]
    rw [if_neg hnil] at h
    by_cases hshort : file.length < traceSize
    · rw [if_pos hshort] at h
      cases (Prod.mk.inj h).2
    rw [if_neg hshort] at h
    dsimp only at h
    split_ifs at h with hmagic hversion hcut
    · cases ts with
      | nil => cases (Prod.mk.inj h).1
      | cons t ts => cases (List.cons.inj (Prod.mk.inj h).1).1
    · cases (Prod.mk.inj h).2
    · cases (Prod.mk.inj h).2
    · cases ts with
      | nil => cases (Prod.mk.inj h).1
      | cons t ts =>
        have hend := (Prod.mk.inj h).2
        obtain ⟨hfirst, hrest⟩ := List.cons.inj (Prod.mk.inj h).1
        clear h
        rw [Bool.not_eq_true', Bool.not_eq_false] at hmagic
        have hlook := lookNative_of_magic hmagic
        generalize (lookNative native (loadTrace file).magic).getD true = m at *
        rw [hlook] at hrest hend
        obtain rfl := Item.record.inj hfirst
        have hlen : (file.drop (recordSize m file)).length ≤ fuel := by
          rw [List.length_drop, recordSize]
          unfold traceSize
          omega
        obtain ⟨n, hn, hfile, hwhole⟩ := ih hlen (Prod.ext hrest hend)
        obtain rfl : m = n := hn m rfl
        have hsize : recordSize m file ≤ file.length := not_lt.mp hcut
        refine ⟨m, .of_lookNative hlook, ?_, ?_⟩
        · rw [fileOf_cons, ← hfile, image_append_drop hsize]
        · rw [List.forall_mem_cons]
          exact ⟨⟨complete_recordAt hsize,
            verifyTrace_eq_false.mpr ⟨hmagic, not_not.mp hversion⟩⟩, hwhole⟩

end Blktrace.Blkrawverify
