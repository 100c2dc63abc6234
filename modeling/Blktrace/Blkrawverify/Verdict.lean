import Blktrace.Blkrawverify.Survey

/-!
# When the verdict is right

`process` returns 0 for a good file, unless an earlier file decided for the other byte order. It
returns 0 for some others, too: those that end in a header or at an unsupported version behind good
records, and those of which so much is bad that the count wraps.
-/

namespace Blktrace.Blkrawverify

instance (a b : BlkIoTrace) : Decidable (Follows a b) :=
  decidable_of_iff (a.sequence < b.sequence ∧ a.time < b.time ∧ a.device = b.device)
    ⟨fun h => ⟨h.1, h.2.1, h.2.2⟩, fun h => ⟨h.sequence, h.time, h.device⟩⟩

instance : IsTrans BlkIoTrace Follows where
  trans _ _ _ h h' :=
    ⟨UInt32.lt_trans h.sequence h'.sequence, UInt64.lt_trans h.time h'.time,
      h.device.trans h'.device⟩

/-- A record is refused after those in `acc`, the last one first: it is of another CPU, or is sequenced
and does not follow. Behind every 2^32 accepted records one is not compared. -/
def Refused (cpu : UInt32) (acc : List BlkIoTrace) (t : BlkIoTrace) : Prop :=
  t.cpu ≠ cpu ∨
    t.hasTc blkTcNotify = false ∧ acc.length % 2 ^ 32 ≠ 0 ∧ ∃ a ∈ acc.head?, ¬ Follows a t

instance (cpu : UInt32) (acc : List BlkIoTrace) (t : BlkIoTrace) : Decidable (Refused cpu acc t) := by
  unfold Refused
  infer_instance

/-- How many items are flagged. -/
def flagged (cpu : UInt32) : List BlkIoTrace → List Item → ℕ
  | _, [] => 0
  | acc, .junk :: items => flagged cpu acc items + 1
  | acc, .record t :: items =>
    if Refused cpu acc t then flagged cpu acc items + 1
    else if t.hasTc blkTcNotify then flagged cpu acc items
    else flagged cpu (t :: acc) items

/-- The flaws of a file, with the payload that is cut off. -/
def flaws (native : Option Bool) (cpu : UInt32) (file : List UInt8) : ℕ :=
  flagged cpu [] (survey file.length native file).1 +
    if (survey file.length native file).2 = .cutPayload then 1 else 0

/-! ## The counters -/

/-- The state of the verifier after the records in `acc`. -/
structure Saved (s : Verify) (acc : List BlkIoTrace) : Prop where
  ngood : s.ngood.toNat = acc.length % 2 ^ 32
  save : ∀ a ∈ acc.head?, s.saveSequence = a.sequence ∧ s.saveTime = a.time ∧ s.saveDevice = a.device

theorem Saved.congr {s s' : Verify} {acc : List BlkIoTrace} (h : Saved s acc)
    (hgood : s'.ngood = s.ngood) (hseq : s'.saveSequence = s.saveSequence)
    (htime : s'.saveTime = s.saveTime) (hdev : s'.saveDevice = s.saveDevice) : Saved s' acc := by
  constructor
  · rw [hgood]
    exact h.ngood
  · rw [hseq, htime, hdev]
    exact h.save

theorem ngood_ne_zero_iff {s : Verify} {acc : List BlkIoTrace} (h : Saved s acc) :
    s.ngood ≠ 0 ↔ acc.length % 2 ^ 32 ≠ 0 := by
  rw [← h.ngood]
  exact not_congr UInt32.toNat_inj.symm

theorem Saved.accept {s : Verify} {acc : List BlkIoTrace} (h : Saved s acc) (t : BlkIoTrace) :
    Saved
      { s with
        saveSequence := t.sequence
        saveTime := t.time
        saveDevice := t.device
        ngood := s.ngood + 1 } (t :: acc) := by
  constructor
  · rw [UInt32.toNat_add, h.ngood, List.length_cons]
    simp
  · rintro a ha
    obtain rfl := Option.some.inj ha
    exact ⟨rfl, rfl, rfl⟩

/-- What is wrong with a record that comes after another. -/
theorem not_follows_iff (a t : BlkIoTrace) : ¬ Follows a t ↔
    t.sequence ≤ a.sequence ∨ t.time ≤ a.time ∨ t.device ≠ a.device := by
  constructor
  · intro h
    by_contra hall
    rw [not_or, not_or, UInt32.not_le, UInt64.not_le, not_not] at hall
    exact h ⟨hall.1, hall.2.1, hall.2.2.symm⟩
  · rintro (h | h | h) hf
    · exact absurd hf.sequence (UInt32.not_lt.mpr h)
    · exact absurd hf.time (UInt64.not_lt.mpr h)
    · exact h hf.device.symm

theorem refused_iff {s : Verify} {acc : List BlkIoTrace} (h : Saved s acc) (cpu : UInt32)
    (t : BlkIoTrace) : Refused cpu acc t ↔ t.cpu ≠ cpu ∨
      t.hasTc blkTcNotify = false ∧ s.ngood ≠ 0 ∧
        (t.sequence ≤ s.saveSequence ∨ t.time ≤ s.saveTime ∨ t.device ≠ s.saveDevice) := by
  rw [Refused, ngood_ne_zero_iff h]
  refine or_congr_right (and_congr_right fun _ => and_congr_right fun hlen => ?_)
  cases acc with
  | nil => exact absurd rfl hlen
  | cons a acc =>
    obtain ⟨hseq, htime, hdev⟩ := h.save a rfl
    simp [not_follows_iff, hseq, htime, hdev]

theorem record_refused {s : Verify} {acc : List BlkIoTrace} (h : Saved s acc) {cpu : UInt32}
    {t : BlkIoTrace} (ht : Refused cpu acc t) :
    (s.record cpu t).nbad = s.nbad + 1 ∧ Saved (s.record cpu t) acc := by
  unfold Verify.record
  by_cases hcpu : t.cpu ≠ cpu
  · rw [if_pos hcpu]
    exact ⟨rfl, h.congr rfl rfl rfl rfl⟩
  obtain ⟨hnotify, hgood, hwrong⟩ := ((refused_iff h cpu t).mp ht).resolve_left hcpu
  rw [if_neg hcpu, if_neg (by simp [hnotify])]
  split_ifs with hseq htime hdev
  · exact ⟨rfl, h.congr rfl rfl rfl rfl⟩
  · exact ⟨rfl, h.congr rfl rfl rfl rfl⟩
  · exact ⟨rfl, h.congr rfl rfl rfl rfl⟩
  · rw [not_and] at hseq htime hdev
    rcases hwrong with hw | hw | hw
    · exact absurd hw (hseq hgood)
    · exact absurd hw (htime hgood)
    · exact absurd hw (hdev hgood)

theorem record_notify {cpu : UInt32} {acc : List BlkIoTrace} {t : BlkIoTrace} (s : Verify)
    (ht : ¬ Refused cpu acc t) (hnotify : t.hasTc blkTcNotify = true) : s.record cpu t = s := by
  unfold Verify.record
  rw [if_neg fun hcpu => ht (.inl hcpu), if_pos hnotify]

theorem record_accepted {s : Verify} {acc : List BlkIoTrace} (h : Saved s acc) {cpu : UInt32}
    {t : BlkIoTrace} (ht : ¬ Refused cpu acc t) (hnotify : ¬ t.hasTc blkTcNotify = true) :
    (s.record cpu t).nbad = s.nbad ∧ Saved (s.record cpu t) (t :: acc) := by
  rw [refused_iff h, Bool.not_eq_true] at *
  have hright : ∀ P : Prop, (P → t.sequence ≤ s.saveSequence ∨ t.time ≤ s.saveTime ∨
      t.device ≠ s.saveDevice) → ¬ (s.ngood ≠ 0 ∧ P) :=
    fun P hP hbad => ht (.inr ⟨hnotify, hbad.1, hP hbad.2⟩)
  unfold Verify.record
  rw [if_neg fun hcpu => ht (.inl hcpu), if_neg (by simp [hnotify]), if_neg (hright _ .inl),
    if_neg (hright _ fun hw => .inr (.inl hw)), if_neg (hright _ fun hw => .inr (.inr hw))]
  exact ⟨rfl, h.accept t⟩

/-- **The count of the bad** is the number of flagged items, as far as 32 bits hold it. -/
theorem foldl_item_nbad (cpu : UInt32) {s : Verify} {acc : List BlkIoTrace} (h : Saved s acc)
    (items : List Item) : (items.foldl (Verify.item cpu) s).nbad.toNat =
      (s.nbad.toNat + flagged cpu acc items) % 2 ^ 32 := by
  have hone : ∀ k n : ℕ, ((k + 1) % 2 ^ 32 + n) % 2 ^ 32 = (k + (n + 1)) % 2 ^ 32 := by omega
  induction items generalizing s acc with
  | nil => exact (Nat.mod_eq_of_lt s.nbad.toNat_lt).symm
  | cons item items ih =>
    rw [List.foldl_cons]
    cases item with
    | junk =>
      have hinc : (s.item cpu .junk).nbad.toNat = (s.nbad.toNat + 1) % 2 ^ 32 := UInt32.toNat_add _ _
      have hsaved : Saved (s.item cpu .junk) acc := h.congr rfl rfl rfl rfl
      rw [ih hsaved, hinc, flagged, hone]
    | record t =>
      show (List.foldl _ (s.record cpu t) items).nbad.toNat = _
      rw [flagged]
      split_ifs with hrefused hnotify
      · obtain ⟨hbad, hsaved⟩ := record_refused h hrefused
        rw [ih hsaved, hbad, UInt32.toNat_add]
        exact hone _ _
      · rw [record_notify s hrefused hnotify, ih h]
      · obtain ⟨hbad, hsaved⟩ := record_accepted h hrefused hnotify
        rw [ih hsaved, hbad]

theorem saved_init : Saved {} [] := ⟨rfl, nofun⟩

theorem process_toNat (native : Option Bool) (cpu : UInt32) (file : List UInt8) :
    (process native cpu file).toNat = flaws native cpu file % 2 ^ 32 := by
  have hfold : (List.foldl (Verify.item cpu) {} (survey file.length native file).1).nbad.toNat =
      flagged cpu [] (survey file.length native file).1 % 2 ^ 32 := by
    rw [foldl_item_nbad cpu saved_init]
    simp
  rw [process, loop_eq, flaws]
  cases hend : (survey file.length native file).2 with
  | cutPayload =>
    have hinc : ∀ s : Verify, (s.close .cutPayload).nbad.toNat = (s.nbad.toNat + 1) % 2 ^ 32 :=
      fun s => UInt32.toNat_add _ _
    rw [hinc, hfold]
    simp
  | eof => simpa [Verify.close] using hfold
  | cutHeader => simpa [Verify.close] using hfold
  | unsupported => simpa [Verify.close] using hfold

theorem process_eq_zero_iff (native : Option Bool) (cpu : UInt32) (file : List UInt8) :
    process native cpu file = 0 ↔ 2 ^ 32 ∣ flaws native cpu file := by
  rw [← UInt32.toNat_inj, process_toNat]
  exact (Nat.dvd_iff_mod_eq_zero).symm

/-! ## What is flagged -/

theorem sequenced_cons (t : BlkIoTrace) (ts : List BlkIoTrace) : sequenced (t :: ts) =
    if t.hasTc blkTcNotify then sequenced ts else t :: sequenced ts := by
  cases h : t.hasTc blkTcNotify <;> simp [sequenced, h]

/-- Nothing is flagged in records that follow one another. -/
theorem flagged_eq_zero {cpu : UInt32} {acc ts : List BlkIoTrace} (hcpu : ∀ t ∈ ts, t.cpu = cpu)
    (hchain : (acc.head?.toList ++ sequenced ts).IsChain Follows) :
    flagged cpu acc (ts.map .record) = 0 := by
  induction ts generalizing acc with
  | nil => rfl
  | cons t ts ih =>
    obtain ⟨ht, hts⟩ := List.forall_mem_cons.mp hcpu
    rw [List.map_cons, flagged]
    rw [sequenced_cons] at hchain
    by_cases hnotify : t.hasTc blkTcNotify = true
    · have haccept : ¬ Refused cpu acc t := by
        rintro (h | ⟨h, -⟩)
        · exact h ht
        · exact Bool.noConfusion (h.symm.trans hnotify)
      rw [if_pos hnotify] at hchain
      rw [if_neg haccept, if_pos hnotify]
      exact ih hts hchain
    · rw [if_neg hnotify] at hchain
      have haccept : ¬ Refused cpu acc t := by
        rintro (h | ⟨-, -, a, ha, h⟩)
        · exact h ht
        · rw [Option.mem_def.mp ha] at hchain
          exact h (List.isChain_cons_cons.mp hchain).1
      rw [if_neg haccept, if_neg hnotify]
      exact ih hts hchain.right_of_append

/-- What is not flagged is records, and they follow one another as long as the counter of the accepted
does not wrap. -/
theorem of_flagged_eq_zero {cpu : UInt32} {acc : List BlkIoTrace} {items : List Item}
    (h : flagged cpu acc items = 0) : ∃ ts, items = ts.map .record ∧ (∀ t ∈ ts, t.cpu = cpu) ∧
      (acc.length + (sequenced ts).length ≤ 2 ^ 32 →
        (acc.head?.toList ++ sequenced ts).IsChain Follows) := by
  induction items generalizing acc with
  | nil => exact ⟨[], rfl, by simp, fun _ => by cases acc <;> simp [sequenced]⟩
  | cons item items ih =>
    cases item with
    | junk => exact absurd h (Nat.succ_ne_zero _)
    | record t =>
      rw [flagged] at h
      split_ifs at h with hrefused hnotify
      · obtain ⟨ts, rfl, hcpu, hchain⟩ := ih h
        refine ⟨t :: ts, rfl, List.forall_mem_cons.mpr ⟨?_, hcpu⟩, ?_⟩
        · exact not_not.mp fun hne => hrefused (.inl hne)
        · rw [sequenced_cons, if_pos hnotify]
          exact hchain
      · obtain ⟨ts, rfl, hcpu, hchain⟩ := ih h
        refine ⟨t :: ts, rfl, List.forall_mem_cons.mpr ⟨?_, hcpu⟩, ?_⟩
        · exact not_not.mp fun hne => hrefused (.inl hne)
        rw [sequenced_cons, if_neg hnotify, List.length_cons]
        intro hlen
        have htail : (t :: sequenced ts).IsChain Follows :=
          hchain (by rw [List.length_cons]; omega)
        cases acc with
        | nil => exact htail
        | cons a acc =>
          refine List.isChain_cons_cons.mpr ⟨?_, htail⟩
          by_contra hne
          rw [List.length_cons] at hlen
          have hcount : (a :: acc).length % 2 ^ 32 ≠ 0 := by
            rw [List.length_cons]
            omega
          exact hrefused (.inr ⟨Bool.eq_false_iff.mpr hnotify, hcount, a, rfl, hne⟩)

/-! ## The verdict -/

/-- In the other byte order a valid record is none. -/
theorem checkMagic_image_other (big : Bool) {t : BlkIoTrace} (h : checkMagic t.magic = true)
    (rest : List UInt8) : checkMagic (recordAt big (t.image big ++ rest)).magic = false := by
  have hmagic : (traceToCpu (!big) (loadTrace (t.image big ++ rest))).magic = t.magic := by
    have himage := traceToCpu_image_native (!big) t rest
    rw [Bool.not_not] at himage
    rw [himage]
  cases big with
  | false =>
    rw [← hmagic] at h
    have hplain : checkMagic (loadTrace (t.image false ++ rest)).magic = true := h
    rw [← bswap32_bswap32 (loadTrace _).magic] at hplain
    exact checkMagic_of_bswap32 hplain
  | true =>
    rw [← hmagic] at h
    exact checkMagic_of_bswap32 h

/-- A file in the byte order that is not the decided one begins with junk. -/
theorem flagged_other (cpu : UInt32) {big : Bool} {t : BlkIoTrace} (h : verifyTrace t = false)
    (rest : List UInt8) (fuel : ℕ) :
    flagged cpu [] (survey (fuel + 1) (some big) (t.image big ++ rest)).1 ≠ 0 := by
  have hlen : (t.image big ++ rest).length = traceSize + t.pdu.length + rest.length := by
    rw [List.length_append, length_image]
  have hne : t.image big ++ rest ≠ [] := by
    intro hnil
    rw [hnil] at hlen
    unfold traceSize at hlen
    simp at hlen
    omega
  have hmagic := checkMagic_image_other big (verifyTrace_eq_false.mp h).1 rest
  rw [survey, if_neg hne, if_neg (by omega)]
  simp only [Blkparse.lookNative, Option.getD_some, hmagic, Bool.not_false, if_true]
  exact Nat.succ_ne_zero _

/-- A good file that can be of its byte order is seen as it is. -/
theorem survey_verified {native : Option Bool} {big : Bool} (hn : Admits native !big)
    {ts : List BlkIoTrace} (h : ∀ t ∈ ts, Whole t) :
    survey (fileOf big ts).length native (fileOf big ts) = (ts.map .record, .eof) := by
  obtain ⟨native', -, heq⟩ := survey_fileOf hn h (fileOf big ts).length []
  rw [Bool.not_not, List.append_nil] at heq
  rw [survey_fuel (le_refl _) (Nat.le_add_right _ ts.length), heq]
  cases (fileOf big ts).length <;> simp [survey]

theorem flaws_verified {native : Option Bool} {big : Bool} {cpu : UInt32} {file : List UInt8}
    (hn : Admits native !big) (h : Verified big cpu file) : flaws native cpu file = 0 := by
  obtain ⟨ts, rfl, hgood, hpair⟩ := h
  rw [flaws, survey_verified hn fun t ht => (hgood t ht).whole, if_neg nofun]
  exact flagged_eq_zero (fun t ht => (hgood t ht).cpu) (List.Pairwise.isChain hpair)

/-- A good file in a byte order that cannot be its own. -/
theorem eq_of_not_admits {native : Option Bool} {big : Bool} (h : ¬ Admits native !big) :
    native = some big := by
  cases native with
  | none => exact absurd nofun h
  | some b =>
    by_contra hne
    refine h fun c hc => ?_
    obtain rfl := Option.some.inj hc
    cases b <;> cases big <;> simp_all

/-- The records that are seen in a file. -/
def seen (native : Option Bool) (file : List UInt8) : List BlkIoTrace :=
  (survey file.length native file).1.filterMap fun
    | .junk => none
    | .record t => some t

/-- When 0 is returned for the good and nothing else. Behind records without a flaw there is no cut
header and no unsupported version, and where the count of the accepted wraps they are in order as
well; and the flaws are a multiple of 2^32 only for what is good in the byte order an earlier file
ruled out. -/
structure Decisive (native : Option Bool) (cpu : UInt32) (file : List UInt8) : Prop where
  ending : flaws native cpu file = 0 → (survey file.length native file).2 = .eof
  order : flaws native cpu file = 0 → 2 ^ 32 < (sequenced (seen native file)).length →
    (sequenced (seen native file)).Pairwise Follows
  count : flaws native cpu file ≠ 0 →
    (2 ^ 32 ∣ flaws native cpu file ↔ ∃ b ∈ native, Verified b cpu file)

theorem seen_eq {native : Option Bool} {file : List UInt8} {ts : List BlkIoTrace}
    (h : (survey file.length native file).1 = ts.map .record) : seen native file = ts := by
  rw [seen, h, List.filterMap_map]
  exact List.filterMap_some

theorem flagged_of_flaws {native : Option Bool} {cpu : UInt32} {file : List UInt8}
    (h : flaws native cpu file = 0) : flagged cpu [] (survey file.length native file).1 = 0 :=
  Nat.eq_zero_of_add_eq_zero_right h

/-- Without a flaw the file is good as soon as it is read to its end and its records are in order. -/
theorem verified_of_flaws {native : Option Bool} {cpu : UInt32} {file : List UInt8}
    (h : flaws native cpu file = 0) (hend : (survey file.length native file).2 = .eof)
    (horder : 2 ^ 32 < (sequenced (seen native file)).length →
      (sequenced (seen native file)).Pairwise Follows) : ∃ big, Verified big cpu file := by
  obtain ⟨ts, hitems, hcpu, hchain⟩ := of_flagged_eq_zero (flagged_of_flaws h)
  obtain ⟨n, -, hfile, hwhole⟩ := file_of_survey (le_refl _) (Prod.ext hitems hend)
  rw [seen_eq hitems] at horder
  refine ⟨!n, ts, hfile, fun t ht => ⟨(hwhole t ht).complete, (hwhole t ht).valid, hcpu t ht⟩, ?_⟩
  rcases Nat.lt_or_ge (2 ^ 32) (sequenced ts).length with hlt | hle
  · exact horder hlt
  · exact (hchain (by simpa using hle)).pairwise

/-- Without a flaw a good file is seen as it is. -/
theorem survey_of_verified {native : Option Bool} {cpu : UInt32} {file : List UInt8} {big : Bool}
    (h : flaws native cpu file = 0) (hfile : Verified big cpu file) :
    ∃ ts, survey file.length native file = (ts.map .record, .eof) ∧
      (sequenced ts).Pairwise Follows := by
  obtain ⟨ts, rfl, hgood, hpair⟩ := hfile
  refine ⟨ts, ?_, hpair⟩
  by_cases hn : Admits native !big
  · exact survey_verified hn fun t ht => (hgood t ht).whole
  obtain rfl := eq_of_not_admits hn
  cases ts with
  | nil => rfl
  | cons t ts =>
    exfalso
    have hflagged := flagged_of_flaws h
    obtain ⟨fuel, hfuel⟩ : ∃ fuel, (fileOf big (t :: ts)).length = fuel + 1 := by
      have hlen := length_fileOf big (t :: ts)
      rw [List.length_cons] at hlen
      exact ⟨_, (Nat.sub_add_cancel (le_trans (Nat.le_add_left 1 _) hlen)).symm⟩
    rw [hfuel, fileOf_cons] at hflagged
    exact flagged_other cpu (hgood t List.mem_cons_self).valid _ fuel hflagged

/-- **The verdict.** -/
theorem verdict_iff (native : Option Bool) (cpu : UInt32) (file : List UInt8) :
    (process native cpu file = 0 ↔ ∃ big, Verified big cpu file) ↔ Decisive native cpu file := by
  rw [process_eq_zero_iff]
  by_cases hflaws : flaws native cpu file = 0
  · constructor
    · intro h
      obtain ⟨big, hgood⟩ := h.mp (hflaws ▸ dvd_zero _)
      obtain ⟨ts, hsurvey, hpair⟩ := survey_of_verified hflaws hgood
      refine ⟨fun _ => congrArg Prod.snd hsurvey, fun _ _ => ?_, fun hne => absurd hflaws hne⟩
      rw [seen_eq (congrArg Prod.fst hsurvey)]
      exact hpair
    · intro h
      exact iff_of_true (hflaws ▸ dvd_zero _)
        (verified_of_flaws hflaws (h.ending hflaws) (h.order hflaws))
  · have hother : (∃ big, Verified big cpu file) ↔ ∃ b ∈ native, Verified b cpu file := by
      constructor
      · rintro ⟨big, hgood⟩
        refine ⟨big, ?_, hgood⟩
        exact eq_of_not_admits fun hn => hflaws (flaws_verified hn hgood)
      · rintro ⟨b, -, hgood⟩
        exact ⟨b, hgood⟩
    rw [hother]
    constructor
    · intro h
      exact ⟨fun h0 => absurd h0 hflaws, fun h0 => absurd h0 hflaws, fun _ => h⟩
    · intro h
      exact h.count hflaws

/-- A byte behind no record at all. -/
theorem not_verdict : ¬ (process none 0 [0] = 0 ↔ ∃ big, Verified big 0 [0]) := by
  intro h
  obtain ⟨big, ts, hfile, -⟩ := h.mp (by decide)
  cases ts with
  | nil => nomatch hfile
  | cons t ts =>
    have hlen := congrArg List.length hfile
    rw [fileOf_cons, List.length_append, length_image] at hlen
    unfold traceSize at hlen
    simp at hlen
    omega

end Blktrace.Blkrawverify
