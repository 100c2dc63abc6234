import Blktrace.Lib.Pieces
import Blktrace.Server.Delivery

/-!
# `blktrace.c`: what the network makes of it

`send` may take less than it is given, and `recv` give less than it is asked for; both are called
again. A tracer whose `send` fails closes its connection and throws the rest away. Whatever the pieces,
the server reads what the tracer flushed, or the beginning of it.
-/

namespace Blktrace.Server

open Bytes Pieces

/-! ## The server -/

/-- `__net_recv_data`, with `done` not set. -/
def netRecvData (calls : List Call) (len : ℕ) (bs : List UInt8) :
    Option (List UInt8 × List UInt8 × List Call) :=
  Pieces.read calls len bs

/-- `net_get_header`: what it returns, and `bnh`. -/
def netGetHeader (calls : List Call) (bs : List UInt8) : Option (ℤ × List UInt8 × List UInt8 × List Call) :=
  (netRecvData calls netHdrSize bs).map fun (bnh, bs, calls) =>
    (if bnh.length = netHdrSize then 1 else if bnh.length = 0 then 0 else -1, bnh, bs, calls)

/-- What the calls of `net_client_data` read off a connection, up to its end or to an `exit`. None
where it waits for more. -/
def netClientReads : ℕ → Option Bool → List Call → List UInt8 →
    Option (List (NetHdr (List UInt8) × List UInt8))
  | 0, _, _, _ => some []
  | fuel + 1, native, calls, bs =>
    match netGetHeader calls bs with
    | none => none
    | some (ret, bnh, bs, calls) =>
      if ret ≤ 0 then some []
      else
        match nativeOf native bnh with
        | none => some []
        | some native =>
          if checkMagic (be32ToCpu native (hdrMagic bnh)) then
            let hdr := hdrToCpu native bnh
            match netRecvData calls hdr.payload bs with
            | none => none
            | some (data, bs, calls) =>
              (netClientReads fuel (some native) calls bs).map fun ms => (hdr, data) :: ms
          else some []

/-- What is loaded depends on the bytes that are loaded, and on no others. -/
theorem load_take {α : Type*} {l : Layout α} (hl : l.Onto) {n : ℕ} (hn : l.size ≤ n) (bs : List UInt8)
    (hbs : n ≤ bs.length) : l.load (bs.take n) = l.load bs := by
  have hstore := hl bs (hn.trans hbs)
  have htake : bs.take n = l.store (l.load bs) ++ (bs.take n).drop l.size := by
    have happend := List.take_append_drop l.size (bs.take n)
    rw [List.take_take, Nat.min_eq_left hn] at happend
    rw [hstore]
    exact happend.symm
  rw [htake, l.load_store]

theorem onto_u32 (big : Bool) : (u32 big).Onto :=
  onto_word (fun _ hn => UInt32.toNat_ofNat_of_lt' hn) big

theorem onto_wordsLayout (big : Bool) : (wordsLayout big).Onto := by
  have h := onto_u32 big
  exact h.prod (h.prod (h.prod (h.prod (h.prod (h.prod h)))))

theorem hdrMagic_take {bs : List UInt8} (hbs : netHdrSize ≤ bs.length) :
    hdrMagic (bs.take netHdrSize) = hdrMagic bs :=
  load_take (onto_u32 false) (by decide) bs hbs

theorem hdrToCpu_take {bs : List UInt8} (hbs : netHdrSize ≤ bs.length) (native : Bool) :
    hdrToCpu native (bs.take netHdrSize) = hdrToCpu native bs := by
  have hwords : (wordsLayout false).load ((bs.take netHdrSize).drop 36) =
      (wordsLayout false).load (bs.drop 36) := by
    rw [List.drop_take]
    refine load_take (onto_wordsLayout false) (by decide) _ ?_
    rw [List.length_drop]
    omega
  have hname : ((bs.take netHdrSize).drop 4).take 32 = (bs.drop 4).take 32 := by
    rw [List.drop_take, List.take_take]
    rfl
  unfold hdrToCpu
  dsimp only
  rw [hwords, hname]

theorem nativeOf_take {bs : List UInt8} (hbs : netHdrSize ≤ bs.length) (native : Option Bool) :
    nativeOf native (bs.take netHdrSize) = nativeOf native bs := by
  cases native with
  | none => exact congrArg checkDataEndianness (hdrMagic_take hbs)
  | some native => rfl

/-- **However the bytes come in**, the messages are those of the bytes. -/
theorem netClientReads_eq {fuel : ℕ} {native : Option Bool} {calls : List Call} (hsound : Sound calls)
    {bs : List UInt8} {ms : List (NetHdr (List UInt8) × List UInt8)}
    (h : netClientReads fuel native calls bs = some ms) : ms = netMessages fuel native bs := by
  induction fuel generalizing native calls bs ms with
  | zero => exact (Option.some.inj h).symm
  | succ fuel ih =>
    rw [netClientReads] at h
    rw [netMessages]
    cases hread : netGetHeader calls bs with
    | none =>
      rw [hread] at h
      cases h
    | some r =>
      obtain ⟨ret, bnh, rest, calls'⟩ := r
      obtain ⟨⟨got, rest', calls''⟩, hgot, heq⟩ := Option.map_eq_some_iff.mp hread
      obtain ⟨rfl, rfl, rfl, rfl⟩ : (if got.length = netHdrSize then (1 : ℤ) else
          if got.length = 0 then 0 else -1) = ret ∧ got = bnh ∧ rest' = rest ∧ calls'' = calls' := by
        simpa using heq
      obtain ⟨rfl, rfl, hcalls⟩ := read_eq hsound hgot
      have hsound' : Sound calls'' := fun hmem => hsound (hcalls.subset hmem)
      rw [hread] at h
      dsimp only at h
      by_cases hshort : bs.length < netHdrSize
      · rw [if_pos hshort]
        have hret : (if (bs.take netHdrSize).length = netHdrSize then (1 : ℤ) else
            if (bs.take netHdrSize).length = 0 then 0 else -1) ≤ 0 := by
          rw [List.length_take, if_neg (by omega)]
          split_ifs <;> omega
        rw [if_pos hret] at h
        exact (Option.some.inj h).symm
      · have hbs : netHdrSize ≤ bs.length := not_lt.mp hshort
        rw [if_neg hshort]
        rw [List.length_take_of_le hbs, if_pos rfl, if_neg (by decide), nativeOf_take hbs] at h
        cases hnative : nativeOf native bs with
        | none =>
          rw [hnative] at h
          exact (Option.some.inj h).symm
        | some native =>
          rw [hnative] at h
          dsimp only at h ⊢
          rw [hdrMagic_take hbs, hdrToCpu_take hbs] at h
          split_ifs at h ⊢ with hmagic
          · cases hdata : netRecvData calls'' (hdrToCpu native bs).payload (bs.drop netHdrSize) with
            | none =>
              rw [hdata] at h
              cases h
            | some r =>
              obtain ⟨data, rest, calls₃⟩ := r
              rw [hdata] at h
              obtain ⟨rfl, rfl, hcalls'⟩ := read_eq hsound' hdata
              obtain ⟨ms', hms', rfl⟩ := Option.map_eq_some_iff.mp h
              rw [ih (fun hmem => hsound' (hcalls'.subset hmem)) hms']
          · exact (Option.some.inj h).symm

/-- **The server does not wait for ever** where the bytes come in, and an end behind them. -/
theorem netClientReads_isSome {fuel : ℕ} {native : Option Bool} {calls : List Call} (hsound : Sound calls)
    {bs : List UInt8} (hmoves : bs.length + 2 ≤ moves calls ∨ bs = [] ∧ 1 ≤ moves calls) :
    (netClientReads fuel native calls bs).isSome := by
  induction fuel generalizing native calls bs with
  | zero => rfl
  | succ fuel ih =>
    rw [netClientReads]
    -- the end of the bytes is found twice at the most: in the data of a message, and in its place
    have hheader : ∃ got rest calls', netRecvData calls netHdrSize bs = some (got, rest, calls') ∧
        (got.length < netHdrSize ∨ rest.length + 2 ≤ moves calls') := by
      rcases hmoves with hmany | ⟨rfl, hone⟩
      · obtain ⟨got, rest, calls', hread, hle⟩ := read_isSome hsound netHdrSize bs (k := 1) hmany
        refine ⟨got, rest, calls', hread, ?_⟩
        by_cases hlt : got.length < netHdrSize
        · exact .inl hlt
        · rw [if_neg hlt] at hle
          exact .inr hle
      · obtain ⟨got, rest, calls', hread, -⟩ := read_isSome hsound netHdrSize ([] : List UInt8)
          (k := 0) (by simpa using hone)
        obtain ⟨rfl, -, -⟩ := read_eq hsound hread
        exact ⟨_, rest, calls', hread, .inl (by decide)⟩
    obtain ⟨got, rest, calls', hread, hleft⟩ := hheader
    obtain ⟨rfl, rfl, hcalls⟩ := read_eq hsound hread
    have hsound' : Sound calls' := fun hmem => hsound (hcalls.subset hmem)
    rw [netGetHeader, hread]
    simp only [Option.map_some]
    by_cases hlt : (bs.take netHdrSize).length < netHdrSize
    · rw [if_pos]
      · rfl
      · rw [if_neg hlt.ne]
        split_ifs <;> omega
    · have hfull := le_antisymm (List.length_take_le _ _) (not_lt.mp hlt)
      rw [if_pos hfull, if_neg (by decide)]
      cases nativeOf native (bs.take netHdrSize) with
      | none => rfl
      | some native =>
        dsimp only
        split_ifs with hmagic
        · obtain ⟨data, rest, calls'', hdata, hle⟩ := read_isSome hsound'
            (hdrToCpu native (bs.take netHdrSize)).payload _ (k := 1) (hleft.resolve_left hlt)
          obtain ⟨rfl, rfl, hcalls'⟩ := read_eq hsound' hdata
          rw [netRecvData, hdata]
          simp only [Option.isSome_map]
          refine ih (fun hmem => hsound' (hcalls'.subset hmem)) ?_
          split_ifs at hle with hshort
          · have hnil : (bs.drop netHdrSize).drop
                (hdrToCpu native (bs.take netHdrSize)).payload = [] := by
              rw [List.length_take] at hshort
              exact List.drop_of_length_le (by omega)
            rw [hnil] at hle ⊢
            exact .inr ⟨rfl, hle⟩
          · exact .inl hle
        · rfl

/-! ## The tracer -/

/-- `net_send_data`: what is sent, and what is not. -/
def netSendData (calls : List Call) (buf : List UInt8) : Option (List UInt8 × List UInt8 × List Call) :=
  Pieces.write calls buf

/-- `flush_subbuf_net`: what is sent of the header and of the buffer, and whether all of it is. -/
def flushSubbuf (c : NetClient) (calls : List Call) (it : Item) : Option (List UInt8 × Bool × List Call) :=
  match netSendData calls (netSendHeader c it.cpu it.name it.len) with
  | none => none
  | some (sent, rest, calls) =>
    if rest ≠ [] then some (sent, false, calls)
    else (netSendData calls it.sent).map fun (sent', rest, calls) => (sent ++ sent', rest = [], calls)

/-- `handle_list_net`, for the buffers of a CPU: what is sent, and whether the connection is left. -/
def handleListNet (c : NetClient) : List Call → Bool → List NetBuf → Option (List UInt8 × Bool)
  | _, isOpen, [] => some ([], isOpen)
  | calls, false, _ :: tbs => handleListNet c calls false tbs
  | calls, true, tb :: tbs =>
    match flushSubbuf c calls (flushSubbufNet tb) with
    | none => none
    | some (sent, ok, calls) => (handleListNet c calls ok tbs).map fun (sent', isOpen) =>
      (sent ++ sent', isOpen)

theorem flushSubbuf_upTo {c : NetClient} {calls calls' : List Call} {it : Item} {sent : List UInt8}
    {ok : Bool} (h : flushSubbuf c calls it = some (sent, ok, calls')) :
    sent <+: netSendHeader c it.cpu it.name it.len ++ it.sent ∧
      (ok = true → sent = netSendHeader c it.cpu it.name it.len ++ it.sent) := by
  unfold flushSubbuf at h
  cases hheader : netSendData calls (netSendHeader c it.cpu it.name it.len) with
  | none =>
    rw [hheader] at h
    cases h
  | some r =>
    obtain ⟨sent₁, rest₁, calls₁⟩ := r
    rw [hheader] at h
    dsimp only at h
    obtain ⟨hwhole, -⟩ := write_eq hheader
    split_ifs at h with hrest
    · obtain ⟨rfl, rfl, -⟩ : sent₁ = sent ∧ false = ok ∧ calls₁ = calls' := by simpa using h
      refine ⟨?_, fun h => by cases h⟩
      rw [← hwhole, List.append_assoc]
      exact List.prefix_append _ _
    · obtain ⟨⟨sent₂, rest₂, calls₂⟩, hdata, heq⟩ := Option.map_eq_some_iff.mp h
      obtain ⟨rfl, rfl, -⟩ : sent₁ ++ sent₂ = sent ∧ decide (rest₂ = []) = ok ∧ calls₂ = calls' := by
        simpa using heq
      obtain ⟨hwhole', -⟩ := write_eq hdata
      have hnil : rest₁ = [] := not_not.mp hrest
      rw [hnil, List.append_nil] at hwhole
      rw [← hwhole, ← hwhole']
      refine ⟨?_, fun hok => ?_⟩
      · rw [← List.append_assoc]
        exact List.prefix_append _ _
      · rw [of_decide_eq_true hok, List.append_nil]

theorem handleListNet_false (c : NetClient) (calls : List Call) (tbs : List NetBuf) :
    handleListNet c calls false tbs = some ([], false) := by
  induction tbs with
  | nil => rfl
  | cons tb tbs ih => exact ih

/-- What the tracer sends is the beginning of what it flushes, and all of it as long as it has the
connection. -/
theorem handleListNet_upTo {c : NetClient} {calls : List Call} {tbs : List NetBuf} {sent : List UInt8}
    {isOpen : Bool} (h : handleListNet c calls true tbs = some (sent, isOpen)) :
    sent <+: wire c (tbs.map flushSubbufNet) ∧
      (isOpen = true → sent = wire c (tbs.map flushSubbufNet)) := by
  induction tbs generalizing calls sent with
  | nil =>
    obtain ⟨rfl, -⟩ : [] = sent ∧ true = isOpen := by simpa [handleListNet] using h
    exact ⟨List.nil_prefix, fun _ => rfl⟩
  | cons tb tbs ih =>
    rw [handleListNet] at h
    cases hflush : flushSubbuf c calls (flushSubbufNet tb) with
    | none =>
      rw [hflush] at h
      cases h
    | some r =>
      obtain ⟨sent₁, ok, calls₁⟩ := r
      rw [hflush] at h
      obtain ⟨⟨sent₂, isOpen'⟩, hrest, heq⟩ := Option.map_eq_some_iff.mp h
      obtain ⟨rfl, rfl⟩ : sent₁ ++ sent₂ = sent ∧ isOpen' = isOpen := by simpa using heq
      obtain ⟨hupTo, hwhole⟩ := flushSubbuf_upTo hflush
      rw [List.map_cons, wire_cons, ← List.append_assoc]
      cases ok with
      | true =>
        obtain ⟨hupTo', hwhole'⟩ := ih hrest
        rw [← hwhole rfl]
        exact ⟨(List.prefix_append_right_inj _).mpr hupTo', fun hopen => by rw [hwhole' hopen]⟩
      | false =>
        rw [handleListNet_false] at hrest
        obtain ⟨rfl, rfl⟩ : [] = sent₂ ∧ false = isOpen' := by simpa using hrest
        rw [List.append_nil]
        exact ⟨hupTo.trans (List.prefix_append _ _), fun h => by cases h⟩

/-! ## What comes through -/

/-- The messages are the first of the items, each whole but for the last one's data. -/
def UpTo : List Item → List (NetHdr (List UInt8) × List UInt8) → Prop
  | _, [] => True
  | [], _ :: _ => False
  | it :: its, m :: ms =>
    m.1.butsName = it.name.chars ∧ m.1.cpu = it.cpu ∧ kindOf m.1.len = it.kind ∧ m.2 <+: it.data ∧
      (ms ≠ [] → m.2 = it.data) ∧ UpTo its ms

theorem UpTo.flatMap_upTo {its : List Item} {ms : List (NetHdr (List UInt8) × List UInt8)}
    (h : UpTo its ms) : ms.flatMap Prod.snd <+: its.flatMap Item.data := by
  induction its generalizing ms with
  | nil =>
    cases ms with
    | nil => exact List.nil_prefix
    | cons m ms => exact h.elim
  | cons it its ih =>
    cases ms with
    | nil => exact List.nil_prefix
    | cons m ms =>
      obtain ⟨-, -, -, hupTo, hwhole, hrest⟩ := h
      rw [List.flatMap_cons, List.flatMap_cons]
      by_cases hnil : ms = []
      · rw [hnil, List.flatMap_nil, List.append_nil]
        exact hupTo.trans (List.prefix_append _ _)
      · rw [hwhole hnil]
        exact (List.prefix_append_right_inj _).mpr (ih hrest)

/-- The messages of the beginning of what is sent. -/
theorem upTo_netMessages (c : NetClient) {items : List Item} (hp : ∀ it ∈ items, it.Proper)
    (hsent : ∀ it ∈ items, it.sent = it.data) (hfair : ∀ it ∈ items, it.Fair) {native : Option Bool}
    (hnative : native = none ∨ native = some !c.big) (fuel : ℕ) {bs : List UInt8}
    (hbs : bs <+: wire c items) : UpTo items (netMessages fuel native bs) := by
  induction items generalizing native fuel bs with
  | nil =>
    rw [List.prefix_nil.mp hbs, netMessages_nil]
    trivial
  | cons it items ih =>
    obtain ⟨hp₁, hp⟩ := List.forall_mem_cons.mp hp
    obtain ⟨hsent₁, hsent⟩ := List.forall_mem_cons.mp hsent
    obtain ⟨hfair₁, hfair⟩ := List.forall_mem_cons.mp hfair
    cases fuel with
    | zero => trivial
    | succ fuel =>
      by_cases hshort : bs.length < netHdrSize
      · rw [netMessages, if_pos hshort]
        trivial
      rw [wire_cons] at hbs
      have hheader := length_netSendHeader c it.cpu it.name it.len
      obtain ⟨bs', rfl⟩ : netSendHeader c it.cpu it.name it.len <+: bs :=
        List.prefix_of_prefix_length_le (List.prefix_append _ _) hbs (by omega)
      have hbs' : bs' <+: it.sent ++ wire c items := (List.prefix_append_right_inj _).mp hbs
      obtain ⟨hkind, hpayload⟩ := hp₁.payload hfair₁ c
      rw [netMessages_cons c it.cpu it.name it.len bs' hnative]
      change UpTo (it :: items) ((it.hdr c, bs'.take (it.hdr c).payload) ::
        netMessages fuel (some !c.big) (bs'.drop (it.hdr c).payload))
      rw [hpayload]
      rw [hsent₁] at hbs'
      by_cases hle : it.data.length ≤ bs'.length
      · obtain ⟨rest, rfl⟩ : it.data <+: bs' :=
          List.prefix_of_prefix_length_le (List.prefix_append _ _) hbs' hle
        rw [List.take_left, List.drop_left]
        refine ⟨rfl, rfl, hkind, List.prefix_refl _, fun _ => rfl, ?_⟩
        exact ih hp hsent hfair (.inr rfl) fuel ((List.prefix_append_right_inj _).mp hbs')
      · have hle' := (not_le.mp hle).le
        rw [List.take_of_length_le hle', List.drop_of_length_le hle', netMessages_nil]
        refine ⟨rfl, rfl, hkind, ?_, fun h => absurd rfl h, by rw [UpTo]; trivial⟩
        exact List.prefix_of_prefix_length_le hbs' (List.prefix_append _ _) hle'

/-- Two blocks, sent and received byte by byte here and there. -/
def twoBlocks : List NetBuf :=
  [{ name := sda, cpu := 0, buf := [1, 2, 3], ne_nil := by simp, length_lt := by decide },
    { name := sda, cpu := 0, buf := [4, 5], ne_nil := by simp, length_lt := by decide }]

def inPieces : List Call := [.moved 1, .moved 40] ++ List.replicate 200 (.moved 2)

/-- A `send` fails in the data of the second block. -/
def cutShort : List Call := [.moved 64, .moved 1, .moved 9, .moved 60, .moved 4, .moved 1, .failed]

end Blktrace.Server
