import Blktrace.Server.Lifetime
import Blktrace.Server.Service
import Blktrace.Server.Wire

/-!
# What a client sends, and what the server stores

`flush_subbuf_net` and `handle_pfds_netclient` send a header with the length of a block, and the
block behind it. The server tells the block from an open and from a close by that length alone.
-/

namespace Blktrace.Server

open Tracer

/-! ## The client -/

/-- What the `len` of a header says that it is. -/
inductive Kind
  | opening | closing | data
deriving DecidableEq

def kindOf (len : UInt32) : Kind :=
  if len = 0 then .opening else if len = 1 then .closing else .data

/-- A header that a client sends, with what it stands for: `data` is the block, and `sent` is what is
sent behind the header. -/
structure Item where
  kind : Kind
  name : ButsName
  cpu : UInt32
  len : UInt32
  data : List UInt8 := []
  sent : List UInt8 := []

/-- `net_send_open`. -/
def netSendOpen (dev : ButsName × UInt32) : Item :=
  { kind := .opening, name := dev.1, cpu := dev.2, len := 0 }

/-- `net_send_close`. The CPU is the number of drops. -/
def netSendClose (dev : ButsName × UInt32) : Item :=
  { kind := .closing, name := dev.1, cpu := dev.2, len := 1 }

/-- A trace buffer that a tracer has read into. -/
structure NetBuf where
  name : ButsName
  cpu : UInt32
  buf : List UInt8
  ne_nil : buf ≠ []
  /-- `len` is an `int`. -/
  length_lt : buf.length < 2 ^ 31

def flushSubbufNet (tb : NetBuf) : Item :=
  { kind := .data, name := tb.name, cpu := tb.cpu, len := UInt32.ofNat tb.buf.length
    data := tb.buf, sent := tb.buf }

/-- The most that one call of `sendfile` transfers. -/
def sendfileMax : ℕ := 0x7ffff000

/-- A relay file, with the sizes that `fstat` finds, one after another. -/
structure Relay where
  name : ButsName
  cpu : UInt32
  trace : ℕ → UInt8
  sizes : List ℕ
  sorted : sizes.Pairwise (· ≤ ·)
  /-- `st_size` is an `off_t`. -/
  lt : ∀ size ∈ sizes, size < 2 ^ 63

/-- The bytes from `offset` on. -/
def slice (trace : ℕ → UInt8) (offset count : ℕ) : List UInt8 :=
  (List.range count).map fun i => trace (offset + i)

/-- `handle_pfds_netclient`, for one file. `pos` is the offset of `ifd`, from which `sendfile`
goes on. -/
def handlePfdsNetclient (relay : Relay) : ℕ → ℕ → List ℕ → List Item
  | _, _, [] => []
  | dataQueued, pos, size :: sizes =>
    if dataQueued < size then
      let ready := UInt32.ofNat (size - dataQueued)
      let count := min ready.toNat sendfileMax
      { kind := .data, name := relay.name, cpu := relay.cpu, len := ready
        data := slice relay.trace dataQueued (size - dataQueued)
        sent := slice relay.trace pos count } :: handlePfdsNetclient relay size (pos + count) sizes
    else handlePfdsNetclient relay dataQueued pos sizes

/-- Where the data of a connection comes from, in either mode. -/
inductive Source
  | send (bufs : List NetBuf)
  | sendfile (relay : Relay)

namespace Source

def blocks : Source → List Item
  | send bufs => bufs.map flushSubbufNet
  | sendfile relay => handlePfdsNetclient relay 0 0 relay.sizes

/-- The most bytes that a block may have. -/
def limit : Source → ℕ
  | send _ => 2 ^ 31 - 1
  | sendfile _ => sendfileMax

end Source

/-- A connection of a client: opens, data, and as many closes. -/
structure Conn where
  opens : List (ButsName × UInt32)
  source : Source
  closes : List (ButsName × UInt32)
  length_closes : closes.length = opens.length
  opened : source.blocks ≠ [] → opens ≠ []

def Conn.items (conn : Conn) : List Item :=
  conn.opens.map netSendOpen ++ conn.source.blocks ++ conn.closes.map netSendClose

/-- The bytes of a list of items. -/
def wire (c : NetClient) (items : List Item) : List UInt8 :=
  items.flatMap fun it => netSendHeader c it.cpu it.name it.len ++ it.sent

/-- What the server takes off a connection. -/
def received (bs : List UInt8) : List (NetHdr (List UInt8) × List UInt8) :=
  netMessages bs.length none bs

/-- A message is what it was meant to be. -/
structure Reads (it : Item) (m : NetHdr (List UInt8) × List UInt8) : Prop where
  name : m.1.butsName = it.name.chars
  cpu : m.1.cpu = it.cpu
  kind : kindOf m.1.len = it.kind
  data : m.2 = it.data

/-! ## One connection -/

/-- How an item comes about. -/
structure Item.Proper (it : Item) : Prop where
  kind : it.kind ≠ .data → kindOf it.len = it.kind ∧ it.data = []
  len : it.kind = .data → it.len = UInt32.ofNat it.data.length
  sent_le : it.sent.length ≤ it.data.length

theorem length_slice (trace : ℕ → UInt8) (offset count : ℕ) :
    (slice trace offset count).length = count := by
  simp [slice]

theorem netMessages_cons (c : NetClient) (cpu : UInt32) (name : ButsName) (len : UInt32)
    (bs : List UInt8) {native : Option Bool} (hnative : native = none ∨ native = some !c.big)
    (fuel : ℕ) :
    netMessages (fuel + 1) native (netSendHeader c cpu name len ++ bs) =
      let hdr : NetHdr (List UInt8) :=
        { butsName := name.chars, cpu := cpu, maxCpus := c.ncpus, len := len }
      (hdr, bs.take hdr.payload) :: netMessages fuel (some !c.big) (bs.drop hdr.payload) := by
  have hlen : ¬ (netSendHeader c cpu name len ++ bs).length < netHdrSize := by
    rw [List.length_append, length_netSendHeader]
    omega
  have hdrop : (netSendHeader c cpu name len ++ bs).drop netHdrSize = bs := by
    rw [← length_netSendHeader c cpu name len, List.drop_left]
  have hlook : nativeOf native (netSendHeader c cpu name len ++ bs) = some !c.big := by
    rcases hnative with rfl | rfl
    · exact checkDataEndianness_netSendHeader c cpu name len bs
    · rfl
  have hcheck : checkMagic blkIoTraceMagic = true := by decide
  rw [netMessages, if_neg hlen, hlook]
  dsimp only
  rw [hdrMagic_netSendHeader, if_pos hcheck, hdrToCpu_netSendHeader, hdrop]

theorem netMessages_nil (fuel : ℕ) (native : Option Bool) : netMessages fuel native [] = [] := by
  cases fuel with
  | zero => rfl
  | succ fuel => rfl

theorem kindOf_data {len : UInt32} : kindOf len = .data ↔ len ≠ 0 ∧ len ≠ 1 := by
  unfold kindOf
  split_ifs with hzero hone <;> simp [*]

theorem payload_of_data {ν : Type*} {hdr : NetHdr ν} (h : kindOf hdr.len = .data) :
    hdr.payload = hdr.len.toNat := by
  obtain ⟨hzero, hone⟩ := kindOf_data.mp h
  rw [NetHdr.payload, if_neg (not_or.mpr ⟨hzero, hone⟩)]

theorem payload_of_not_data {ν : Type*} {hdr : NetHdr ν} (h : kindOf hdr.len ≠ .data) :
    hdr.payload = 0 := by
  rw [NetHdr.payload, if_pos]
  by_contra hnot
  exact h (kindOf_data.mpr (not_or.mp hnot))

namespace Item

variable {it : Item}

/-- A length that a header can say, and that says data. -/
def Fair (it : Item) : Prop := it.kind = .data → 2 ≤ it.data.length ∧ it.data.length < 2 ^ 32

/-- The header that the server reads for it. -/
def hdr (c : NetClient) (it : Item) : NetHdr (List UInt8) :=
  { butsName := it.name.chars, cpu := it.cpu, maxCpus := c.ncpus, len := it.len }

theorem Proper.fair_of_kind (hp : it.Proper) (hkind : kindOf it.len = it.kind)
    (hlen : it.data.length ≤ it.len.toNat) : it.Fair := by
  intro hdata
  have hword := hp.len hdata
  have hmod : it.len.toNat = it.data.length % 2 ^ 32 := by
    rw [hword, UInt32.toNat_ofNat']
  have hlt := Nat.mod_lt it.data.length (show 0 < 2 ^ 32 by decide)
  obtain ⟨hzero, hone⟩ := kindOf_data.mp (hkind.trans hdata)
  have hzero' : it.len.toNat ≠ 0 := fun h => hzero (UInt32.toNat_inj.mp h)
  have hone' : it.len.toNat ≠ 1 := fun h => hone (UInt32.toNat_inj.mp h)
  omega

theorem Proper.payload (hp : it.Proper) (hf : it.Fair) (c : NetClient) :
    kindOf it.len = it.kind ∧ (it.hdr c).payload = it.data.length := by
  by_cases hdata : it.kind = .data
  · obtain ⟨hge, hlt⟩ := hf hdata
    have hnat : it.len.toNat = it.data.length := by
      rw [hp.len hdata, UInt32.toNat_ofNat']
      exact Nat.mod_eq_of_lt hlt
    have hkind : kindOf it.len = .data := by
      rw [kindOf_data]
      constructor
      · rintro hzero
        rw [hzero] at hnat
        change 0 = _ at hnat
        omega
      · rintro hone
        rw [hone] at hnat
        change 1 = _ at hnat
        omega
    exact ⟨hkind.trans hdata.symm, (payload_of_data hkind).trans hnat⟩
  · obtain ⟨hkind, hnil⟩ := hp.kind hdata
    refine ⟨hkind, ?_⟩
    rw [hnil, payload_of_not_data (show kindOf (it.hdr c).len ≠ .data from hkind ▸ hdata)]
    rfl

/-- An item is read as what it is if and only if its length is fair. -/
theorem Proper.reads_data_iff (hp : it.Proper) (hsent : it.sent = it.data) (c : NetClient)
    (rest : List UInt8) :
    Reads it (it.hdr c, (it.sent ++ rest).take (it.hdr c).payload) ↔ it.Fair := by
  constructor
  · intro hr
    refine hp.fair_of_kind hr.kind ?_
    have hle : it.data.length ≤ (it.hdr c).payload := by
      have hlen := congrArg List.length hr.data
      rw [List.length_take] at hlen
      omega
    refine hle.trans ?_
    unfold NetHdr.payload
    split_ifs
    · exact Nat.zero_le _
    · exact le_refl _
  · intro hf
    obtain ⟨hkind, hpayload⟩ := hp.payload hf c
    refine ⟨rfl, rfl, hkind, ?_⟩
    rw [hpayload, hsent]
    exact List.take_left

end Item

theorem wire_cons (c : NetClient) (it : Item) (items : List Item) :
    wire c (it :: items) = netSendHeader c it.cpu it.name it.len ++ (it.sent ++ wire c items) := by
  simp [wire]

/-- Where everything is sent that is meant, the messages are the items if and only if all lengths are
fair. -/
theorem forall₂_reads_iff (c : NetClient) {items : List Item} (hp : ∀ it ∈ items, it.Proper)
    (hsent : ∀ it ∈ items, it.sent = it.data) {native : Option Bool}
    (hnative : native = none ∨ native = some !c.big) {fuel : ℕ}
    (hfuel : (wire c items).length ≤ fuel) :
    List.Forall₂ Reads items (netMessages fuel native (wire c items)) ↔ ∀ it ∈ items, it.Fair := by
  induction items generalizing native fuel with
  | nil =>
    rw [wire, List.flatMap_nil, netMessages_nil]
    simp
  | cons it items ih =>
    obtain ⟨hp₁, hp⟩ := List.forall_mem_cons.mp hp
    obtain ⟨hsent₁, hsent⟩ := List.forall_mem_cons.mp hsent
    have hlen : (wire c (it :: items)).length = netHdrSize + (it.sent.length + (wire c items).length) := by
      rw [wire_cons, List.length_append, length_netSendHeader, List.length_append]
    rw [hlen] at hfuel
    obtain ⟨fuel, rfl⟩ : ∃ n, fuel = n + 1 := ⟨fuel - 1, by unfold netHdrSize at hfuel; omega⟩
    rw [wire_cons, netMessages_cons c it.cpu it.name it.len _ hnative, List.forall_mem_cons]
    dsimp only
    rw [List.forall₂_cons]
    change Reads it (it.hdr c, (it.sent ++ wire c items).take (it.hdr c).payload) ∧ List.Forall₂ Reads
      items (netMessages fuel (some !c.big) ((it.sent ++ wire c items).drop (it.hdr c).payload)) ↔ _
    rw [hp₁.reads_data_iff hsent₁]
    refine and_congr_right fun hf => ?_
    rw [(hp₁.payload hf c).2, ← hsent₁, List.drop_left]
    exact ih hp hsent (.inr rfl) (by unfold netHdrSize at hfuel; omega)

/-- A message takes a header and its data off the bytes. -/
theorem sum_netMessages (fuel : ℕ) (native : Option Bool) (bs : List UInt8) :
    ((netMessages fuel native bs).map fun m => netHdrSize + m.2.length).sum ≤ bs.length := by
  induction fuel generalizing native bs with
  | zero => simp [netMessages]
  | succ fuel ih =>
    unfold netMessages
    split_ifs with hshort
    · simp
    cases nativeOf native bs with
    | none => simp
    | some native =>
      dsimp only
      split_ifs with hmagic
      · have hrest := ih (some native) ((bs.drop netHdrSize).drop (hdrToCpu native bs).payload)
        simp only [List.map_cons, List.sum_cons]
        simp only [List.length_drop] at hrest
        simp only [List.length_take, List.length_drop]
        omega
      · simp

/-- No more is received than the header says. -/
theorem length_le_payload (fuel : ℕ) (native : Option Bool) (bs : List UInt8) :
    ∀ m ∈ netMessages fuel native bs, m.2.length ≤ m.1.payload := by
  induction fuel generalizing native bs with
  | zero => exact fun m hm => nomatch hm
  | succ fuel ih =>
    unfold netMessages
    split_ifs with hshort
    · exact fun m hm => nomatch hm
    cases nativeOf native bs with
    | none => exact fun m hm => nomatch hm
    | some native =>
      dsimp only
      split_ifs with hmagic
      · rw [List.forall_mem_cons]
        exact ⟨List.length_take_le _ _, ih _ _⟩
      · exact fun m hm => nomatch hm

theorem length_wire (c : NetClient) (items : List Item) :
    (wire c items).length = (items.map fun it => netHdrSize + it.sent.length).sum := by
  induction items with
  | nil => rfl
  | cons it items ih =>
    rw [wire_cons, List.length_append, length_netSendHeader, List.length_append, ih, List.map_cons,
      List.sum_cons, Nat.add_assoc]

theorem map_length_of_reads {items : List Item} {ms : List (NetHdr (List UInt8) × List UInt8)}
    (h : List.Forall₂ Reads items ms) :
    (items.map fun it => netHdrSize + it.data.length) = ms.map fun m => netHdrSize + m.2.length := by
  induction h with
  | nil => rfl
  | cons hr _ ih => rw [List.map_cons, List.map_cons, ih, hr.data]

/-- Where the messages are the items, everything was sent. -/
theorem length_sent_of_reads (c : NetClient) {items : List Item} (hp : ∀ it ∈ items, it.Proper)
    {fuel : ℕ} {native : Option Bool}
    (h : List.Forall₂ Reads items (netMessages fuel native (wire c items))) :
    ∀ it ∈ items, it.sent.length = it.data.length := by
  have hsum := sum_netMessages fuel native (wire c items)
  rw [← map_length_of_reads h, length_wire] at hsum
  intro it hit
  by_contra hne
  have hlt := List.sum_lt_sum (l := items) (fun it => netHdrSize + it.sent.length)
    (fun it => netHdrSize + it.data.length) (fun it hit => Nat.add_le_add_left (hp it hit).sent_le _)
    ⟨it, hit, Nat.add_lt_add_left (lt_of_le_of_ne (hp it hit).sent_le hne) _⟩
  exact absurd hlt (not_lt.mpr hsum)

/-! ## The two modes -/

theorem netSendOpen_proper (dev : ButsName × UInt32) : (netSendOpen dev).Proper where
  kind _ := ⟨rfl, rfl⟩
  len h := nomatch h
  sent_le := le_refl 0

theorem netSendClose_proper (dev : ButsName × UInt32) : (netSendClose dev).Proper where
  kind _ := ⟨rfl, rfl⟩
  len h := nomatch h
  sent_le := le_refl 0

theorem flushSubbufNet_proper (tb : NetBuf) : (flushSubbufNet tb).Proper where
  kind h := absurd rfl h
  len _ := rfl
  sent_le := le_refl _

/-- What `sendfile` mode makes of the sizes. -/
theorem handlePfdsNetclient_proper (relay : Relay) (queued pos : ℕ) (sizes : List ℕ) :
    ∀ it ∈ handlePfdsNetclient relay queued pos sizes, it.Proper ∧ it.kind = .data ∧
      (it.sent.length = it.data.length ↔ it.data.length ≤ sendfileMax) := by
  induction sizes generalizing queued pos with
  | nil =>
    intro it hit
    cases hit
  | cons size sizes ih =>
    unfold handlePfdsNetclient
    split_ifs with hgrown
    · dsimp only
      rw [List.forall_mem_cons]
      refine ⟨⟨⟨fun h => absurd rfl h, fun _ => ?_, ?_⟩, rfl, ?_⟩, ih _ _⟩
      · simp only [length_slice]
      · simp only [length_slice, UInt32.toNat_ofNat']
        exact (min_le_left _ _).trans (Nat.mod_le _ _)
      · simp only [length_slice, UInt32.toNat_ofNat']
        unfold sendfileMax
        omega
    · exact ih queued pos

/-- As long as everything is sent, the file is read where the blocks begin. -/
theorem handlePfdsNetclient_sent (relay : Relay) (queued : ℕ) (sizes : List ℕ)
    (h : ∀ it ∈ handlePfdsNetclient relay queued queued sizes, it.sent.length = it.data.length) :
    ∀ it ∈ handlePfdsNetclient relay queued queued sizes, it.sent = it.data := by
  induction sizes generalizing queued with
  | nil =>
    intro it hit
    cases hit
  | cons size sizes ih =>
    unfold handlePfdsNetclient at h ⊢
    split_ifs at h ⊢ with hgrown
    · dsimp only at h ⊢
      rw [List.forall_mem_cons] at h ⊢
      obtain ⟨hlen, hrest⟩ := h
      simp only [length_slice] at hlen
      rw [hlen, Nat.add_sub_cancel' hgrown.le] at hrest ⊢
      exact ⟨rfl, ih size hrest⟩
    · exact ih queued h

namespace Source

variable (source : Source)

theorem proper : ∀ it ∈ source.blocks, it.Proper ∧ it.kind = .data := by
  cases source with
  | send bufs => exact List.forall_mem_map.mpr fun tb _ => ⟨flushSubbufNet_proper tb, rfl⟩
  | sendfile relay =>
    intro it hit
    obtain ⟨hp, hkind, -⟩ := handlePfdsNetclient_proper relay 0 0 relay.sizes it hit
    exact ⟨hp, hkind⟩

/-- Everything is sent, if and only if no block is too long. -/
theorem length_sent_iff : ∀ it ∈ source.blocks,
    (it.sent.length = it.data.length ↔ it.data.length ≤ source.limit) := by
  cases source with
  | send bufs =>
    refine List.forall_mem_map.mpr fun tb _ => ?_
    have hlt := tb.length_lt
    refine iff_of_true rfl ?_
    show tb.buf.length ≤ 2 ^ 31 - 1
    omega
  | sendfile relay =>
    intro it hit
    exact (handlePfdsNetclient_proper relay 0 0 relay.sizes it hit).2.2

theorem sent_eq (h : ∀ it ∈ source.blocks, it.sent.length = it.data.length) :
    ∀ it ∈ source.blocks, it.sent = it.data := by
  cases source with
  | send bufs => exact List.forall_mem_map.mpr fun tb _ => rfl
  | sendfile relay => exact handlePfdsNetclient_sent relay 0 relay.sizes h

theorem limit_lt : source.limit < 2 ^ 32 := by
  cases source with
  | send bufs => exact (by decide : 2 ^ 31 - 1 < 2 ^ 32)
  | sendfile relay => exact (by decide : sendfileMax < 2 ^ 32)

end Source

namespace Conn

variable (conn : Conn)

theorem forall_items {p : Item → Prop} : (∀ it ∈ conn.items, p it) ↔
    (∀ dev ∈ conn.opens, p (netSendOpen dev)) ∧ (∀ it ∈ conn.source.blocks, p it) ∧
      ∀ dev ∈ conn.closes, p (netSendClose dev) := by
  rw [items, List.forall_mem_append, List.forall_mem_append, List.forall_mem_map, List.forall_mem_map,
    and_assoc]

theorem proper : ∀ it ∈ conn.items, it.Proper := by
  rw [forall_items]
  exact ⟨fun dev _ => netSendOpen_proper dev, fun it hit => (conn.source.proper it hit).1,
    fun dev _ => netSendClose_proper dev⟩

/-- The lengths that a block may have. -/
def Sound : Prop := ∀ it ∈ conn.source.blocks, 2 ≤ it.data.length ∧ it.data.length ≤ conn.source.limit

/-- **A connection is read as what it is** if and only if its blocks have such lengths. -/
theorem reads_sent_iff (c : NetClient) :
    List.Forall₂ Reads conn.items (received (wire c conn.items)) ↔ conn.Sound := by
  constructor
  · intro h
    have hlen := length_sent_of_reads c conn.proper h
    have hblocks := (conn.forall_items.mp hlen).2.1
    have hall : ∀ it ∈ conn.items, it.sent = it.data := by
      rw [forall_items]
      exact ⟨fun _ _ => rfl, conn.source.sent_eq hblocks, fun _ _ => rfl⟩
    have hfair := (forall₂_reads_iff c conn.proper hall (.inl rfl) (le_refl _)).mp h
    intro it hit
    have hit' := ((conn.forall_items.mp hfair).2.1 it hit) (conn.source.proper it hit).2
    exact ⟨hit'.1, (conn.source.length_sent_iff it hit).mp (hblocks it hit)⟩
  · intro hs
    have hall : ∀ it ∈ conn.items, it.sent = it.data := by
      rw [forall_items]
      refine ⟨fun _ _ => rfl, conn.source.sent_eq fun it hit => ?_, fun _ _ => rfl⟩
      exact (conn.source.length_sent_iff it hit).mpr (hs it hit).2
    refine (forall₂_reads_iff c conn.proper hall (.inl rfl) (le_refl _)).mpr ?_
    rw [forall_items]
    refine ⟨fun _ _ h => (nomatch h), fun it hit _ => ⟨(hs it hit).1, ?_⟩, fun _ _ h => (nomatch h)⟩
    exact lt_of_le_of_lt (hs it hit).2 conn.source.limit_lt

end Conn

end Blktrace.Server
