import Mathlib.Data.List.Forall2
import Blktrace.Server.Transfer

/-!
# From the client's files to the server's

The connections of a client, in whatever order the server takes their messages. Where all blocks have
lengths that a header can say, and the server is not made to exit, the files of the server are the
blocks, one behind the other.
-/

namespace Blktrace.Server

open Tracer

/-! ## Lists that correspond -/

section

variable {α β : Type*} {R : α → β → Prop}

theorem forall₂_append_left {as as' : List α} {l : List β} (h : List.Forall₂ R (as ++ as') l) :
    ∃ bs bs', l = bs ++ bs' ∧ List.Forall₂ R as bs ∧ List.Forall₂ R as' bs' := by
  induction as generalizing l with
  | nil => exact ⟨[], l, rfl, .nil, h⟩
  | cons a as ih =>
    obtain ⟨b, l', hb, hrest, rfl⟩ := List.forall₂_cons_left_iff.mp h
    obtain ⟨bs, bs', rfl, hbs, hbs'⟩ := ih hrest
    exact ⟨b :: bs, bs', rfl, .cons hb hbs, hbs'⟩

/-- What corresponds to a place. -/
theorem forall₂_place {l : List α} {bs : List β} {b : β} {bs' : List β}
    (h : List.Forall₂ R l (bs ++ b :: bs')) :
    ∃ as a as', l = as ++ a :: as' ∧ as.length = bs.length ∧ R a b := by
  induction bs generalizing l with
  | nil =>
    obtain ⟨a, as', ha, -, rfl⟩ := List.forall₂_cons_right_iff.mp h
    exact ⟨[], a, as', rfl, rfl, ha⟩
  | cons c bs ih =>
    obtain ⟨a, l', -, hrest, rfl⟩ := List.forall₂_cons_right_iff.mp h
    obtain ⟨as, a', as', rfl, hlen, ha'⟩ := ih hrest
    exact ⟨a :: as, a', as', rfl, by rw [List.length_cons, List.length_cons, hlen], ha'⟩

theorem forall_of_forall₂ {p : α → Prop} {q : β → Prop} (hpq : ∀ a b, R a b → p a → q b)
    {as : List α} {bs : List β} (h : List.Forall₂ R as bs) (hp : ∀ a ∈ as, p a) : ∀ b ∈ bs, q b := by
  induction h with
  | nil => exact fun b hb => nomatch hb
  | cons hab _ ih =>
    rw [List.forall_mem_cons] at hp ⊢
    exact ⟨hpq _ _ hab hp.1, ih hp.2⟩

theorem forall₂_imp_mem {Q : α → β → Prop} {as : List α} {bs : List β} (h : List.Forall₂ R as bs)
    (himp : ∀ a, ∀ b ∈ bs, R a b → Q a b) : List.Forall₂ Q as bs := by
  induction h with
  | nil => exact .nil
  | cons hab _ ih =>
    refine .cons (himp _ _ List.mem_cons_self hab) (ih fun a b hb => ?_)
    exact himp a b (List.mem_cons_of_mem _ hb)

theorem flatMap_of_forall₂ {γ : Type*} {f : α → List γ} {g : β → List γ} {as : List α} {bs : List β}
    (h : List.Forall₂ (fun a b => f a = g b) as bs) : as.flatMap f = bs.flatMap g := by
  induction h with
  | nil => rfl
  | cons hab _ ih => rw [List.flatMap_cons, List.flatMap_cons, hab, ih]

theorem flatMap_filter_of_nil {γ : Type*} {f : α → List γ} {p : α → Bool} (as : List α)
    (h : ∀ a ∈ as, p a = false → f a = []) : (as.filter p).flatMap f = as.flatMap f := by
  induction as with
  | nil => rfl
  | cons a as ih =>
    rw [List.forall_mem_cons] at h
    cases hp : p a with
    | true => rw [List.filter_cons_of_pos hp, List.flatMap_cons, List.flatMap_cons, ih h.2]
    | false =>
      rw [List.filter_cons_of_neg (by simp [hp]), List.flatMap_cons, h.1 hp, ih h.2, List.nil_append]

end

/-! ## A client -/

/-- The steps of the server that take the messages of a client, whose connection `conn` sends the
items of `conns conn`. No connection sends a close until the opens of all of them are through. -/
structure Delivery (c : NetClient) (conns : ℕ → Conn) (acts : List (Act (List UInt8))) : Prop where
  connected : ∀ as m bs, acts = as ++ .message m :: bs → .connect m.conn ∈ as
  messages : ∀ conn, ((msgs acts).filter fun m => m.conn = conn).map (fun m => (m.hdr, m.data)) =
    received (wire c (conns conn).items)
  barrier : ∀ as m bs, msgs acts = as ++ m :: bs →
    (conns m.conn).opens.length + (conns m.conn).source.blocks.length ≤
      (as.filter fun m' => m'.conn = m.conn).length →
    ∀ conn, (conns conn).opens.length ≤ (as.filter fun m' => m'.conn = conn).length
  opens : ∃ conn, (conns conn).opens ≠ []

namespace Conn

variable (conn : Conn)

/-- The file that a block is for. -/
def key (it : Item) : List UInt8 × ℕ := (it.name.chars, it.cpu.toNat)

/-- The blocks of the connection for a file. -/
def blocksFor (k : List UInt8 × ℕ) : List UInt8 :=
  conn.source.blocks.flatMap fun it => if key it = k then it.data else []

/-- Where an opening and where a closing stands among the items. -/
theorem kind_of_place {its : List Item} {it : Item} {its' : List Item}
    (h : conn.items = its ++ it :: its') :
    (it.kind = .opening → its.length < conn.opens.length) ∧
      (it.kind = .closing → conn.opens.length + conn.source.blocks.length ≤ its.length) := by
  have hget : conn.items[its.length]? = some it := by simp [h]
  rw [items] at hget
  by_cases hopen : its.length < conn.opens.length
  · refine ⟨fun _ => hopen, fun hkind => ?_⟩
    rw [List.append_assoc, List.getElem?_append_left (by simpa using hopen), List.getElem?_map] at hget
    obtain ⟨dev, -, rfl⟩ := Option.map_eq_some_iff.mp hget
    cases hkind
  rw [not_lt] at hopen
  rw [List.append_assoc, List.getElem?_append_right (by simpa using hopen), List.length_map] at hget
  by_cases hblock : its.length - conn.opens.length < conn.source.blocks.length
  · rw [List.getElem?_append_left hblock] at hget
    have hkind := (conn.source.proper it (List.mem_of_getElem? hget)).2
    rw [hkind]
    exact ⟨fun h => (by cases h), fun h => (by cases h)⟩
  · refine ⟨fun hkind => ?_, fun _ => by omega⟩
    rw [List.getElem?_append_right (not_lt.mp hblock), List.getElem?_map] at hget
    obtain ⟨dev, -, rfl⟩ := Option.map_eq_some_iff.mp hget
    cases hkind

end Conn

theorem isOpen_eq_kind (m : Msg (List UInt8)) : m.isOpen = true ↔ kindOf m.hdr.len = .opening := by
  rw [isOpen_iff, kindOf]
  split_ifs <;> simp [*]

theorem isClose_eq_kind (m : Msg (List UInt8)) : m.isClose = true ↔ kindOf m.hdr.len = .closing := by
  rw [isClose_iff, kindOf]
  split_ifs with hzero hone <;> simp [*]

theorem isData_eq_kind (m : Msg (List UInt8)) : m.isData = true ↔ kindOf m.hdr.len = .data := by
  rw [isData_iff, kindOf_data]

/-- What the server takes for an item. -/
def ReadsAs (it : Item) (m : Msg (List UInt8)) : Prop := Reads it (m.hdr, m.data)

namespace Delivery

variable {c : NetClient} {conns : ℕ → Conn} {acts : List (Act (List UInt8))}

/-- The messages of a connection. -/
def mine (acts : List (Act (List UInt8))) (conn : ℕ) : List (Msg (List UInt8)) :=
  (msgs acts).filter fun m => m.conn = conn

theorem readsAs (hd : Delivery c conns acts)
    (hr : ∀ conn, List.Forall₂ Reads (conns conn).items (received (wire c (conns conn).items)))
    (conn : ℕ) : List.Forall₂ ReadsAs (conns conn).items (mine acts conn) := by
  have h := hr conn
  rw [← hd.messages conn, List.forall₂_map_right_iff] at h
  exact h

/-- The item that a message was taken for. -/
theorem place (hr : ∀ conn, List.Forall₂ ReadsAs (conns conn).items (mine acts conn))
    {as : List (Msg (List UInt8))} {m : Msg (List UInt8)} {bs : List (Msg (List UInt8))}
    (hacts : msgs acts = as ++ m :: bs) :
    ∃ its it its', (conns m.conn).items = its ++ it :: its' ∧
      its.length = (as.filter fun m' => m'.conn = m.conn).length ∧ ReadsAs it m := by
  have h := hr m.conn
  rw [mine, hacts, List.filter_append, List.filter_cons_of_pos (by simp)] at h
  exact forall₂_place h

/-- Read as what they are, the messages are those of a client. -/
theorem client (hd : Delivery c conns acts)
    (hr : ∀ conn, List.Forall₂ ReadsAs (conns conn).items (mine acts conn)) : Client acts where
  connected := hd.connected
  orderly conn := by
    obtain ⟨front, closes, hsplit, hfront, hcloses⟩ := forall₂_append_left (hr conn)
    obtain ⟨opens, blocks, rfl, hopens, hblocks⟩ := forall₂_append_left hfront
    refine ⟨opens, blocks, closes, hsplit, ?_, ?_, ?_, ?_, ?_⟩
    · refine forall_of_forall₂ (p := fun it => it.kind = .opening) (fun it m h hit => ?_) hopens ?_
      · exact (isOpen_eq_kind m).mpr (h.kind.trans hit)
      · exact List.forall_mem_map.mpr fun _ _ => rfl
    · refine forall_of_forall₂ (p := fun it => it.kind = .data) (fun it m h hit => ?_) hblocks ?_
      · exact (isData_eq_kind m).mpr (h.kind.trans hit)
      · exact fun it hit => ((conns conn).source.proper it hit).2
    · refine forall_of_forall₂ (p := fun it => it.kind = .closing) (fun it m h hit => ?_) hcloses ?_
      · exact (isClose_eq_kind m).mpr (h.kind.trans hit)
      · exact List.forall_mem_map.mpr fun _ _ => rfl
    · rw [← hcloses.length_eq, ← hopens.length_eq, List.length_map, List.length_map]
      exact (conns conn).length_closes
    · intro hne hnil
      subst hnil
      have hnone : (conns conn).opens = [] := by simpa using hopens.length_eq
      refine (conns conn).opened (fun hblocks' => hne ?_) hnone
      rw [hblocks'] at hblocks
      exact List.forall₂_nil_left_iff.mp hblocks
  barrier as m bs hacts hclose m' hm' := by
    by_contra hopen
    have hopen := Bool.eq_true_of_not_eq_false hopen
    obtain ⟨bs₁, bs₂, rfl⟩ := List.append_of_mem hm'
    obtain ⟨its, it, its', hits, hlen, hread⟩ := place hr hacts
    have hclosing := ((conns m.conn).kind_of_place hits).2
      (hread.kind.symm.trans ((isClose_eq_kind m).mp hclose))
    rw [hlen] at hclosing
    have hall := hd.barrier as m _ hacts hclosing m'.conn
    have hacts' : msgs acts = (as ++ m :: bs₁) ++ m' :: bs₂ := by simp [hacts]
    obtain ⟨its, it, its', hits, hlen, hread⟩ := place hr hacts'
    have hopening := ((conns m'.conn).kind_of_place hits).1
      (hread.kind.symm.trans ((isOpen_eq_kind m').mp hopen))
    rw [hlen, List.filter_append, List.length_append] at hopening
    omega
  opens := by
    obtain ⟨conn, hne⟩ := hd.opens
    obtain ⟨front, closes, hsplit, hfront, -⟩ := forall₂_append_left (hr conn)
    obtain ⟨opens, blocks, rfl, hopens, -⟩ := forall₂_append_left hfront
    obtain ⟨dev, rest, hcons⟩ := List.exists_cons_of_ne_nil hne
    rw [hcons, List.map_cons] at hopens
    obtain ⟨m, ms, hm, -, rfl⟩ := List.forall₂_cons_left_iff.mp hopens
    refine ⟨m, ?_, (isOpen_eq_kind m).mpr hm.kind⟩
    have hmem : m ∈ mine acts conn := by simp [hsplit]
    exact List.mem_of_mem_filter hmem

/-- The messages of a connection store its blocks. -/
theorem flatMap_mine (hd : Delivery c conns acts)
    (hr : ∀ conn, List.Forall₂ ReadsAs (conns conn).items (mine acts conn)) (conn : ℕ)
    (k : List UInt8 × ℕ) : (mine acts conn).flatMap (·.blockOf k) = (conns conn).blocksFor k := by
  have hlen : ∀ m ∈ mine acts conn, m.data.length ≤ m.hdr.payload := by
    intro m hm
    have hmem : (m.hdr, m.data) ∈ received (wire c (conns conn).items) := by
      rw [← hd.messages conn]
      exact List.mem_map_of_mem hm
    exact length_le_payload _ _ _ _ hmem
  have hitems : List.Forall₂ (fun it m => (if it.kind = .data ∧ Conn.key it = k then it.data else []) =
      m.blockOf k) (conns conn).items (mine acts conn) := by
    refine forall₂_imp_mem (hr conn) fun it m hm hread => ?_
    have hkey : (m.hdr.butsName, m.hdr.cpu.toNat) = Conn.key it := by
      rw [Conn.key, hread.name, hread.cpu]
    have hdata : m.isData = true ↔ it.kind = .data := by
      rw [isData_eq_kind, hread.kind]
    unfold Msg.blockOf
    rw [hkey]
    simp only [hdata]
    split_ifs with hblock
    · have hpayload := hlen m hm
      rw [payload_of_data ((isData_eq_kind m).mp (hdata.mpr hblock.1))] at hpayload
      rw [List.take_of_length_le hpayload]
      exact hread.data.symm
    · rfl
  rw [← flatMap_of_forall₂ hitems, Conn.items, List.flatMap_append, List.flatMap_append]
  have hopens : ((conns conn).opens.map netSendOpen).flatMap
      (fun it => if it.kind = .data ∧ Conn.key it = k then it.data else []) = [] := by
    rw [List.flatMap_eq_nil_iff, List.forall_mem_map]
    exact fun dev _ => if_neg fun h => (by cases h.1)
  have hcloses : ((conns conn).closes.map netSendClose).flatMap
      (fun it => if it.kind = .data ∧ Conn.key it = k then it.data else []) = [] := by
    rw [List.flatMap_eq_nil_iff, List.forall_mem_map]
    exact fun dev _ => if_neg fun h => (by cases h.1)
  rw [hopens, hcloses, List.nil_append, List.append_nil, Conn.blocksFor]
  apply List.flatMap_congr
  intro it hit
  simp [((conns conn).source.proper it hit).2]

end Delivery

/-- The transfer is faithful: the server gets through, every header is taken for what it was sent for,
with its data, and the files are the blocks. A file gets its blocks over one connection. -/
structure Faithful (S : Settings) (ndevs : ℕ) (c : NetClient) (conns : ℕ → Conn)
    (acts : List (Act (List UInt8))) : Prop where
  ends : (Runs.run (Host.step S ndevs) {} acts).halted = false
  reads : ∀ conn, List.Forall₂ Reads (conns conn).items (received (wire c (conns conn).items))
  files : ∀ conn k, (∀ conn', conn' ≠ conn → (conns conn').blocksFor k = []) →
    (Runs.run (Host.step S ndevs) {} acts).files k = (conns conn).blocksFor k

/-- **Transfer.** -/
theorem faithful_iff {S : Settings} {ndevs : ℕ} {c : NetClient} {conns : ℕ → Conn}
    {acts : List (Act (List UInt8))} (hd : Delivery c conns acts) :
    Faithful S ndevs c conns acts ↔
      (∀ conn, (conns conn).Sound) ∧ Runs.Along (Host.step S ndevs) (Serves S ndevs) {} acts := by
  constructor
  · intro hf
    exact ⟨fun conn => ((conns conn).reads_sent_iff c).mp (hf.reads conn), (run_halted_iff acts).mp hf.ends⟩
  · rintro ⟨hsound, hserves⟩
    have hends := (run_halted_iff acts).mpr hserves
    have hreads := fun conn => ((conns conn).reads_sent_iff c).mpr (hsound conn)
    have hmine := hd.readsAs hreads
    refine ⟨hends, hreads, fun conn k halone => ?_⟩
    have hstored : ∀ k, (Runs.run (Host.step S ndevs) {} acts).files k =
        (msgs acts).flatMap (·.blockOf k) := by
      cases Host.phase (hd.client hmine) hends acts (List.prefix_refl acts) with
      | alive _ hi _ => exact hi.files
      | done _ hi => exact hi.files
    rw [hstored, ← hd.flatMap_mine hmine conn k, Delivery.mine, flatMap_filter_of_nil]
    intro m hm hother
    have hnone := halone m.conn (by simpa using hother)
    rw [← hd.flatMap_mine hmine, List.flatMap_eq_nil_iff] at hnone
    exact hnone m (List.mem_filter.mpr ⟨hm, by simp⟩)

/-! ## A client of one connection -/

/-- A connection that nothing is sent on. -/
def idle : Conn where
  opens := []
  source := .send []
  closes := []
  length_closes := rfl
  opened h := absurd rfl h

def alone (conn : Conn) : ℕ → Conn
  | 0 => conn
  | _ + 1 => idle

def takes (c : NetClient) (conn : Conn) : List (Act (List UInt8)) :=
  .connect 0 :: (received (wire c conn.items)).map fun m => .message { conn := 0, hdr := m.1, data := m.2 }

theorem msgs_takes (c : NetClient) (conn : Conn) : msgs (takes c conn) =
    (received (wire c conn.items)).map fun m => { conn := 0, hdr := m.1, data := m.2 } := by
  rw [takes, msgs, List.filterMap_cons_none rfl, List.filterMap_map]
  exact congrFun List.filterMap_eq_map' _

theorem delivery_alone (c : NetClient) {conn : Conn} (hopens : conn.opens ≠ []) :
    Delivery c (alone conn) (takes c conn) where
  connected as m bs h := by
    cases as with
    | nil => cases (List.cons.inj h).1
    | cons a as =>
      obtain ⟨rfl, hrest⟩ := List.cons.inj h
      have hmem : Act.message m ∈ as ++ .message m :: bs := by simp
      change _ = as ++ .message m :: bs at hrest
      rw [← hrest] at hmem
      obtain ⟨m', -, hm'⟩ := List.mem_map.mp hmem
      obtain rfl := Act.message.inj hm'
      exact List.mem_cons_self
  messages n := by
    rw [msgs_takes, List.filter_map, List.map_map]
    cases n with
    | zero =>
      rw [List.filter_eq_self.mpr fun m _ => by simp]
      exact List.map_id _
    | succ n =>
      rw [List.filter_eq_nil_iff.mpr fun m _ => by simp]
      rfl
  barrier as m bs h hlen n := by
    have hmem : m ∈ msgs (takes c conn) := by simp [h]
    rw [msgs_takes] at hmem
    obtain ⟨m', -, rfl⟩ := List.mem_map.mp hmem
    cases n with
    | zero => exact (Nat.le_add_right _ _).trans hlen
    | succ n => exact Nat.zero_le _
  opens := ⟨0, hopens⟩

/-- `sda`. -/
def sda : ButsName where
  chars := [115, 100, 97]
  length_lt := by decide
  not_mem := by decide

def client : NetClient :=
  { ncpus := 1, pid := 42, bufSize := 524288, bufNr := 4, pagesize := 4096, big := true }

/-- A device, and one block. -/
def oneBlock (buf : List UInt8) (hne : buf ≠ []) (hlt : buf.length < 2 ^ 31) : Conn where
  opens := [(sda, 0)]
  source := .send [{ name := sda, cpu := 0, buf := buf, ne_nil := hne, length_lt := hlt }]
  closes := [(sda, 0)]
  length_closes := rfl
  opened _ := List.cons_ne_nil _ _

/-- A block of two bytes arrives. -/
theorem faithful_two_bytes :
    Faithful defaults 0 client (alone (oneBlock [7, 8] (by decide) (by decide)))
      (takes client (oneBlock [7, 8] (by decide) (by decide))) := by
  refine (faithful_iff (delivery_alone client (List.cons_ne_nil _ _))).mpr ⟨fun conn => ?_, ?_⟩
  · cases conn with
    | zero => exact List.forall_mem_singleton.mpr (by decide)
    | succ conn => exact fun it hit => nomatch hit
  · exact (run_halted_iff _).mp (by decide +kernel)

/-- A block of one byte closes the device that it is from, and is lost. -/
theorem one_byte_closes :
    let conn := oneBlock [7] (by decide) (by decide)
    Delivery client (alone conn) (takes client conn) ∧
      (Runs.run (Host.step defaults 0) {} (takes client conn)).removed = 1 ∧
      (Runs.run (Host.step defaults 0) {} (takes client conn)).files (sda.chars, 0) = [] ∧
      conn.blocksFor (sda.chars, 0) = [7] ∧
      ¬ Faithful defaults 0 client (alone conn) (takes client conn) := by
  dsimp only
  have hremoved : (Runs.run (Host.step defaults 0) {}
      (takes client (oneBlock [7] (by decide) (by decide)))).removed = 1 := by decide +kernel
  have hfile : (Runs.run (Host.step defaults 0) {}
      (takes client (oneBlock [7] (by decide) (by decide)))).files (sda.chars, 0) = [] := by
    decide +kernel
  refine ⟨delivery_alone client (List.cons_ne_nil _ _), hremoved, hfile, by decide, fun hf => ?_⟩
  have hblock := hf.files 0 (sda.chars, 0) fun conn' hne => by
    cases conn' with
    | zero => exact absurd rfl hne
    | succ conn' => rfl
  rw [hfile] at hblock
  revert hblock
  decide

end Blktrace.Server
