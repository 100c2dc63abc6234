import Blktrace.Image
import Blktrace.Server.Host

/-!
# `blktrace.c`: headers on the wire

What `net_send_header` writes, and what `net_client_data` makes of the bytes of a connection: a
header, and behind it the bytes that the header announces, as long as the magic is right.
-/

namespace Blktrace.Server

open Bytes

/-- `buts.name`, of 32 bytes with the NUL. -/
structure ButsName where
  chars : List UInt8
  length_lt : chars.length < 32
  not_mem : (0 : UInt8) ∉ chars

/-- What all the headers of a client say of it. -/
structure NetClient where
  ncpus : UInt32
  pid : UInt32
  bufSize : UInt32
  bufNr : UInt32
  pagesize : UInt32
  /-- The byte order of the client. -/
  big : Bool

/-- `cpu`, `max_cpus`, `len`, `cl_id`, `buf_size`, `buf_nr` and `page_size`. -/
abbrev HdrWords := UInt32 × UInt32 × UInt32 × UInt32 × UInt32 × UInt32 × UInt32

def wordsLayout (big : Bool) : Layout HdrWords :=
  (u32 big).prod <| (u32 big).prod <| (u32 big).prod <| (u32 big).prod <| (u32 big).prod <|
    (u32 big).prod (u32 big)

/-- `sizeof(struct blktrace_net_hdr)`. -/
def netHdrSize : ℕ := 64

/-- `net_send_header`. -/
def netSendHeader (c : NetClient) (cpu : UInt32) (name : ButsName) (len : UInt32) : List UInt8 :=
  (u32 c.big).store blkIoTraceMagic ++
    ((name.chars ++ List.replicate (32 - name.chars.length) 0) ++
      (wordsLayout c.big).store (cpu, c.ncpus, len, c.pid, c.bufSize, c.bufNr, c.pagesize))

/-- `be32_to_cpu`, where the data is not native. -/
def be32ToCpu (native : Bool) (x : UInt32) : UInt32 := if native then x else bswap32 x

def wordsToCpu (native : Bool) : HdrWords → HdrWords
  | (cpu, maxCpus, len, clId, bufSize, bufNr, pageSize) =>
    (be32ToCpu native cpu, be32ToCpu native maxCpus, be32ToCpu native len, be32ToCpu native clId,
      be32ToCpu native bufSize, be32ToCpu native bufNr, be32ToCpu native pageSize)

/-- `bnh->magic`, as it came. -/
def hdrMagic (bs : List UInt8) : UInt32 := (u32 false).load bs

/-- The header that stands in front, once it is converted. -/
def hdrToCpu (native : Bool) (bs : List UInt8) : NetHdr (List UInt8) :=
  let words := wordsToCpu native ((wordsLayout false).load (bs.drop 36))
  { -- a name without a NUL runs on into what is behind it
    butsName := ((bs.drop 4).take 32 ++ (wordsLayout false).store words).takeWhile (· ≠ 0)
    cpu := words.1
    maxCpus := words.2.1
    len := words.2.2.1 }

/-- How many bytes behind the header are taken with it. -/
def NetHdr.payload {ν : Type*} (hdr : NetHdr ν) : ℕ :=
  if hdr.len = 0 ∨ hdr.len = 1 then 0 else hdr.len.toNat

/-- `data_is_native` behind the first test of `net_client_data`, none where that fails. -/
def nativeOf (native : Option Bool) (bs : List UInt8) : Option Bool :=
  match native with
  | some native => some native
  | none => checkDataEndianness (hdrMagic bs)

/-- The headers that `net_client_data` reads of a connection, each with what is received for it.
The list ends with the bytes, and where `blktrace` exits over a header that is short or has no
magic. -/
def netMessages : ℕ → Option Bool → List UInt8 → List (NetHdr (List UInt8) × List UInt8)
  | 0, _, _ => []
  | fuel + 1, native, bs =>
    if bs.length < netHdrSize then []
    else
      match nativeOf native bs with
      | none => []
      | some native =>
        if checkMagic (be32ToCpu native (hdrMagic bs)) then
          let hdr := hdrToCpu native bs
          let rest := bs.drop netHdrSize
          (hdr, rest.take hdr.payload) :: netMessages fuel (some native) (rest.drop hdr.payload)
        else []

/-! ## A header that was sent -/

theorem be32ToCpu_load (big : Bool) (x : UInt32) (bs : List UInt8) :
    be32ToCpu (!big) ((u32 false).load ((u32 big).store x ++ bs)) = x := by
  cases big with
  | false => exact (u32 false).load_store x bs
  | true =>
    show bswap32 _ = x
    rw [← u32_load_true (by simp [u32, word]), (u32 true).load_store]

theorem wordsToCpu_load (big : Bool) (words : HdrWords) (bs : List UInt8) :
    wordsToCpu (!big) ((wordsLayout false).load ((wordsLayout big).store words ++ bs)) = words := by
  have hdrop : ∀ (x : UInt32) (cs : List UInt8), ((u32 big).store x ++ cs).drop 4 = cs :=
    fun x cs => (u32 big).drop_store x cs
  obtain ⟨a, b, c, d, e, f, g⟩ := words
  simp only [wordsLayout, Layout.prod, u32_size, List.append_assoc, hdrop, wordsToCpu, be32ToCpu_load]

theorem length_netSendHeader (c : NetClient) (cpu : UInt32) (name : ButsName) (len : UInt32) :
    (netSendHeader c cpu name len).length = netHdrSize := by
  have hname := name.length_lt
  simp only [netSendHeader, List.length_append, Layout.length_store, List.length_replicate, u32_size]
  show 4 + (name.chars.length + (32 - name.chars.length) + 28) = 64
  omega

/-- Where the header of a client stands in front, the magic is right and says the byte order. -/
theorem hdrMagic_netSendHeader (c : NetClient) (cpu : UInt32) (name : ButsName) (len : UInt32)
    (bs : List UInt8) :
    be32ToCpu (!c.big) (hdrMagic (netSendHeader c cpu name len ++ bs)) = blkIoTraceMagic := by
  rw [netSendHeader, List.append_assoc]
  exact be32ToCpu_load c.big _ _

theorem checkDataEndianness_netSendHeader (c : NetClient) (cpu : UInt32) (name : ButsName)
    (len : UInt32) (bs : List UInt8) :
    checkDataEndianness (hdrMagic (netSendHeader c cpu name len ++ bs)) = some (!c.big) := by
  have hmagic := hdrMagic_netSendHeader c cpu name len bs
  generalize hdrMagic (netSendHeader c cpu name len ++ bs) = magic at hmagic ⊢
  cases hbig : c.big with
  | false =>
    rw [hbig] at hmagic
    obtain rfl : magic = blkIoTraceMagic := hmagic
    decide
  | true =>
    rw [hbig] at hmagic
    have hswap : bswap32 magic = blkIoTraceMagic := hmagic
    rw [← bswap32_bswap32 magic, hswap]
    decide

theorem hdrToCpu_netSendHeader (c : NetClient) (cpu : UInt32) (name : ButsName) (len : UInt32)
    (bs : List UInt8) :
    hdrToCpu (!c.big) (netSendHeader c cpu name len ++ bs) =
      { butsName := name.chars, cpu := cpu, maxCpus := c.ncpus, len := len } := by
  have hname := name.length_lt
  have hlen : (name.chars ++ List.replicate (32 - name.chars.length) (0 : UInt8)).length = 32 := by
    rw [List.length_append, List.length_replicate]
    omega
  generalize hpad : name.chars ++ List.replicate (32 - name.chars.length) (0 : UInt8) = pad at hlen
  have hdrop4 : (netSendHeader c cpu name len ++ bs).drop 4 = pad ++ ((wordsLayout c.big).store
      (cpu, c.ncpus, len, c.pid, c.bufSize, c.bufNr, c.pagesize) ++ bs) := by
    rw [netSendHeader, hpad, List.append_assoc, ← List.append_assoc pad]
    exact (u32 c.big).drop_store _ _
  have hdrop36 : (netSendHeader c cpu name len ++ bs).drop 36 = (wordsLayout c.big).store
      (cpu, c.ncpus, len, c.pid, c.bufSize, c.bufNr, c.pagesize) ++ bs := by
    rw [show 36 = 4 + 32 from rfl, ← List.drop_drop, hdrop4, ← hlen, List.drop_left]
  have hchars : ∀ cs : List UInt8, (pad ++ cs).takeWhile (· ≠ 0) = name.chars := by
    intro cs
    obtain ⟨n, hn⟩ : ∃ n, 32 - name.chars.length = n + 1 := ⟨31 - name.chars.length, by omega⟩
    rw [← hpad, hn, List.replicate_succ, List.append_assoc, List.cons_append,
      List.takeWhile_append_of_pos, List.takeWhile_cons_of_neg, List.append_nil]
    · simp
    · intro b hb
      simpa using ne_of_mem_of_not_mem hb name.not_mem
  unfold hdrToCpu
  dsimp only
  rw [hdrop36, wordsToCpu_load, hdrop4, ← hlen, List.take_left, hchars]

end Blktrace.Server
