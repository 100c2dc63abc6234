import Mathlib

/-!
# Values as bytes

A `Layout` says how the values of a type lie in memory: a fixed number of bytes each, and reading
back what was stored gives the value again. Words are laid out in either byte order; pairs and
arrays of laid out values follow one another without gaps.
-/

namespace Bytes

/-! ## Numbers -/

/-- The number with these bytes, least significant first. -/
def toNat : List UInt8 → ℕ
  | [] => 0
  | b :: bs => b.toNat + 256 * toNat bs

/-- The `size` low bytes of a number, least significant first. -/
def ofNat : ℕ → ℕ → List UInt8
  | 0, _ => []
  | size + 1, n => UInt8.ofNat n :: ofNat size (n / 256)

@[simp] theorem length_ofNat (size n : ℕ) : (ofNat size n).length = size := by
  induction size generalizing n with
  | zero => rfl
  | succ size ih => rw [ofNat, List.length_cons, ih]

theorem toNat_lt (bs : List UInt8) : toNat bs < 256 ^ bs.length := by
  induction bs with
  | nil => simp [toNat]
  | cons b bs ih =>
    rw [toNat, List.length_cons, pow_succ]
    have hb : b.toNat < 256 := b.toNat_lt
    omega

theorem toNat_ofNat {size n : ℕ} (h : n < 256 ^ size) : toNat (ofNat size n) = n := by
  induction size generalizing n with
  | zero => simp only [pow_zero, Nat.lt_one_iff] at h; rw [h]; rfl
  | succ size ih =>
    rw [ofNat, toNat, ih (Nat.div_lt_of_lt_mul (by rwa [pow_succ'] at h))]
    have hb : (UInt8.ofNat n).toNat = n % 256 := by simp
    rw [hb, Nat.mod_add_div]

theorem ofNat_toNat (bs : List UInt8) : ofNat bs.length (toNat bs) = bs := by
  induction bs with
  | nil => rfl
  | cons b bs ih =>
    have hb : b.toNat < 256 := b.toNat_lt
    have hdiv : (b.toNat + 256 * toNat bs) / 256 = toNat bs := by omega
    rw [List.length_cons, toNat, ofNat, hdiv, ih]
    congr 1
    apply UInt8.toNat_inj.mp
    simp

/-- Byte `k` of a number, wherever it is taken from. -/
theorem ofNat_eq_map (size n : ℕ) :
    ofNat size n = (List.range size).map fun k => UInt8.ofNat (n / 256 ^ k) := by
  induction size generalizing n with
  | zero => rfl
  | succ size ih =>
    rw [ofNat, ih, List.range_succ_eq_map, List.map_cons, List.map_map]
    congr 1
    · rw [pow_zero, Nat.div_one]
    · apply List.map_congr_left
      intro k _
      rw [Function.comp_apply, pow_succ', Nat.div_div_eq_div_mul]

/-- Bit `i` of byte `k` of a number. -/
theorem testBit_byte (n k : ℕ) {i : ℕ} (hi : i < 8) :
    (UInt8.ofNat (n / 256 ^ k)).toNat.testBit i = n.testBit (8 * k + i) := by
  have hpow : 256 ^ k = 2 ^ (8 * k) := by rw [pow_mul]; norm_num
  have hmod : (UInt8.ofNat (n / 256 ^ k)).toNat = n / 256 ^ k % 2 ^ 8 := by simp
  rw [hmod, hpow, ← Nat.shiftRight_eq_div_pow, Nat.testBit_mod_two_pow, Nat.testBit_shiftRight]
  simp [hi]

/-- Two numbers whose bytes are the same in opposite orders. -/
theorem ofNat_eq_reverse {size m n : ℕ}
    (h : ∀ k < size, ∀ i < 8, m.testBit (8 * k + i) = n.testBit (8 * (size - 1 - k) + i)) :
    ofNat size m = (ofNat size n).reverse := by
  apply List.ext_getElem
  · simp
  intro k hk hk'
  rw [length_ofNat] at hk
  simp only [ofNat_eq_map, List.getElem_map, List.getElem_range, List.getElem_reverse,
    List.length_map, List.length_range]
  apply UInt8.toNat_inj.mp
  apply Nat.eq_of_testBit_eq
  intro i
  by_cases hi : i < 8
  · rw [testBit_byte m k hi, testBit_byte n _ hi]
    exact h k hk i hi
  · have hhigh : ∀ b : UInt8, b.toNat.testBit i = false := fun b =>
      Nat.testBit_lt_two_pow (lt_of_lt_of_le b.toNat_lt (Nat.pow_le_pow_right (by norm_num)
        (not_lt.mp hi)))
    rw [hhigh, hhigh]

/-! ## Layouts -/

/-- How the values of a type lie in memory. -/
structure Layout (α : Type*) where
  size : ℕ
  store : α → List UInt8
  load : List UInt8 → α
  length_store : ∀ a, (store a).length = size
  load_store : ∀ a bs, load (store a ++ bs) = a

attribute [simp] Layout.length_store Layout.load_store

namespace Layout

variable {α β : Type*}

@[simp] theorem load_store_self (l : Layout α) (a : α) : l.load (l.store a) = a := by
  simpa using l.load_store a []

theorem drop_store (l : Layout α) (a : α) (bs : List UInt8) :
    (l.store a ++ bs).drop l.size = bs := by
  rw [← l.length_store a, List.drop_left]

/-- One value after the other. -/
def prod (l : Layout α) (m : Layout β) : Layout (α × β) where
  size := l.size + m.size
  store a := l.store a.1 ++ m.store a.2
  load bs := (l.load bs, m.load (bs.drop l.size))
  length_store a := by simp
  load_store a bs := by
    rw [List.append_assoc, l.load_store, l.drop_store, m.load_store]

/-- The layout of a type whose values are made of laid out ones. -/
def map (l : Layout α) (f : α → β) (g : β → α) (h : ∀ b, f (g b) = b) : Layout β where
  size := l.size
  store b := l.store (g b)
  load bs := f (l.load bs)
  length_store b := l.length_store (g b)
  load_store b bs := by rw [l.load_store, h]

/-! ### Arrays -/

def storeAll (l : Layout α) (as : List α) : List UInt8 := as.flatMap l.store

/-- An array of `n` values. -/
def loadAll (l : Layout α) : ℕ → List UInt8 → List α
  | 0, _ => []
  | n + 1, bs => l.load bs :: loadAll l n (bs.drop l.size)

@[simp] theorem storeAll_nil (l : Layout α) : l.storeAll [] = [] := rfl

@[simp] theorem storeAll_cons (l : Layout α) (a : α) (as : List α) :
    l.storeAll (a :: as) = l.store a ++ l.storeAll as := rfl

@[simp] theorem length_storeAll (l : Layout α) (as : List α) :
    (l.storeAll as).length = as.length * l.size := by
  induction as with
  | nil => simp
  | cons a as ih =>
    rw [storeAll_cons, List.length_append, ih, l.length_store, List.length_cons]
    ring

theorem loadAll_storeAll (l : Layout α) (as : List α) (bs : List UInt8) :
    l.loadAll as.length (l.storeAll as ++ bs) = as := by
  induction as with
  | nil => rfl
  | cons a as ih =>
    rw [List.length_cons, storeAll_cons, List.append_assoc, loadAll, l.load_store, l.drop_store, ih]

end Layout

/-! ## Words -/

/-- A word of `size` bytes in either byte order. -/
def word {α : Type*} (size : ℕ) (num : α → ℕ) (val : ℕ → α) (hnum : ∀ a, num a < 256 ^ size)
    (hval : ∀ a, val (num a) = a) (big : Bool) : Layout α where
  size := size
  store a := if big then (ofNat size (num a)).reverse else ofNat size (num a)
  load bs := val (toNat (if big then (bs.take size).reverse else bs.take size))
  length_store a := by cases big <;> simp
  load_store a bs := by
    cases big with
    | false =>
      simp only [Bool.false_eq_true, if_false]
      rw [List.take_left' (length_ofNat _ _), toNat_ofNat (hnum a), hval]
    | true =>
      simp only [if_true]
      rw [List.take_left' (by simp), List.reverse_reverse, toNat_ofNat (hnum a), hval]

def u16 : Bool → Layout UInt16 :=
  word 2 UInt16.toNat UInt16.ofNat (fun a => a.toNat_lt) (fun _ => by simp)

def u32 : Bool → Layout UInt32 :=
  word 4 UInt32.toNat UInt32.ofNat (fun a => a.toNat_lt) (fun _ => by simp)

def u64 : Bool → Layout UInt64 :=
  word 8 UInt64.toNat UInt64.ofNat (fun a => a.toNat_lt) (fun _ => by simp)

/-- What lies in memory is what the word is made of, and read the other way round it is the word
whose bytes are in the opposite order. -/
theorem word_load_true {α : Type*} {size : ℕ} {num : α → ℕ} {val : ℕ → α}
    {hnum : ∀ a, num a < 256 ^ size} {hval : ∀ a, val (num a) = a}
    (hmod : ∀ n < 256 ^ size, num (val n) = n) {swap : α → α}
    (hswap : ∀ a, ofNat size (num (swap a)) = (ofNat size (num a)).reverse)
    {bs : List UInt8} (hbs : size ≤ bs.length) :
    (word size num val hnum hval true).load bs = swap ((word size num val hnum hval false).load bs) := by
  have hlen : (bs.take size).length = size := List.length_take_of_le hbs
  have hlt : toNat (bs.take size) < 256 ^ size := by
    have hlt := toNat_lt (bs.take size)
    rwa [hlen] at hlt
  have hbytes : ofNat size (toNat (bs.take size)) = bs.take size := by
    have hself := ofNat_toNat (bs.take size)
    rwa [hlen] at hself
  have hrev := hswap (val (toNat (bs.take size)))
  rw [hmod _ hlt, hbytes] at hrev
  show val (toNat (bs.take size).reverse) = swap (val (toNat (bs.take size)))
  rw [← hrev, toNat_ofNat (hnum _), hval]

/-! ### What was loaded is what was stored -/

/-- Every image is the image of what it is loaded as. -/
def Layout.Onto {α : Type*} (l : Layout α) : Prop :=
  ∀ bs : List UInt8, l.size ≤ bs.length → l.store (l.load bs) = bs.take l.size

theorem onto_word {α : Type*} {size : ℕ} {num : α → ℕ} {val : ℕ → α}
    {hnum : ∀ a, num a < 256 ^ size} {hval : ∀ a, val (num a) = a}
    (hmod : ∀ n < 256 ^ size, num (val n) = n) (big : Bool) :
    (word size num val hnum hval big).Onto := by
  intro bs hbs
  have hlen : (bs.take size).length = size := List.length_take_of_le hbs
  have hback : ∀ cs : List UInt8, cs.length = size → ofNat size (num (val (toNat cs))) = cs := by
    intro cs hcs
    have hlt := toNat_lt cs
    have hself := ofNat_toNat cs
    rw [hcs] at hlt hself
    rw [hmod _ hlt, hself]
  cases big with
  | false => exact hback _ hlen
  | true =>
    show (ofNat size (num (val (toNat (bs.take size).reverse)))).reverse = bs.take size
    rw [hback _ (by rw [List.length_reverse, hlen]), List.reverse_reverse]

theorem Layout.Onto.prod {α β : Type*} {l : Layout α} {m : Layout β} (hl : l.Onto) (hm : m.Onto) :
    (l.prod m).Onto := by
  intro bs hbs
  have hsize : l.size + m.size ≤ bs.length := hbs
  show l.store (l.load bs) ++ m.store (m.load (bs.drop l.size)) = bs.take (l.size + m.size)
  rw [hl bs (by omega), hm _ (by rw [List.length_drop]; omega), List.take_add]

@[simp] theorem u16_size (big : Bool) : (u16 big).size = 2 := rfl
@[simp] theorem u32_size (big : Bool) : (u32 big).size = 4 := rfl
@[simp] theorem u64_size (big : Bool) : (u64 big).size = 8 := rfl

end Bytes
