import Blktrace.Lib.Zipper
import Mathlib.Data.BitVec

/-!
# Nodes and the memory they lie in

The parent of a node and its colour share a word: nodes are aligned, so that the two low bits of an address are
free. All else that the functions do they do by reading and writing nodes at addresses, and reading where no
node is fails.
-/

namespace Blktrace.Rbtree

open SearchTree

/-- `struct rb_node *`; 0 is `NULL`. -/
abbrev Ptr := BitVec 64

@[ext] structure RbNode where
  rbParentColor : BitVec 64
  rbRight : Ptr
  rbLeft : Ptr
  deriving DecidableEq

def RB_RED : BitVec 64 := 0
def RB_BLACK : BitVec 64 := 1

def rbParent (r : RbNode) : Ptr := r.rbParentColor &&& ~~~3
def rbColor (r : RbNode) : BitVec 64 := r.rbParentColor &&& 1
def rbIsRed (r : RbNode) : Bool := rbColor r == 0
def rbIsBlack (r : RbNode) : Bool := rbColor r != 0
def rbSetRed (r : RbNode) : RbNode := { r with rbParentColor := r.rbParentColor &&& ~~~1 }
def rbSetBlack (r : RbNode) : RbNode := { r with rbParentColor := r.rbParentColor ||| 1 }

def rbSetParent (p : Ptr) (rb : RbNode) : RbNode :=
  { rb with rbParentColor := rb.rbParentColor &&& 3 ||| p }

def rbSetColor (color : BitVec 64) (rb : RbNode) : RbNode :=
  { rb with rbParentColor := rb.rbParentColor &&& ~~~1 ||| color }

namespace RbNode

/-- `rb_left` or `rb_right`. -/
def child (s : Side) (n : RbNode) : Ptr := s.pick n.rbLeft n.rbRight

def setChild (s : Side) (p : Ptr) (n : RbNode) : RbNode :=
  match s with
  | .left => { n with rbLeft := p }
  | .right => { n with rbRight := p }

@[simp] theorem child_setChild (s : Side) (p : Ptr) (n : RbNode) : (n.setChild s p).child s = p := by
  cases s <;> rfl

@[simp] theorem child_setChild_other (s : Side) (p : Ptr) (n : RbNode) :
    (n.setChild s p).child s.other = n.child s.other := by
  cases s <;> rfl

@[simp] theorem other_child_setChild (s : Side) (p : Ptr) (n : RbNode) :
    (n.setChild s.other p).child s = n.child s := by
  cases s <;> rfl

@[simp] theorem rbParent_setChild (s : Side) (p : Ptr) (n : RbNode) :
    rbParent (n.setChild s p) = rbParent n := by
  cases s <;> rfl

@[simp] theorem rbIsRed_setChild (s : Side) (p : Ptr) (n : RbNode) :
    rbIsRed (n.setChild s p) = rbIsRed n := by
  cases s <;> rfl

end RbNode

/-! ## The shared word -/

/-- An address that leaves the two low bits free. -/
def Aligned (p : Ptr) : Prop := p &&& 3 = 0

theorem aligned_null : Aligned 0 := BitVec.zero_and

theorem and_or (x y z : BitVec 64) : (x ||| y) &&& z = x &&& z ||| y &&& z := by
  rw [BitVec.and_comm, BitVec.and_or_distrib_left, BitVec.and_comm z x, BitVec.and_comm z y]

theorem Aligned.and_mask {p : Ptr} (h : Aligned p) : p &&& ~~~3 = p := by
  have hall : p &&& (3 ||| ~~~3) = p := by
    rw [show (3 ||| ~~~3 : BitVec 64) = BitVec.allOnes 64 by decide, BitVec.and_allOnes]
  rw [BitVec.and_or_distrib_left, show p &&& 3 = 0 from h] at hall
  simpa using hall

theorem Aligned.and_one {p : Ptr} (h : Aligned p) : p &&& 1 = 0 := by
  rw [show (1 : BitVec 64) = 3 &&& 1 by decide, ← BitVec.and_assoc, show p &&& 3 = 0 from h]
  exact BitVec.zero_and

@[simp] theorem rbParent_rbSetRed (n : RbNode) : rbParent (rbSetRed n) = rbParent n := by
  rw [rbParent, rbSetRed, BitVec.and_assoc, show (~~~1 &&& ~~~3 : BitVec 64) = ~~~3 by decide, rbParent]

@[simp] theorem rbParent_rbSetBlack (n : RbNode) : rbParent (rbSetBlack n) = rbParent n := by
  rw [rbParent, rbSetBlack, and_or, show (1 &&& ~~~3 : BitVec 64) = 0#64 by decide, BitVec.or_zero, rbParent]

theorem rbParent_rbSetParent {p : Ptr} (h : Aligned p) (n : RbNode) : rbParent (rbSetParent p n) = p := by
  rw [rbParent, rbSetParent, and_or, h.and_mask, BitVec.and_assoc, show (3 &&& ~~~3 : BitVec 64) = 0#64 by decide,
    BitVec.and_zero, BitVec.zero_or]

theorem rbColor_rbSetParent {p : Ptr} (h : Aligned p) (n : RbNode) : rbColor (rbSetParent p n) = rbColor n := by
  rw [rbColor, rbSetParent, and_or, show p &&& 1 = 0#64 from h.and_one, BitVec.and_assoc, show (3 &&& 1 : BitVec 64) = 1 by decide,
    BitVec.or_zero, rbColor]

@[simp] theorem rbIsRed_rbSetRed (n : RbNode) : rbIsRed (rbSetRed n) = true := by
  rw [rbIsRed, rbColor, rbSetRed, BitVec.and_assoc, show (~~~1 &&& 1 : BitVec 64) = 0#64 by decide, BitVec.and_zero]
  rfl

@[simp] theorem rbIsRed_rbSetBlack (n : RbNode) : rbIsRed (rbSetBlack n) = false := by
  have hbit : (n.rbParentColor ||| 1) &&& 1 = 1 := by
    rw [and_or, BitVec.and_self, BitVec.or_comm]
    ext i
    simp only [BitVec.getElem_or, BitVec.getElem_and]
    cases (1 : BitVec 64)[i] <;> simp
  rw [rbIsRed, rbColor, rbSetBlack, hbit]
  rfl

/-- The colour of another node is taken over, the parent stays. -/
theorem rbParent_rbSetColor (m n : RbNode) : rbParent (rbSetColor (rbColor m) n) = rbParent n := by
  rw [rbParent, rbSetColor, rbColor, and_or, BitVec.and_assoc, BitVec.and_assoc,
    show (1 &&& ~~~3 : BitVec 64) = 0#64 by decide, BitVec.and_zero, BitVec.or_zero,
    show (~~~1 &&& ~~~3 : BitVec 64) = ~~~3 by decide, rbParent]

theorem rbColor_rbSetColor (m n : RbNode) : rbColor (rbSetColor (rbColor m) n) = rbColor m := by
  rw [rbColor, rbSetColor, rbColor, and_or, BitVec.and_assoc, BitVec.and_assoc, BitVec.and_self,
    show (~~~1 &&& 1 : BitVec 64) = 0#64 by decide, BitVec.and_zero, BitVec.zero_or]

theorem rbIsRed_eq_of_color {m n : RbNode} (h : rbColor m = rbColor n) : rbIsRed m = rbIsRed n := by
  rw [rbIsRed, rbIsRed, h]

theorem rbIsRed_eq_false {n : RbNode} : rbIsRed n = false ↔ rbColor n = RB_BLACK := by
  have hbit : rbColor n = 0 ∨ rbColor n = RB_BLACK := by
    rw [rbColor, RB_BLACK, show (1 : BitVec 64) = 1#64 from rfl, BitVec.and_one_eq_setWidth_ofBool_getLsbD]
    cases n.rbParentColor.getLsbD 0
    · exact .inl (by decide)
    · exact .inr (by decide)
  rw [rbIsRed]
  rcases hbit with h | h
  · rw [h]
    decide
  · rw [h]
    decide

/-! ## Memory -/

/-- The nodes by their addresses, and `root->rb_node`. -/
structure Heap where
  mem : Ptr → Option RbNode
  rbNode : Ptr

namespace Heap

/-- `*p` -/
def get (h : Heap) (p : Ptr) : Option RbNode := if p = 0 then none else h.mem p

def put (p : Ptr) (n : RbNode) (h : Heap) : Heap := { h with mem := Function.update h.mem p (some n) }

/-- A node is written to, where there is one. -/
def modify (p : Ptr) (f : RbNode → RbNode) (h : Heap) : Option Heap :=
  (h.get p).map fun n => h.put p (f n)

/-- `p && rb_is_red(p)` -/
def redAt (h : Heap) (p : Ptr) : Option Bool := if p = 0 then some false else (h.get p).map rbIsRed

theorem get_put {p : Ptr} (hp : p ≠ 0) (n : RbNode) (h : Heap) (q : Ptr) :
    (h.put p n).get q = if q = p then some n else h.get q := by
  rw [get, get, put]
  dsimp only
  by_cases hq : q = p
  · rw [hq, if_neg hp, if_pos rfl, Function.update_self]
  · rw [if_neg hq, Function.update_of_ne hq]

theorem modify_eq {h : Heap} {p : Ptr} {n : RbNode} (hn : h.get p = some n) (f : RbNode → RbNode) :
    h.modify p f = some (h.put p (f n)) := by rw [modify, hn, Option.map_some]

end Heap

end Blktrace.Rbtree
